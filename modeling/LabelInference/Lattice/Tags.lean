import LabelInference.Hex
import LabelInference.Lattice

namespace LabelInference

-- Eight tags as the bits of a byte, ordered by inclusion.
structure Tags where
  bits : UInt8
  deriving DecidableEq

namespace Tags

instance : Join Tags := ⟨fun a b => ⟨a.bits ||| b.bits⟩⟩

instance : Meet Tags := ⟨fun a b => ⟨a.bits &&& b.bits⟩⟩

instance : Imply Tags := ⟨fun a b => ⟨~~~a.bits ||| b.bits⟩⟩

-- Each step down loses a tag.
instance : ChainBound Tags := ⟨fun _ => 8⟩

def bounds : Bounds Tags := ⟨⟨255⟩, ⟨0⟩⟩

def text (t : Tags) : String :=
  "0x" ++ String.ofList [hexDigit (t.bits.toNat / 16), hexDigit (t.bits.toNat % 16)]

instance : ToString Tags := ⟨text⟩

end Tags

end LabelInference

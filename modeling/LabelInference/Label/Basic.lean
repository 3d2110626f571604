import LabelInference.Lattice

namespace LabelInference

universe u

-- Who may read a value, and who may have influenced it. A lower principal is trusted more.
structure Label (γ : Type u) where
  confidentiality : γ
  integrity : γ
  deriving DecidableEq

namespace Label

variable {γ : Type u}

def uniform (p : γ) : Label γ := ⟨p, p⟩

def swap (l : Label γ) : Label γ := ⟨l.integrity, l.confidentiality⟩

-- The projections leave the other component to the weakest principal.
def confidentialityOnly (b : Bounds γ) (l : Label γ) : Label γ := ⟨l.confidentiality, b.top⟩

def integrityOnly (b : Bounds γ) (l : Label γ) : Label γ := ⟨b.top, l.integrity⟩

def flowsTo (order : γ → γ → Bool) (l k : Label γ) : Bool :=
  order k.confidentiality l.confidentiality && order l.integrity k.integrity

def actsFor (order : γ → γ → Bool) (l k : Label γ) : Bool :=
  order l.confidentiality k.confidentiality && order l.integrity k.integrity

-- Join and meet are those of information flow.
instance [Join γ] [Meet γ] : Join (Label γ) where
  join l k := ⟨meet l.confidentiality k.confidentiality, join l.integrity k.integrity⟩

instance [Join γ] [Meet γ] : Meet (Label γ) where
  meet l k := ⟨join l.confidentiality k.confidentiality, meet l.integrity k.integrity⟩

-- Trusted if both are.
def conj [Meet γ] (l k : Label γ) : Label γ :=
  ⟨meet l.confidentiality k.confidentiality, meet l.integrity k.integrity⟩

-- Trusted if either is.
def disj [Join γ] (l k : Label γ) : Label γ :=
  ⟨join l.confidentiality k.confidentiality, join l.integrity k.integrity⟩

-- Trusted for everything.
def strongest (b : Bounds γ) : Label γ := ⟨b.bottom, b.bottom⟩

-- Trusted for nothing.
def weakest (b : Bounds γ) : Label γ := ⟨b.top, b.top⟩

-- Public and trusted: it flows everywhere.
def lowest (b : Bounds γ) : Label γ := ⟨b.top, b.bottom⟩

-- Secret and untrusted: everything flows to it.
def highest (b : Bounds γ) : Label γ := ⟨b.bottom, b.top⟩

def flowBounds (b : Bounds γ) : Bounds (Label γ) := ⟨highest b, lowest b⟩

def text [ToString γ] [DecidableEq γ] (l : Label γ) : String :=
  if l.confidentiality = l.integrity then "\x7b" ++ toString l.confidentiality ++ "\x7d"
  else "\x7b" ++ toString l.confidentiality ++ "-> ∧ " ++ toString l.integrity ++ "<-\x7d"

instance [ToString γ] [DecidableEq γ] : ToString (Label γ) := ⟨text⟩

end Label

end LabelInference

import LabelInference.Lattice
import LabelInference.OrderedSet

namespace LabelInference

universe u

-- A join of meets of atoms in which no meet contains a different one. Each element is written exactly once.
structure FreeLattice (α : Type u) [Ordered α] where
  meets : OrderedSet (OrderedSet α)
  irredundant : ∀ m ∈ meets, ∀ n ∈ meets, n ⊆ m → n = m

namespace FreeLattice

variable {α : Type u} [Ordered α]

theorem meets_injective : ∀ {a b : FreeLattice α}, a.meets = b.meets → a = b
  | ⟨_, _⟩, ⟨_, _⟩, rfl => rfl

instance : DecidableEq (FreeLattice α) := fun a b =>
  decidable_of_iff (a.meets = b.meets) ⟨meets_injective, congrArg meets⟩

-- Elements are listed in the lexicographic order of their meets.
instance : Ordered (FreeLattice α) where
  lt a b := a.meets < b.meets
  decEq := inferInstance
  decLt a b := inferInstanceAs (Decidable (a.meets < b.meets))
  lt_irrefl a := Ordered.lt_irrefl a.meets
  lt_trans h h' := Ordered.lt_trans h h'
  lt_trichotomy a b := by
    rcases Ordered.lt_trichotomy a.meets b.meets with h | h | h
    · exact .inl h
    · exact .inr (.inl (meets_injective h))
    · exact .inr (.inr h)

-- A meet stays if no other meet of the set is contained in it.
def isMinimal (ms : OrderedSet (OrderedSet α)) (m : OrderedSet α) : Bool :=
  ms.toList.all fun n => n ⊆ m → n = m

theorem isMinimal_iff {ms : OrderedSet (OrderedSet α)} {m : OrderedSet α} :
    isMinimal ms m = true ↔ ∀ n ∈ ms, n ⊆ m → n = m := by
  simp [isMinimal, Decidable.imp_iff_not_or]

-- The join of a set of meets, freed of the meets that others imply.
def joinOf (ms : OrderedSet (OrderedSet α)) : FreeLattice α where
  meets := ms.filter (isMinimal ms)
  irredundant _ hm n hn h :=
    isMinimal_iff.mp (OrderedSet.mem_filter.mp hm).2 n (OrderedSet.mem_filter.mp hn).1 h

def ofMeets (ms : List (List α)) : FreeLattice α :=
  joinOf (.ofList (ms.map .ofList))

def atom (a : α) : FreeLattice α where
  meets := .singleton (.singleton a)
  irredundant m hm n hn _ := by simp_all

-- The join of the empty meet alone.
def top : FreeLattice α where
  meets := .singleton .empty
  irredundant m hm n hn _ := by simp_all

-- The empty join.
def bottom : FreeLattice α where
  meets := .empty
  irredundant m hm := by simp at hm

def bounds : Bounds (FreeLattice α) := ⟨top, bottom⟩

instance : Join (FreeLattice α) where
  join a b := joinOf (a.meets.union b.meets)

-- By distributivity the meet of two joins is the join of the meets of all pairs.
instance : Meet (FreeLattice α) where
  meet a b := joinOf (.ofList (a.meets.toList.flatMap fun m => b.meets.toList.map m.union))

-- What must be added to the meet `m` for `b` to follow: from each meet of `b`, the atoms `m` lacks.
def residual (m : OrderedSet α) (b : FreeLattice α) : FreeLattice α :=
  joinOf (.ofList (b.meets.toList.map (· \ m)))

-- An element has to yield `b` together with every meet of `a`, so the residuals are met.
instance : Imply (FreeLattice α) where
  imply a b := a.meets.toList.foldl (fun acc m => meet acc (residual m b)) top

-- The reading of an element when exactly the atoms that `truth` accepts are true.
def holds (truth : α → Bool) (a : FreeLattice α) : Bool :=
  a.meets.toList.any fun m => m.toList.all truth

theorem holds_iff {truth : α → Bool} {a : FreeLattice α} :
    a.holds truth = true ↔ ∃ m ∈ a.meets, ∀ x ∈ m, truth x = true := by
  simp [holds]

theorem holds_mono {truth truth' : α → Bool} {a : FreeLattice α}
    (h : ∀ x, truth x = true → truth' x = true) (ha : a.holds truth = true) :
    a.holds truth' = true := by
  obtain ⟨m, hm, hx⟩ := holds_iff.mp ha
  exact holds_iff.mpr ⟨m, hm, fun x hxm => h x (hx x hxm)⟩

def isTop (a : FreeLattice α) : Bool :=
  OrderedSet.empty ∈ a.meets

def isBottom (a : FreeLattice α) : Bool :=
  a.meets.toList.isEmpty

-- Every atom that some meet mentions.
def atoms (a : FreeLattice α) : OrderedSet α :=
  a.meets.toList.foldr OrderedSet.union .empty

-- Over `k` atoms an element is a monotone set of truth assignments, and there are `2 ^ k` of them to
-- lose. None of the operations brings in another atom.
instance : ChainBound (FreeLattice α) where
  chainBound es := Nat.pow 2 (es.foldr (fun e => e.atoms.union) OrderedSet.empty).toList.length

-- Every meet of the first element contains some meet of the second.
def isStructurallyBelow (a b : FreeLattice α) : Bool :=
  a.meets.toList.all fun m => b.meets.toList.any fun n => n ⊆ m

end FreeLattice

end LabelInference

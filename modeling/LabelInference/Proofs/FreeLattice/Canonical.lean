import LabelInference.Proofs.FreeLattice.Reading

namespace LabelInference

universe u

namespace FreeLattice

variable {α : Type u} [Ordered α] {a b : FreeLattice α}

-- An implication holds where every larger assignment that makes the first element true makes the
-- second one true. The smallest such assignments add a meet of the first element.
theorem holds_imply_iff_forall {truth : α → Bool} :
    (imply a b).holds truth = true ↔
      ∀ larger : α → Bool, (∀ x, truth x = true → larger x = true) →
        a.holds larger = true → b.holds larger = true := by
  rw [holds_imply]
  constructor
  · intro h larger hle ha
    obtain ⟨m, hm, hx⟩ := holds_iff.mp ha
    exact holds_of_withMeet hle hx (h m hm)
  · intro h m hm
    exact h _ (fun x hx => withMeet_eq_true_iff.mpr (.inl hx)) (holds_withMeet_of_mem hm)

theorem holds_ofMeets {truth : α → Bool} {ms : List (List α)} :
    (ofMeets ms).holds truth = true ↔ ∃ m ∈ ms, ∀ x ∈ m, truth x = true := by
  rw [ofMeets, holds_joinOf]
  simp

-- The meets of an element are the minimal sets under which it holds.
theorem mem_meets_iff {m : OrderedSet α} :
    m ∈ a.meets ↔ a.holds (· ∈ m) = true ∧
      ∀ n : OrderedSet α, n ⊆ m → a.holds (· ∈ n) = true → n = m := by
  constructor
  · intro hm
    refine ⟨holds_mem_of_mem hm, fun n hnm hn => ?_⟩
    obtain ⟨l, hl, hln⟩ := holds_iff.mp hn
    have hsub : l ⊆ n := fun x hx => of_decide_eq_true (hln x hx)
    have hlm : l = m := a.irredundant m hm l hl (OrderedSet.subset_trans hsub hnm)
    exact OrderedSet.subset_antisymm hnm (hlm ▸ hsub)
  · rintro ⟨hholds, hmin⟩
    obtain ⟨n, hn, hnm⟩ := holds_iff.mp hholds
    have hsub : n ⊆ m := fun x hx => of_decide_eq_true (hnm x hx)
    rw [← hmin n hsub (holds_mem_of_mem hn)]
    exact hn

-- Finite sets of atoms are enough to tell two elements apart.
theorem eq_iff_holds_mem : a = b ↔ ∀ s : OrderedSet α, a.holds (· ∈ s) = b.holds (· ∈ s) := by
  constructor
  · rintro rfl s
    rfl
  · intro h
    refine meets_injective (OrderedSet.ext fun m => ?_)
    simp only [mem_meets_iff, h]

-- The element whose only meet is the given one, built from its atoms.
def meetOf (m : OrderedSet α) : FreeLattice α := (m.toList.map atom).foldr meet top

theorem holds_meetOf {truth : α → Bool} {m : OrderedSet α} :
    (meetOf m).holds truth = true ↔ ∀ x ∈ m, truth x = true := by
  simp [meetOf, holds_foldr_meet]

theorem meetOf_below_iff {m : OrderedSet α} : Below (meetOf m) a ↔ a.holds (· ∈ m) = true := by
  rw [below_iff_holds]
  constructor
  · intro h
    exact h _ (holds_meetOf.mpr fun x hx => decide_eq_true hx)
  · intro h truth htruth
    exact holds_mono (fun x hx => holds_meetOf.mp htruth x (of_decide_eq_true hx)) h

-- Atoms, meets and joins suffice to build every element again.
theorem foldr_join_meetOf (a : FreeLattice α) : (a.meets.toList.map meetOf).foldr join bottom = a := by
  refine eq_of_holds fun truth => ?_
  rw [holds_foldr_join, holds_iff]
  simp [holds_meetOf]

end FreeLattice

-- How an element is built.
inductive Formula (α : Type u) where
  | atom (a : α)
  | ofMeets (ms : List (List α))
  | top
  | bottom
  | join (p q : Formula α)
  | meet (p q : Formula α)
  | imply (p q : Formula α)

namespace Formula

variable {α : Type u}

def element [Ordered α] : Formula α → FreeLattice α
  | .atom a => .atom a
  | .ofMeets ms => .ofMeets ms
  | .top => .top
  | .bottom => .bottom
  | .join p q => LabelInference.join p.element q.element
  | .meet p q => LabelInference.meet p.element q.element
  | .imply p q => LabelInference.imply p.element q.element

-- The reading of an implication looks at all larger assignments, since an element that holds goes on
-- to hold when more atoms become true.
def HoldsUnder : Formula α → (α → Bool) → Prop
  | .atom a, truth => truth a = true
  | .ofMeets ms, truth => ∃ m ∈ ms, ∀ x ∈ m, truth x = true
  | .top, _ => True
  | .bottom, _ => False
  | .join p q, truth => p.HoldsUnder truth ∨ q.HoldsUnder truth
  | .meet p q, truth => p.HoldsUnder truth ∧ q.HoldsUnder truth
  | .imply p q, truth => ∀ larger : α → Bool, (∀ x, truth x = true → larger x = true) →
      p.HoldsUnder larger → q.HoldsUnder larger

variable [Ordered α]

theorem holds_element (p : Formula α) (truth : α → Bool) :
    p.element.holds truth = true ↔ p.HoldsUnder truth := by
  induction p generalizing truth with
  | atom a => rw [element, FreeLattice.holds_atom, HoldsUnder]
  | ofMeets ms => exact FreeLattice.holds_ofMeets
  | top => simp [element, HoldsUnder]
  | bottom => simp [element, HoldsUnder]
  | join p q ihp ihq => rw [element, FreeLattice.holds_join, ihp, ihq, HoldsUnder]
  | meet p q ihp ihq => rw [element, FreeLattice.holds_meet, ihp, ihq, HoldsUnder]
  | imply p q ihp ihq =>
    rw [element, FreeLattice.holds_imply_iff_forall]
    simp only [ihp, ihq, HoldsUnder]

-- Whatever the operations, an element is the set of the minimal models of its formula. No meet of it
-- contains another one, and the sets of atoms that make it true determine it.
theorem element_canonical (p q : Formula α) :
    (∀ m, m ∈ p.element.meets ↔ p.HoldsUnder (· ∈ m) ∧
        ∀ n : OrderedSet α, n ⊆ m → p.HoldsUnder (· ∈ n) → n = m) ∧
      (∀ m ∈ p.element.meets, ∀ n ∈ p.element.meets, n ⊆ m → n = m) ∧
      (p.element = q.element ↔
        ∀ s : OrderedSet α, p.element.holds (· ∈ s) = q.element.holds (· ∈ s)) := by
  have hminimal : ∀ m, m ∈ p.element.meets ↔ p.HoldsUnder (· ∈ m) ∧
      ∀ n : OrderedSet α, n ⊆ m → p.HoldsUnder (· ∈ n) → n = m := by
    intro m
    simp only [FreeLattice.mem_meets_iff, holds_element]
  refine ⟨hminimal, fun m hm n hn hnm => ?_, FreeLattice.eq_iff_holds_mem⟩
  exact ((hminimal m).mp hm).2 n hnm ((hminimal n).mp hn).1

end Formula

end LabelInference

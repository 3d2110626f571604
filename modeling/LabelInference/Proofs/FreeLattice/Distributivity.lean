import LabelInference.Proofs.Edge
import LabelInference.Proofs.FreeLattice.Canonical

namespace LabelInference

universe u

-- Everything that is below all members of the family is below `a`.
def IsAboveMeet {γ : Type u} [Meet γ] (P : γ → Prop) (a : γ) : Prop :=
  ∀ b, (∀ p, P p → Below b p) → Below b a

variable {α : Type u} [Ordered α] {P : FreeLattice α → Prop} {a b : FreeLattice α}

namespace FreeLattice

theorem below_iff_meetOf_below : Below b a ↔ ∀ m ∈ b.meets, Below (meetOf m) a := by
  simp only [meetOf_below_iff]
  rw [below_iff_holds]
  constructor
  · intro h m hm
    exact h _ (holds_mem_of_mem hm)
  · intro h truth htruth
    obtain ⟨m, hm, hx⟩ := holds_iff.mp htruth
    exact holds_mono (fun x hxm => hx x (of_decide_eq_true hxm)) (h m hm)

-- A meet of atoms is below a join only by one of its sides.
theorem meetOf_below_join_iff {m : OrderedSet α} :
    Below (meetOf m) (join a b) ↔ Below (meetOf m) a ∨ Below (meetOf m) b := by
  simp only [meetOf_below_iff, holds_join]

end FreeLattice

open FreeLattice

-- Joins distribute over all meets, those of infinitely many elements too.
theorem IsAboveMeet.below_join (ha : IsAboveMeet P a) {c : FreeLattice α}
    (h : ∀ p, P p → Below b (join c p)) : Below b (join c a) := by
  refine below_iff_meetOf_below.mpr fun m hm => meetOf_below_join_iff.mpr ?_
  by_cases hc : Below (meetOf m) c
  · exact .inl hc
  · right
    refine ha _ fun p hp => ?_
    have hjoin : Below (meetOf m) (join c p) := below_iff_meetOf_below.mp (h p hp) m hm
    exact (meetOf_below_join_iff.mp hjoin).resolve_left hc

theorem IsAboveMeet.below_propagate (ha : IsAboveMeet P a) {e : Edge (FreeLattice α)}
    (h : ∀ p, P p → Below b (e.propagate p)) : Below b (e.propagate a) := by
  simp only [Edge.below_propagate_iff] at h ⊢
  cases hc : e.constant? with
  | none =>
    rw [hc] at h
    exact ha _ h
  | some c =>
    rw [hc] at h
    exact ha.below_join h

end LabelInference

import LabelInference.FreeLattice.Basic

namespace LabelInference

universe u

structure Delegation (α : Type u) [Ordered α] where
  lower : FreeLattice α
  upper : FreeLattice α
  deriving DecidableEq

namespace Delegation

variable {α : Type u} [Ordered α]

def respectedBy (truth : α → Bool) (d : Delegation α) : Bool :=
  !d.lower.holds truth || d.upper.holds truth

def unmet (ds : List (Delegation α)) (trusted : OrderedSet α) : Nat :=
  ds.countP fun d => !d.upper.holds (· ∈ trusted)

theorem holds_union_left {e : FreeLattice α} {s t : OrderedSet α}
    (h : e.holds (· ∈ s) = true) : e.holds (· ∈ s.union t) = true :=
  FreeLattice.holds_mono (fun x hx => by simp_all) h

theorem holds_union_meet {e : FreeLattice α} {s m : OrderedSet α} (hm : m ∈ e.meets) :
    e.holds (· ∈ s.union m) = true :=
  FreeLattice.holds_iff.mpr ⟨m, hm, fun x hx => by simp [hx]⟩

theorem unmet_union_le (ds : List (Delegation α)) (s m : OrderedSet α) :
    unmet ds (s.union m) ≤ unmet ds s := by
  apply List.countP_mono_left
  intro d _ h
  cases hs : d.upper.holds (· ∈ s) with
  | false => rfl
  | true => simp only [holds_union_left hs, Bool.not_true, Bool.false_eq_true] at h

-- Adding a meet of an unmet upper side leaves fewer unmet delegations.
theorem unmet_union_lt {ds : List (Delegation α)} {s m : OrderedSet α} {d : Delegation α}
    (hd : d ∈ ds) (hunmet : d.upper.holds (· ∈ s) = false) (hm : m ∈ d.upper.meets) :
    unmet ds (s.union m) < unmet ds s := by
  induction ds with
  | nil => cases hd
  | cons e ds ih =>
    simp only [unmet, List.countP_cons]
    rcases List.mem_cons.mp hd with rfl | hd
    · have hle := unmet_union_le ds s m
      simp only [unmet] at hle
      simp only [hunmet, holds_union_meet hm, Bool.not_true, Bool.not_false]
      simp only [Bool.false_eq_true, if_false, if_true]
      omega
    · have hlt := ih hd
      simp only [unmet] at hlt
      cases hs : e.upper.holds (· ∈ s) with
      | true =>
        simp only [holds_union_left hs, Bool.not_true, Bool.false_eq_true, if_false]
        omega
      | false =>
        simp only [Bool.not_false, if_true]
        split <;> omega

-- Whether some truth assignment above `trusted` respects the delegations and fails the goal. A repaired
-- delegation stays repaired, which bounds the search.
def hasCounterModel (ds : List (Delegation α)) (goal : FreeLattice α)
    (trusted : OrderedSet α) : Bool :=
  if goal.holds (· ∈ trusted) then false
  else
    match _h : ds.find? fun d => !d.respectedBy (· ∈ trusted) with
    | none => true
    | some d => d.upper.meets.toList.attach.any fun m => hasCounterModel ds goal (trusted.union m)
termination_by unmet ds trusted
decreasing_by
  have hviolated := List.find?_some _h
  simp only [respectedBy, Bool.not_or, Bool.not_not, Bool.and_eq_true, Bool.not_eq_true'] at hviolated
  exact unmet_union_lt (List.mem_of_find?_eq_some _h) hviolated.2 m.property

end Delegation

namespace FreeLattice

variable {α : Type u} [Ordered α]

-- Two answers need no search: an element below another one in the free lattice entails it, and
-- without delegations nothing else is entailed.
def entails (ds : List (Delegation α)) (a b : FreeLattice α) : Bool :=
  if a.isStructurallyBelow b then true
  else if ds.isEmpty then false
  else a.meets.toList.all fun m => !Delegation.hasCounterModel ds b m

end FreeLattice

end LabelInference

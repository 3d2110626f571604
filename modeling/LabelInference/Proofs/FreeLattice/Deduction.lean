import LabelInference.Proofs.FreeLattice.Canonical
import LabelInference.Proofs.FreeLattice.Entailment

namespace LabelInference.FreeLattice

universe u

variable {α : Type u} [Ordered α]

-- The least order that extends the one of the lattice, knows the delegations, and in which joins and
-- meets are least upper and greatest lower bounds.
inductive Derivable (ds : List (Delegation α)) : FreeLattice α → FreeLattice α → Prop where
  | structural {a b : FreeLattice α} (h : Below a b) : Derivable ds a b
  | delegation {d : Delegation α} (h : d ∈ ds) : Derivable ds d.lower d.upper
  | trans {a b c : FreeLattice α} (hab : Derivable ds a b) (hbc : Derivable ds b c) : Derivable ds a c
  | join {a b c : FreeLattice α} (hac : Derivable ds a c) (hbc : Derivable ds b c) :
      Derivable ds (join a b) c
  | meet {a b c : FreeLattice α} (hca : Derivable ds c a) (hcb : Derivable ds c b) :
      Derivable ds c (meet a b)

variable {ds : List (Delegation α)} {a b : FreeLattice α}

theorem Derivable.holds (h : Derivable ds a b) {truth : α → Bool}
    (hds : ∀ d ∈ ds, d.respectedBy truth = true) (ha : a.holds truth = true) :
    b.holds truth = true := by
  induction h with
  | structural h => exact below_iff_holds.mp h truth ha
  | delegation hd => exact Delegation.respectedBy_iff.mp (hds _ hd) ha
  | trans _ _ ihab ihbc => exact ihbc (ihab ha)
  | join _ _ ihac ihbc => exact (holds_join.mp ha).elim ihac ihbc
  | meet _ _ ihca ihcb => exact holds_meet.mpr ⟨ihca ha, ihcb ha⟩

theorem Derivable.foldr_join {vs : List (FreeLattice α)} (h : ∀ v ∈ vs, Derivable ds v b) :
    Derivable ds (vs.foldr LabelInference.join bottom) b := by
  induction vs with
  | nil => exact .structural (bottom_below b)
  | cons v vs ih =>
    rw [List.forall_mem_cons] at h
    exact .join h.1 (ih h.2)

theorem Derivable.of_meets (h : ∀ m ∈ a.meets, Derivable ds (meetOf m) b) : Derivable ds a b := by
  rw [← foldr_join_meetOf a]
  exact .foldr_join (List.forall_mem_map.mpr h)

-- Distributivity: a set of atoms met with an element is the join over the meets of the element.
theorem meetOf_meet_below (m : OrderedSet α) (a : FreeLattice α) :
    Below (meet (meetOf m) a)
      ((a.meets.toList.map fun n => meetOf (m.union n)).foldr join bottom) := by
  refine below_iff_holds.mpr fun truth h => ?_
  obtain ⟨hm, ha⟩ := holds_meet.mp h
  obtain ⟨n, hn, hx⟩ := holds_iff.mp ha
  refine holds_foldr_join.mpr ⟨_, List.mem_map_of_mem hn, holds_meetOf.mpr fun x hxu => ?_⟩
  exact (OrderedSet.mem_union.mp hxu).elim (holds_meetOf.mp hm x) (hx x)

-- A repair is a use of its delegation, followed by a case for every meet of the upper side.
theorem Derivable.of_branches {trusted : OrderedSet α} {d : Delegation α} (hd : d ∈ ds)
    (hlower : d.lower.holds (· ∈ trusted) = true)
    (hbranches : ∀ m ∈ d.upper.meets, Derivable ds (meetOf (trusted.union m)) b) :
    Derivable ds (meetOf trusted) b := by
  have hupper : Derivable ds (meetOf trusted) d.upper :=
    (Derivable.structural (meetOf_below_iff.mpr hlower)).trans (.delegation hd)
  have hboth : Derivable ds (meetOf trusted) (LabelInference.meet (meetOf trusted) d.upper) :=
    .meet (.structural (Below.refl _)) hupper
  have hsplit : Derivable ds (LabelInference.meet (meetOf trusted) d.upper)
      ((d.upper.meets.toList.map fun m => meetOf (trusted.union m)).foldr
        LabelInference.join bottom) :=
    .structural (meetOf_meet_below trusted d.upper)
  exact hboth.trans (hsplit.trans (.foldr_join (List.forall_mem_map.mpr hbranches)))

-- Along the steps of the search: a set of atoms at which it ends makes the goal true.
theorem derivable_of_no_counterModel {trusted : OrderedSet α}
    (h : Delegation.hasCounterModel ds b trusted = false) : Derivable ds (meetOf trusted) b := by
  induction trusted using (Delegation.repairs_wellFounded ds b).induction with
  | _ trusted ih =>
    have hstep : ¬(Delegation.Stuck ds b trusted ∨ ∃ next, Delegation.Repairs ds b trusted next ∧
        Delegation.hasCounterModel ds b next = true) := by
      rw [← Delegation.hasCounterModel_iff_step, h]
      exact Bool.false_ne_true
    push Not at hstep
    obtain ⟨hstuck, hnext⟩ := hstep
    cases hgoal : b.holds (· ∈ trusted) with
    | true => exact .structural (meetOf_below_iff.mpr hgoal)
    | false =>
      cases hfind : ds.find? (fun d => !d.respectedBy (· ∈ trusted)) with
      | none => exact absurd ⟨hgoal, by simpa using hfind⟩ hstuck
      | some d =>
        obtain ⟨hd, hlower, _⟩ := Delegation.violated_of_find? hfind
        refine .of_branches hd hlower fun m hm => ?_
        have hrepairs : Delegation.Repairs ds b trusted (trusted.union m) :=
          ⟨hgoal, d, hfind, m, hm, rfl⟩
        have hsearch : Delegation.hasCounterModel ds b (trusted.union m) = false := by
          simpa using hnext _ hrepairs
        exact ih _ hrepairs hsearch

theorem derivable_of_entails (h : a.entails ds b = true) : Derivable ds a b := by
  unfold entails at h
  split at h
  · next hbelow =>
    exact .structural (below_iff_holds.mpr fun _ => holds_of_isStructurallyBelow hbelow)
  · split at h
    · cases h
    · refine .of_meets fun m hm => derivable_of_no_counterModel ?_
      simpa using List.all_eq_true.mp h m hm

-- The search accepts exactly the pairs that can be derived.
theorem entails_iff_derivable (ds : List (Delegation α)) (a b : FreeLattice α) :
    a.entails ds b = true ↔ Derivable ds a b :=
  ⟨derivable_of_entails, fun h => entails_iff_respectedBy.mpr fun _ hds => h.holds hds⟩

end LabelInference.FreeLattice

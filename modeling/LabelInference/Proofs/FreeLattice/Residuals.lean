import LabelInference.Proofs.FreeLattice.Entailment
import LabelInference.Proofs.FreeLattice.Height
import LabelInference.Proofs.Lattice.Coarsening
import Mathlib.Data.List.Sublists

namespace LabelInference.FreeLattice

universe u

variable {α : Type u} [Ordered α] {ds : List (Delegation α)} {a b : FreeLattice α}

def BelowModulo (ds : List (Delegation α)) (a b : FreeLattice α) : Prop := a.entails ds b = true

instance (ds : List (Delegation α)) (a b : FreeLattice α) : Decidable (BelowModulo ds a b) :=
  inferInstanceAs (Decidable (a.entails ds b = true))

theorem belowModulo_iff : BelowModulo ds a b ↔ ∀ truth,
    (∀ d ∈ ds, d.respectedBy truth = true) → a.holds truth = true → b.holds truth = true :=
  entails_iff_respectedBy

section Bounds

variable {vs : List (FreeLattice α)} {truth : α → Bool}

theorem holds_of_isJoinOf (h : IsJoinOf vs a) :
    a.holds truth = true ↔ ∃ v ∈ vs, v.holds truth = true := by
  constructor
  · have hbelow : Below a (vs.foldr join bottom) :=
      (h _).mpr fun v hv => below_iff_holds.mpr fun _ hv' => holds_foldr_join.mpr ⟨v, hv, hv'⟩
    exact fun ha => holds_foldr_join.mp (below_iff_holds.mp hbelow truth ha)
  · rintro ⟨v, hv, hholds⟩
    exact below_iff_holds.mp ((h a).mp (Below.refl a) v hv) truth hholds

theorem holds_of_isMeetOf (h : IsMeetOf vs a) :
    a.holds truth = true ↔ ∀ v ∈ vs, v.holds truth = true := by
  constructor
  · exact fun ha v hv => below_iff_holds.mp (h.below hv) truth ha
  · have hbelow : Below (vs.foldr meet top) a :=
      (h _).mpr fun v hv => below_iff_holds.mpr fun _ hall => holds_foldr_meet.mp hall v hv
    exact fun hall => below_iff_holds.mp hbelow truth (holds_foldr_meet.mpr hall)

end Bounds

theorem isCoarsening_belowModulo (ds : List (Delegation α)) : IsCoarsening (BelowModulo ds) where
  trans hab hbc := by
    rw [belowModulo_iff] at hab hbc ⊢
    exact fun truth hds ha => hbc truth hds (hab truth hds ha)
  of_below h := belowModulo_iff.mpr fun truth _ => below_iff_holds.mp h truth
  join_iff h b := by
    simp only [belowModulo_iff, holds_of_isJoinOf h]
    exact ⟨fun hall v hv truth hds hholds => hall truth hds ⟨v, hv, hholds⟩,
      fun hall truth hds ⟨v, hv, hholds⟩ => hall v hv truth hds hholds⟩
  meet_iff h b := by
    simp only [belowModulo_iff, holds_of_isMeetOf h]
    exact ⟨fun hall v hv truth hds hb => hall truth hds hb v hv,
      fun hall truth hds hb v hv => hall v hv truth hds hb⟩

-- Whatever is trusted already, some part of any meet of the element can be added, and nothing else,
-- so that the element holds and the delegations are respected.
def IsFreeUnder (ds : List (Delegation α)) (a : FreeLattice α) : Prop :=
  ∀ truth, (∀ d ∈ ds, d.respectedBy truth = true) → ∀ m ∈ a.meets,
    ∃ n : OrderedSet α, n ⊆ m ∧ a.holds (withMeet truth n) = true ∧
      ∀ d ∈ ds, d.respectedBy (withMeet truth n) = true

-- An element is free if none of its atoms is on the lower side of a delegation.
theorem isFreeUnder_of_disjoint
    (h : ∀ d ∈ ds, ∀ m ∈ d.lower.meets, ∀ n ∈ a.meets, ∀ x ∈ m, x ∉ n) : a.IsFreeUnder ds := by
  intro truth hds n hn
  refine ⟨n, OrderedSet.subset_refl n, holds_withMeet_of_mem hn, fun d hd => ?_⟩
  refine Delegation.respectedBy_iff.mpr fun hlower => holds_withMeet_of_holds n ?_
  obtain ⟨m, hm, hx⟩ := holds_iff.mp hlower
  refine Delegation.respectedBy_iff.mp (hds d hd) (holds_iff.mpr ⟨m, hm, fun x hxm => ?_⟩)
  exact (withMeet_eq_true_iff.mp (hx x hxm)).resolve_right (h d hd m hm n hn x hxm)

theorem IsFreeUnder.isResiduated (h : a.IsFreeUnder ds) : IsResiduated (BelowModulo ds) a := by
  intro x y hxy
  rw [belowModulo_iff] at hxy ⊢
  intro truth hds hx
  refine holds_imply.mpr fun m hm => ?_
  obtain ⟨n, hnm, ha, hrespected⟩ := h truth hds m hm
  have hy : y.holds (withMeet truth n) = true :=
    hxy _ hrespected (holds_meet.mpr ⟨ha, holds_withMeet_of_holds n hx⟩)
  refine holds_of_withMeet (fun z hz => ?_) (fun z hz => ?_) hy
  · exact withMeet_eq_true_iff.mpr (.inl hz)
  · exact withMeet_eq_true_iff.mpr (.inr (hnm z hz))

section Completions

-- The atoms of an element and of the delegations.
def relevantAtoms (ds : List (Delegation α)) (a : FreeLattice α) : OrderedSet α :=
  atomsOf (a :: ds.flatMap fun d => [d.lower, d.upper])

theorem isOver_relevantAtoms : a.IsOver (relevantAtoms ds a) :=
  isOver_atomsOf List.mem_cons_self

theorem respectedBy_congr {truth truth' : α → Bool}
    (h : ∀ x ∈ relevantAtoms ds a, truth x = truth' x) {d : Delegation α} (hd : d ∈ ds) :
    d.respectedBy truth = d.respectedBy truth' := by
  have hlower : d.lower.IsOver (relevantAtoms ds a) :=
    isOver_atomsOf (List.mem_cons_of_mem a (List.mem_flatMap.mpr ⟨d, hd, by simp⟩))
  have hupper : d.upper.IsOver (relevantAtoms ds a) :=
    isOver_atomsOf (List.mem_cons_of_mem a (List.mem_flatMap.mpr ⟨d, hd, by simp⟩))
  unfold Delegation.respectedBy
  rw [hlower.holds_congr h, hupper.holds_congr h]

-- The sets of atoms that make the element true when they are added, with all delegations respected.
def completions (ds : List (Delegation α)) (a : FreeLattice α) (truth : α → Bool) :
    OrderedSet (OrderedSet α) :=
  (OrderedSet.ofList ((relevantAtoms ds a).toList.sublists.map .ofList)).filter fun n =>
    a.holds (withMeet truth n) && ds.all (·.respectedBy (withMeet truth n))

variable {truth : α → Bool}

theorem holds_of_mem_completions {n : OrderedSet α} (h : n ∈ completions ds a truth) :
    a.holds (withMeet truth n) = true ∧ ∀ d ∈ ds, d.respectedBy (withMeet truth n) = true := by
  simpa [completions] using (OrderedSet.mem_filter.mp h).2

-- The meet of the relevant atoms that an assignment accepts.
def trustedMeet (ds : List (Delegation α)) (a : FreeLattice α) (truth : α → Bool) : FreeLattice α :=
  joinOf (.singleton ((relevantAtoms ds a).filter truth))

theorem holds_trustedMeet {larger : α → Bool} :
    (trustedMeet ds a truth).holds larger = true ↔
      ∀ x ∈ relevantAtoms ds a, truth x = true → larger x = true := by
  rw [trustedMeet, holds_joinOf]
  simp

-- A respected assignment above the trusted atoms completes them by the relevant atoms it accepts.
theorem filter_mem_completions {larger : α → Bool}
    (hle : (trustedMeet ds a truth).holds larger = true)
    (hds : ∀ d ∈ ds, d.respectedBy larger = true) (ha : a.holds larger = true) :
    (relevantAtoms ds a).filter larger ∈ completions ds a truth := by
  have hagree : ∀ x ∈ relevantAtoms ds a,
      withMeet truth ((relevantAtoms ds a).filter larger) x = larger x := by
    intro x hx
    rw [Bool.eq_iff_iff]
    simpa [hx] using holds_trustedMeet.mp hle x hx
  refine OrderedSet.mem_filter.mpr ⟨?_, ?_⟩
  · refine OrderedSet.mem_ofList.mpr (List.mem_map.mpr ⟨_, ?_, OrderedSet.ofList_toList _⟩)
    exact List.mem_sublists.mpr List.filter_sublist
  · rw [Bool.and_eq_true, List.all_eq_true, isOver_relevantAtoms.holds_congr hagree]
    refine ⟨ha, fun d hd => ?_⟩
    rw [respectedBy_congr hagree hd]
    exact hds d hd

theorem belowModulo_joinOf_completions :
    BelowModulo ds (meet a (trustedMeet ds a truth)) (joinOf (completions ds a truth)) := by
  refine belowModulo_iff.mpr fun larger hds hholds => ?_
  obtain ⟨ha, hle⟩ := holds_meet.mp hholds
  exact holds_joinOf.mpr ⟨_, filter_mem_completions hle hds ha,
    fun x hx => (OrderedSet.mem_filter.mp hx).2⟩

-- The implication from the element to its completions has to hold for what is trusted, so one of them
-- fits into what is trusted together with any meet of the element.
theorem isFreeUnder_of_isResiduated (h : IsResiduated (BelowModulo ds) a) : a.IsFreeUnder ds := by
  intro truth hds m hm
  have himply : BelowModulo ds (trustedMeet ds a truth) (imply a (joinOf (completions ds a truth))) :=
    h _ _ belowModulo_joinOf_completions
  have hholds := belowModulo_iff.mp himply truth hds (holds_trustedMeet.mpr fun _ _ hx => hx)
  obtain ⟨n, hn, hsub⟩ := holds_joinOf.mp (holds_imply.mp hholds m hm)
  have hpart : withMeet truth (m.filter (· ∈ n)) = withMeet truth n := by
    funext x
    have hx := hsub x
    rw [Bool.eq_iff_iff]
    simp only [withMeet_eq_true_iff, OrderedSet.mem_filter, decide_eq_true_eq] at hx ⊢
    tauto
  refine ⟨m.filter (· ∈ n), fun x hx => (OrderedSet.mem_filter.mp hx).1, ?_⟩
  rw [hpart]
  exact holds_of_mem_completions hn

end Completions

theorem isResiduated_iff_isFreeUnder : IsResiduated (BelowModulo ds) a ↔ a.IsFreeUnder ds :=
  ⟨isFreeUnder_of_isResiduated, IsFreeUnder.isResiduated⟩

end LabelInference.FreeLattice

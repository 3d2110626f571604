import LabelInference.FreeLattice.Entailment
import LabelInference.Proofs.FreeLattice.Reading

namespace LabelInference

universe u

variable {α : Type u} [Ordered α]

namespace Delegation

theorem respectedBy_iff {truth : α → Bool} {d : Delegation α} :
    d.respectedBy truth = true ↔ (d.lower.holds truth = true → d.upper.holds truth = true) := by
  unfold respectedBy
  cases d.lower.holds truth <;> simp

theorem violated_of_find? {ds : List (Delegation α)} {truth : α → Bool} {d : Delegation α}
    (h : ds.find? (fun d => !d.respectedBy truth) = some d) :
    d ∈ ds ∧ d.lower.holds truth = true ∧ d.upper.holds truth = false := by
  have hviolated := List.find?_some h
  simp only [respectedBy, Bool.not_or, Bool.not_not, Bool.and_eq_true, Bool.not_eq_true'] at hviolated
  exact ⟨List.mem_of_find?_eq_some h, hviolated⟩

-- One step of the search: the first violated delegation is repaired by a meet of its upper side.
def Repairs (ds : List (Delegation α)) (goal : FreeLattice α) (trusted next : OrderedSet α) : Prop :=
  goal.holds (· ∈ trusted) = false ∧
    ∃ d, ds.find? (fun d => !d.respectedBy (· ∈ trusted)) = some d ∧
      ∃ m ∈ d.upper.meets, next = trusted.union m

-- No assignment is found without a step: the goal fails and nothing is left to repair.
def Stuck (ds : List (Delegation α)) (goal : FreeLattice α) (trusted : OrderedSet α) : Prop :=
  goal.holds (· ∈ trusted) = false ∧ ∀ d ∈ ds, d.respectedBy (· ∈ trusted) = true

theorem unmet_lt_of_repairs {ds : List (Delegation α)} {goal : FreeLattice α}
    {trusted next : OrderedSet α} (h : Repairs ds goal trusted next) :
    unmet ds next < unmet ds trusted := by
  obtain ⟨_, d, hfind, m, hm, rfl⟩ := h
  obtain ⟨hd, _, hupper⟩ := violated_of_find? hfind
  exact unmet_union_lt hd hupper hm

theorem repairs_wellFounded (ds : List (Delegation α)) (goal : FreeLattice α) :
    WellFounded fun next trusted => Repairs ds goal trusted next :=
  Subrelation.wf unmet_lt_of_repairs (measure (unmet ds)).wf

-- What the search answers at one set of trusted atoms, in terms of its next steps.
theorem hasCounterModel_iff_step {ds : List (Delegation α)} {goal : FreeLattice α}
    {trusted : OrderedSet α} :
    hasCounterModel ds goal trusted = true ↔
      Stuck ds goal trusted ∨
        ∃ next, Repairs ds goal trusted next ∧ hasCounterModel ds goal next = true := by
  rw [hasCounterModel]
  cases hgoal : goal.holds (· ∈ trusted) with
  | true => simp [Stuck, Repairs, hgoal]
  | false =>
    simp only [Bool.false_eq_true, if_false]
    split
    · next hfind =>
      have hall : ∀ d ∈ ds, d.respectedBy (· ∈ trusted) = true := by
        simpa using hfind
      exact iff_of_true rfl (.inl ⟨hgoal, hall⟩)
    · next d hfind =>
      have hviolated := List.find?_some hfind
      have hnot : ¬Stuck ds goal trusted := by
        intro h
        rw [h.2 d (List.mem_of_find?_eq_some hfind)] at hviolated
        simp at hviolated
      simp only [hnot, false_or, List.any_eq_true, List.mem_attach, true_and, Subtype.exists]
      constructor
      · rintro ⟨m, hm, h⟩
        exact ⟨_, ⟨hgoal, d, hfind, m, hm, rfl⟩, h⟩
      · rintro ⟨_, ⟨_, e, he, m, hm, rfl⟩, h⟩
        obtain rfl : d = e := Option.some.inj (hfind.symm.trans he)
        exact ⟨m, hm, h⟩

-- An assignment that the search may still find from a set of trusted atoms.
def CounterModel (ds : List (Delegation α)) (goal : FreeLattice α) (trusted : OrderedSet α)
    (truth : α → Bool) : Prop :=
  (∀ x ∈ trusted, truth x = true) ∧ (∀ d ∈ ds, d.respectedBy truth = true) ∧
    goal.holds truth = false

theorem CounterModel.holds_of_trusted {ds : List (Delegation α)} {goal : FreeLattice α}
    {trusted : OrderedSet α} {truth : α → Bool} (h : CounterModel ds goal trusted truth)
    {a : FreeLattice α} (ha : a.holds (· ∈ trusted) = true) : a.holds truth = true :=
  FreeLattice.holds_mono (fun x hx => h.1 x (of_decide_eq_true hx)) ha

theorem CounterModel.not_holds {ds : List (Delegation α)} {goal : FreeLattice α}
    {trusted : OrderedSet α} {truth : α → Bool} (h : CounterModel ds goal trusted truth) :
    goal.holds (· ∈ trusted) = false := by
  by_contra hgoal
  have htruth := h.holds_of_trusted (Bool.not_eq_false _ ▸ hgoal)
  rw [h.2.2] at htruth
  exact Bool.false_ne_true htruth

-- The violated delegation has a true lower side under every assignment above the trusted atoms, so
-- one that respects it accepts some meet of the upper side.
theorem CounterModel.exists_repairs {ds : List (Delegation α)} {goal : FreeLattice α}
    {trusted : OrderedSet α} {truth : α → Bool} (h : CounterModel ds goal trusted truth)
    (hstuck : ¬Stuck ds goal trusted) :
    ∃ next, Repairs ds goal trusted next ∧ CounterModel ds goal next truth := by
  have hgoal := h.not_holds
  cases hfind : ds.find? (fun d => !d.respectedBy (· ∈ trusted)) with
  | none => exact absurd ⟨hgoal, by simpa using hfind⟩ hstuck
  | some d =>
    obtain ⟨hd, htrusted, _⟩ := violated_of_find? hfind
    have hlower := h.holds_of_trusted htrusted
    have hupper := respectedBy_iff.mp (h.2.1 d hd) hlower
    obtain ⟨m, hm, hx⟩ := FreeLattice.holds_iff.mp hupper
    refine ⟨_, ⟨hgoal, d, hfind, m, hm, rfl⟩, fun x hxu => ?_, h.2⟩
    exact (OrderedSet.mem_union.mp hxu).elim (h.1 x) (hx x)

theorem hasCounterModel_iff {ds : List (Delegation α)} {goal : FreeLattice α}
    {trusted : OrderedSet α} :
    hasCounterModel ds goal trusted = true ↔ ∃ truth, CounterModel ds goal trusted truth := by
  induction trusted using (repairs_wellFounded ds goal).induction with
  | _ trusted ih =>
    rw [hasCounterModel_iff_step]
    constructor
    · rintro (hstuck | ⟨next, hrep, h⟩)
      · exact ⟨(· ∈ trusted), fun x hx => decide_eq_true hx, hstuck.2, hstuck.1⟩
      · obtain ⟨truth, habove, hmodel⟩ := (ih next hrep).mp h
        obtain ⟨_, d, _, m, _, rfl⟩ := hrep
        exact ⟨truth, fun x hx => habove x (OrderedSet.mem_union.mpr (.inl hx)), hmodel⟩
    · rintro ⟨truth, h⟩
      by_cases hstuck : Stuck ds goal trusted
      · exact .inl hstuck
      · obtain ⟨next, hrep, hnext⟩ := h.exists_repairs hstuck
        exact .inr ⟨next, hrep, (ih next hrep).mpr ⟨truth, hnext⟩⟩

end Delegation

namespace FreeLattice

theorem isStructurallyBelow_iff {a b : FreeLattice α} :
    a.isStructurallyBelow b = true ↔ ∀ m ∈ a.meets, ∃ n ∈ b.meets, n ⊆ m := by
  simp [isStructurallyBelow]

theorem holds_of_isStructurallyBelow {a b : FreeLattice α} (h : a.isStructurallyBelow b = true)
    {truth : α → Bool} (ha : a.holds truth = true) : b.holds truth = true := by
  obtain ⟨m, hm, hx⟩ := holds_iff.mp ha
  obtain ⟨n, hn, hsub⟩ := isStructurallyBelow_iff.mp h m hm
  exact holds_iff.mpr ⟨n, hn, fun x hxn => hx x (hsub x hxn)⟩

-- Without delegations each meet, read as an assignment, is the only candidate.
theorem isStructurallyBelow_of_holds {a b : FreeLattice α}
    (h : ∀ truth, a.holds truth = true → b.holds truth = true) :
    a.isStructurallyBelow b = true := by
  refine isStructurallyBelow_iff.mpr fun m hm => ?_
  obtain ⟨n, hn, hsub⟩ := holds_iff.mp (h _ (holds_mem_of_mem hm))
  exact ⟨n, hn, fun x hx => by simpa using hsub x hx⟩

theorem no_counterModel_iff {ds : List (Delegation α)} {a b : FreeLattice α} :
    (∀ m ∈ a.meets, ¬∃ truth, Delegation.CounterModel ds b m truth) ↔
      ∀ truth, (∀ d ∈ ds, d.respectedBy truth = true) → a.holds truth = true →
        b.holds truth = true := by
  constructor
  · intro h truth hds ha
    obtain ⟨m, hm, hx⟩ := holds_iff.mp ha
    by_contra hb
    exact h m hm ⟨truth, hx, hds, by simpa using hb⟩
  · rintro h m hm ⟨truth, hx, hds, hb⟩
    have ha := h truth hds (holds_iff.mpr ⟨m, hm, hx⟩)
    rw [hb] at ha
    exact Bool.false_ne_true ha

theorem entails_iff_respectedBy {ds : List (Delegation α)} {a b : FreeLattice α} :
    a.entails ds b = true ↔
      ∀ truth, (∀ d ∈ ds, d.respectedBy truth = true) → a.holds truth = true →
        b.holds truth = true := by
  unfold entails
  split
  · next hbelow =>
    exact iff_of_true rfl fun truth _ => holds_of_isStructurallyBelow hbelow
  · next hbelow =>
    split
    · next hempty =>
      rw [List.isEmpty_iff] at hempty
      subst hempty
      refine iff_of_false Bool.false_ne_true fun h => hbelow (isStructurallyBelow_of_holds ?_)
      simpa using h
    · rw [← no_counterModel_iff]
      simp only [← Delegation.hasCounterModel_iff, List.all_eq_true, OrderedSet.mem_toList,
        Bool.not_eq_true', Bool.not_eq_true]

-- Entailment is order in all models of the delegations, and its search comes to an end.
theorem entails_iff (ds : List (Delegation α)) (a b : FreeLattice α) :
    (WellFounded fun next trusted => Delegation.Repairs ds b trusted next) ∧
      (a.entails ds b = true ↔
        ∀ truth : α → Bool,
          (∀ d ∈ ds, d.lower.holds truth = true → d.upper.holds truth = true) →
            a.holds truth = true → b.holds truth = true) := by
  refine ⟨Delegation.repairs_wellFounded ds b, ?_⟩
  rw [entails_iff_respectedBy]
  simp only [Delegation.respectedBy_iff]

end FreeLattice

end LabelInference

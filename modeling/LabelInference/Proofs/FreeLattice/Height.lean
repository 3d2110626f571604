import LabelInference.Proofs.FreeLattice.Canonical
import Mathlib.Data.Fintype.EquivFin
import Mathlib.Data.Finset.Powerset
import Mathlib.Order.WellFounded

namespace LabelInference.FreeLattice

universe u

variable {α : Type u} [Ordered α]

-- Every meet of the element is a set of the given atoms.
def IsOver (as : OrderedSet α) (a : FreeLattice α) : Prop := ∀ m ∈ a.meets, m ⊆ as

variable {as : OrderedSet α} {a b : FreeLattice α}

theorem isOver_top : (top : FreeLattice α).IsOver as := by
  intro m hm x hx
  rw [OrderedSet.mem_singleton.mp hm] at hx
  exact absurd hx (OrderedSet.not_mem_empty x)

theorem isOver_joinOf {ms : OrderedSet (OrderedSet α)} (h : ∀ m ∈ ms, m ⊆ as) :
    (joinOf ms).IsOver as :=
  fun m hm => h m (mem_of_mem_joinOf hm)

theorem IsOver.join (ha : a.IsOver as) (hb : b.IsOver as) :
    (LabelInference.join a b).IsOver as :=
  isOver_joinOf fun m hm => (OrderedSet.mem_union.mp hm).elim (ha m) (hb m)

theorem IsOver.meet (ha : a.IsOver as) (hb : b.IsOver as) :
    (LabelInference.meet a b).IsOver as := by
  refine isOver_joinOf fun m hm x hx => ?_
  obtain ⟨l, hl, hm⟩ := List.mem_flatMap.mp (OrderedSet.mem_ofList.mp hm)
  obtain ⟨r, hr, rfl⟩ := List.mem_map.mp hm
  rcases OrderedSet.mem_union.mp hx with hx | hx
  · exact ha l hl x hx
  · exact hb r hr x hx

theorem IsOver.residual (hb : b.IsOver as) (m : OrderedSet α) : (residual m b).IsOver as := by
  refine isOver_joinOf fun d hd x hx => ?_
  obtain ⟨n, hn, rfl⟩ := List.mem_map.mp (OrderedSet.mem_ofList.mp hd)
  exact hb n hn x (OrderedSet.mem_sdiff.mp hx).1

-- An implication takes atoms away from its second argument and needs no bound on the first.
theorem IsOver.imply (a : FreeLattice α) (hb : b.IsOver as) :
    (LabelInference.imply a b).IsOver as := by
  have hfold : ∀ (ms : List (OrderedSet α)) (acc : FreeLattice α), acc.IsOver as →
      (ms.foldl (fun acc m => LabelInference.meet acc (FreeLattice.residual m b)) acc).IsOver as := by
    intro ms
    induction ms with
    | nil => exact fun acc hacc => hacc
    | cons m ms ih => exact fun acc hacc => ih _ (hacc.meet (hb.residual m))
  exact hfold a.meets.toList top isOver_top

-- Only the atoms that an element mentions matter to it.
theorem IsOver.holds_congr (ha : a.IsOver as) {truth truth' : α → Bool}
    (h : ∀ x ∈ as, truth x = truth' x) : a.holds truth = a.holds truth' := by
  rw [Bool.eq_iff_iff, holds_iff, holds_iff]
  refine exists_congr fun m => and_congr_right fun hm => forall₂_congr fun x hx => ?_
  rw [h x (ha m hm x hx)]

theorem IsOver.holds_restrict (ha : a.IsOver as) {truth : α → Bool} (h : a.holds truth = true) :
    a.holds (fun x => decide (x ∈ as.toList.filter truth)) = true := by
  rw [← h]
  refine ha.holds_congr fun x hx => ?_
  simp [hx]

-- The sets of atoms under which an element holds.
def models (as : OrderedSet α) (a : FreeLattice α) : Finset (Finset α) :=
  as.toList.toFinset.powerset.filter fun s => a.holds (· ∈ s) = true

theorem mem_models {s : Finset α} :
    s ∈ models as a ↔ s ⊆ as.toList.toFinset ∧ a.holds (· ∈ s) = true := by
  rw [models, Finset.mem_filter, Finset.mem_powerset]

theorem card_models_le (a : FreeLattice α) : (models as a).card ≤ 2 ^ as.toList.length := by
  calc (models as a).card
      ≤ as.toList.toFinset.powerset.card := Finset.card_filter_le _ _
    _ = 2 ^ as.toList.toFinset.card := Finset.card_powerset _
    _ = 2 ^ as.toList.length := by rw [List.toFinset_card_of_nodup as.nodup_toList]

-- Some assignment tells the two apart, and the upper element sees the given atoms of it only.
theorem card_models_lt (hb : b.IsOver as) (h : StrictlyBelow a b) :
    (models as a).card < (models as b).card := by
  have hle := below_iff_holds.mp h.1
  have hnot : ¬Below b a := fun hba => h.2 (h.1.antisymm hba)
  rw [below_iff_holds] at hnot
  push Not at hnot
  obtain ⟨truth, hbt, hat⟩ := hnot
  let s : Finset α := (as.toList.filter truth).toFinset
  have hs : s ⊆ as.toList.toFinset := by
    intro x hx
    rw [List.mem_toFinset] at hx ⊢
    exact List.mem_of_mem_filter hx
  have hbs : s ∈ models as b := by
    refine mem_models.mpr ⟨hs, ?_⟩
    simpa [s] using hb.holds_restrict hbt
  have has : s ∉ models as a := by
    intro hmem
    refine hat (holds_mono (fun x hx => ?_) (mem_models.mp hmem).2)
    exact (List.mem_filter.mp (List.mem_toFinset.mp (of_decide_eq_true hx))).2
  refine Finset.card_lt_card (Finset.ssubset_iff_of_subset ?_ |>.mpr ⟨s, hbs, has⟩)
  intro t ht
  obtain ⟨hsub, hat⟩ := mem_models.mp ht
  exact mem_models.mpr ⟨hsub, hle _ hat⟩

-- The meet of the first `k` atoms of a sequence.
def initialMeet (atomAt : Nat → α) (k : Nat) : FreeLattice α :=
  ofMeets [(List.range k).map atomAt]

theorem holds_initialMeet {atomAt : Nat → α} {k : Nat} {truth : α → Bool} :
    (initialMeet atomAt k).holds truth = true ↔ ∀ i < k, truth (atomAt i) = true := by
  rw [initialMeet, holds_ofMeets]
  simp

-- Distinct atoms make their initial meets fall forever.
theorem initialMeet_succ_strictlyBelow {atomAt : Nat → α} (h : Function.Injective atomAt) (k : Nat) :
    StrictlyBelow (initialMeet atomAt (k + 1)) (initialMeet atomAt k) := by
  constructor
  · refine below_iff_holds.mpr fun truth hsucc => holds_initialMeet.mpr fun i hi => ?_
    exact holds_initialMeet.mp hsucc i (Nat.lt_succ_of_lt hi)
  · intro heq
    have hholds : (initialMeet atomAt k).holds (· ≠ atomAt k) = true := by
      refine holds_initialMeet.mpr fun i hi => decide_eq_true fun hik => ?_
      exact absurd (h hik) (Nat.ne_of_lt hi)
    rw [← heq] at hholds
    simpa using holds_initialMeet.mp hholds k (Nat.lt_succ_self k)

theorem not_wellFounded_strictlyBelow [Infinite α] :
    ¬WellFounded (StrictlyBelow : FreeLattice α → FreeLattice α → Prop) := by
  intro hwf
  let atomAt : Nat ↪ α := Infinite.natEmbedding α
  have hdescent : ∀ k, StrictlyBelow (initialMeet atomAt (k + 1)) (initialMeet atomAt k) :=
    initialMeet_succ_strictlyBelow atomAt.injective
  exact (wellFounded_iff_isEmpty_descending_chain.mp hwf).false ⟨initialMeet atomAt, hdescent⟩

theorem mem_atoms {x : α} : x ∈ a.atoms ↔ ∃ m ∈ a.meets, x ∈ m := by
  have hfold : ∀ ms : List (OrderedSet α),
      x ∈ ms.foldr OrderedSet.union .empty ↔ ∃ m ∈ ms, x ∈ m := by
    intro ms
    induction ms with
    | nil => simp
    | cons m ms ih => simp [ih]
  exact hfold a.meets.toList

-- All atoms that some of the elements mention.
def atomsOf (es : List (FreeLattice α)) : OrderedSet α :=
  es.foldr (fun e => e.atoms.union) .empty

theorem mem_atomsOf {es : List (FreeLattice α)} {x : α} :
    x ∈ atomsOf es ↔ ∃ e ∈ es, x ∈ e.atoms := by
  induction es with
  | nil => simp [atomsOf]
  | cons e es ih =>
    change x ∈ e.atoms.union (atomsOf es) ↔ _
    rw [OrderedSet.mem_union, ih, List.exists_mem_cons_iff]

theorem isOver_atomsOf {es : List (FreeLattice α)} (h : a ∈ es) : a.IsOver (atomsOf es) :=
  fun m hm _ hx => mem_atomsOf.mpr ⟨a, h, mem_atoms.mpr ⟨m, hm, hx⟩⟩

theorem card_models_le_chainBound (es : List (FreeLattice α)) (a : FreeLattice α) :
    (models (atomsOf es) a).card ≤ chainBound es :=
  card_models_le a

end LabelInference.FreeLattice

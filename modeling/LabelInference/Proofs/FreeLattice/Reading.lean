import LabelInference.FreeLattice.Basic
import LabelInference.Proofs.Lattice.Laws
import Mathlib.Data.List.Perm.Subperm

namespace LabelInference

universe u

namespace OrderedSet

variable {α : Type u} [Ordered α]

theorem nodup_toList (s : OrderedSet α) : s.toList.Nodup :=
  s.ascending.imp fun h => Ordered.ne_of_lt h

theorem length_lt_of_subset_of_ne {s t : OrderedSet α} (h : s ⊆ t) (hne : s ≠ t) :
    s.toList.length < t.toList.length := by
  have hsub := List.subperm_of_subset s.nodup_toList (fun a ha => h a ha)
  by_contra hle
  have hperm := hsub.perm_of_length_le (Nat.le_of_not_lt hle)
  exact hne (ext fun a => hperm.mem_iff)

end OrderedSet

namespace FreeLattice

variable {α : Type u} [Ordered α]

-- The size of a meet bounds the descent to a minimal one.
theorem exists_subset_isMinimal {ms : OrderedSet (OrderedSet α)} {m : OrderedSet α} (hm : m ∈ ms) :
    ∃ n ∈ (joinOf ms).meets, n ⊆ m := by
  induction hk : m.toList.length using Nat.strongRecOn generalizing m with
  | ind k ih =>
    by_cases hmin : isMinimal ms m = true
    · exact ⟨m, OrderedSet.mem_filter.mpr ⟨hm, hmin⟩, OrderedSet.subset_refl m⟩
    · rw [isMinimal_iff] at hmin
      push Not at hmin
      obtain ⟨n, hn, hsub, hne⟩ := hmin
      have hlt := OrderedSet.length_lt_of_subset_of_ne hsub hne
      obtain ⟨l, hl, hln⟩ := ih n.toList.length (hk ▸ hlt) hn rfl
      exact ⟨l, hl, OrderedSet.subset_trans hln hsub⟩

theorem mem_of_mem_joinOf {ms : OrderedSet (OrderedSet α)} {m : OrderedSet α}
    (hm : m ∈ (joinOf ms).meets) : m ∈ ms :=
  (OrderedSet.mem_filter.mp hm).1

-- Dropping the redundant meets loses no reading.
theorem holds_joinOf {truth : α → Bool} {ms : OrderedSet (OrderedSet α)} :
    (joinOf ms).holds truth = true ↔ ∃ m ∈ ms, ∀ x ∈ m, truth x = true := by
  rw [holds_iff]
  constructor
  · rintro ⟨m, hm, hx⟩
    exact ⟨m, mem_of_mem_joinOf hm, hx⟩
  · rintro ⟨m, hm, hx⟩
    obtain ⟨n, hn, hsub⟩ := exists_subset_isMinimal hm
    exact ⟨n, hn, fun x hxn => hx x (hsub x hxn)⟩

@[simp] theorem holds_atom {truth : α → Bool} {a : α} : (atom a).holds truth = truth a := by
  simp [holds, atom, OrderedSet.singleton]

@[simp] theorem holds_top {truth : α → Bool} : (top : FreeLattice α).holds truth = true := by
  simp [holds, top, OrderedSet.singleton, OrderedSet.empty]

@[simp] theorem holds_bottom {truth : α → Bool} : (bottom : FreeLattice α).holds truth = false := by
  simp [holds, bottom, OrderedSet.empty]

theorem holds_join {truth : α → Bool} {a b : FreeLattice α} :
    (join a b).holds truth = true ↔ a.holds truth = true ∨ b.holds truth = true := by
  change (joinOf (a.meets.union b.meets)).holds truth = true ↔ _
  rw [holds_joinOf, holds_iff, holds_iff]
  simp only [OrderedSet.mem_union, or_and_right, exists_or]

theorem holds_meet {truth : α → Bool} {a b : FreeLattice α} :
    (meet a b).holds truth = true ↔ a.holds truth = true ∧ b.holds truth = true := by
  change (joinOf _).holds truth = true ↔ _
  rw [holds_joinOf, holds_iff, holds_iff]
  simp only [OrderedSet.mem_ofList, List.mem_flatMap, List.mem_map, OrderedSet.mem_toList]
  constructor
  · rintro ⟨_, ⟨m, hm, n, hn, rfl⟩, hx⟩
    simp only [OrderedSet.mem_union] at hx
    exact ⟨⟨m, hm, fun x h => hx x (.inl h)⟩, ⟨n, hn, fun x h => hx x (.inr h)⟩⟩
  · rintro ⟨⟨m, hm, hxm⟩, ⟨n, hn, hxn⟩⟩
    refine ⟨m.union n, ⟨m, hm, n, hn, rfl⟩, fun x h => ?_⟩
    rcases OrderedSet.mem_union.mp h with h | h
    · exact hxm x h
    · exact hxn x h

theorem holds_join_eq_or {truth : α → Bool} {a b : FreeLattice α} :
    (join a b).holds truth = (a.holds truth || b.holds truth) := by
  rw [Bool.eq_iff_iff, holds_join, Bool.or_eq_true]

theorem holds_meet_eq_and {truth : α → Bool} {a b : FreeLattice α} :
    (meet a b).holds truth = (a.holds truth && b.holds truth) := by
  rw [Bool.eq_iff_iff, holds_meet, Bool.and_eq_true]

theorem holds_foldr_join {truth : α → Bool} {vs : List (FreeLattice α)} :
    (vs.foldr join bottom).holds truth = true ↔ ∃ v ∈ vs, v.holds truth = true := by
  induction vs with
  | nil => simp
  | cons v vs ih => rw [List.foldr_cons, holds_join, ih, List.exists_mem_cons_iff]

theorem holds_foldr_meet {truth : α → Bool} {vs : List (FreeLattice α)} :
    (vs.foldr meet top).holds truth = true ↔ ∀ v ∈ vs, v.holds truth = true := by
  induction vs with
  | nil => simp
  | cons v vs ih => rw [List.foldr_cons, holds_meet, ih, List.forall_mem_cons]

def withMeet (truth : α → Bool) (m : OrderedSet α) : α → Bool :=
  fun x => truth x || decide (x ∈ m)

@[simp] theorem withMeet_eq_true_iff {truth : α → Bool} {m : OrderedSet α} {x : α} :
    withMeet truth m x = true ↔ truth x = true ∨ x ∈ m := by
  simp [withMeet]

-- It is the least assignment above `truth` that accepts the meet.
theorem holds_of_withMeet {truth larger : α → Bool} {m : OrderedSet α} {a : FreeLattice α}
    (hle : ∀ x, truth x = true → larger x = true) (hm : ∀ x ∈ m, larger x = true)
    (h : a.holds (withMeet truth m) = true) : a.holds larger = true :=
  holds_mono (fun x hx => (withMeet_eq_true_iff.mp hx).elim (hle x) (hm x)) h

theorem holds_residual {truth : α → Bool} {m : OrderedSet α} {b : FreeLattice α} :
    (residual m b).holds truth = true ↔ b.holds (withMeet truth m) = true := by
  rw [residual, holds_joinOf, holds_iff]
  simp only [OrderedSet.mem_ofList, List.mem_map, OrderedSet.mem_toList, withMeet_eq_true_iff]
  constructor
  · rintro ⟨_, ⟨n, hn, rfl⟩, hx⟩
    refine ⟨n, hn, fun x hxn => ?_⟩
    by_cases hxm : x ∈ m
    · exact .inr hxm
    · exact .inl (hx x (OrderedSet.mem_sdiff.mpr ⟨hxn, hxm⟩))
  · rintro ⟨n, hn, hx⟩
    refine ⟨n \ m, ⟨n, hn, rfl⟩, fun x hxd => ?_⟩
    obtain ⟨hxn, hxm⟩ := OrderedSet.mem_sdiff.mp hxd
    exact (hx x hxn).resolve_right hxm

-- The accumulator collects the residuals of the meets passed so far.
theorem holds_foldl_residual {truth : α → Bool} {b : FreeLattice α} (ms : List (OrderedSet α))
    (acc : FreeLattice α) :
    (ms.foldl (fun acc m => meet acc (residual m b)) acc).holds truth = true ↔
      acc.holds truth = true ∧ ∀ m ∈ ms, b.holds (withMeet truth m) = true := by
  induction ms generalizing acc with
  | nil => simp
  | cons m ms ih =>
    rw [List.foldl_cons, ih, holds_meet, holds_residual, List.forall_mem_cons, and_assoc]

theorem holds_imply {truth : α → Bool} {a b : FreeLattice α} :
    (imply a b).holds truth = true ↔ ∀ m ∈ a.meets, b.holds (withMeet truth m) = true :=
  (holds_foldl_residual a.meets.toList top).trans (and_iff_right holds_top)

-- Each meet, read as an assignment, makes its own element true.
theorem holds_mem_of_mem {a : FreeLattice α} {m : OrderedSet α} (hm : m ∈ a.meets) :
    a.holds (· ∈ m) = true :=
  holds_iff.mpr ⟨m, hm, fun _ hx => decide_eq_true hx⟩

theorem meets_subset_of_holds {a b : FreeLattice α}
    (h : ∀ truth, a.holds truth = true ↔ b.holds truth = true) {m : OrderedSet α}
    (hm : m ∈ a.meets) : m ∈ b.meets := by
  obtain ⟨n, hn, hnm⟩ := holds_iff.mp ((h _).mp (holds_mem_of_mem hm))
  obtain ⟨l, hl, hln⟩ := holds_iff.mp ((h _).mpr (holds_mem_of_mem hn))
  simp only [decide_eq_true_eq] at hnm hln
  have hlm : l = m := a.irredundant m hm l hl (OrderedSet.subset_trans hln hnm)
  subst hlm
  rwa [OrderedSet.subset_antisymm hln hnm]

theorem eq_of_holds {a b : FreeLattice α}
    (h : ∀ truth, a.holds truth = true ↔ b.holds truth = true) : a = b :=
  meets_injective <| OrderedSet.ext fun _ =>
    ⟨meets_subset_of_holds h, meets_subset_of_holds fun truth => (h truth).symm⟩

theorem below_iff_holds {a b : FreeLattice α} :
    Below a b ↔ ∀ truth, a.holds truth = true → b.holds truth = true := by
  constructor
  · intro h truth ha
    rw [← h, holds_meet] at ha
    exact ha.2
  · intro h
    refine eq_of_holds fun truth => ?_
    rw [holds_meet, and_iff_left_iff_imp]
    exact h truth

theorem below_top (a : FreeLattice α) : Below a top :=
  below_iff_holds.mpr fun _ _ => holds_top

theorem bottom_below (a : FreeLattice α) : Below bottom a :=
  below_iff_holds.mpr fun _ h => by simp at h

theorem holds_withMeet_of_mem {truth : α → Bool} {a : FreeLattice α} {m : OrderedSet α}
    (hm : m ∈ a.meets) : a.holds (withMeet truth m) = true :=
  holds_iff.mpr ⟨m, hm, fun _ hx => withMeet_eq_true_iff.mpr (.inr hx)⟩

theorem holds_withMeet_of_holds {truth : α → Bool} {a : FreeLattice α} (m : OrderedSet α)
    (h : a.holds truth = true) : a.holds (withMeet truth m) = true :=
  holds_mono (fun _ hx => withMeet_eq_true_iff.mpr (.inl hx)) h

theorem imply_adjoint {a b x : FreeLattice α} : Below x (imply a b) ↔ Below (meet a x) b := by
  simp only [below_iff_holds, holds_imply, holds_meet]
  constructor
  · rintro h truth ⟨ha, hx⟩
    obtain ⟨m, hm, htrue⟩ := holds_iff.mp ha
    exact holds_of_withMeet (fun _ hy => hy) htrue (h truth hx m hm)
  · intro h truth hx m hm
    exact h _ ⟨holds_withMeet_of_mem hm, holds_withMeet_of_holds m hx⟩

instance : LawfulHeyting (FreeLattice α) where
  meet_comm a b := eq_of_holds fun truth => by simp only [holds_meet, and_comm]
  meet_assoc a b c := eq_of_holds fun truth => by simp only [holds_meet, and_assoc]
  meet_self a := eq_of_holds fun truth => by simp only [holds_meet, and_self]
  join_below_iff := by
    intro a b c
    simp only [below_iff_holds, holds_join]
    exact ⟨fun h => ⟨fun truth ha => h truth (.inl ha), fun truth hb => h truth (.inr hb)⟩,
      fun h truth hab => hab.elim (h.1 truth) (h.2 truth)⟩
  below_imply_iff := imply_adjoint

-- The order test accepts a meet below an element exactly if it accepts the bound that the relative
-- pseudocomplement puts on the other factor.
theorem isBelow_meet_iff_isBelow_imply (a b x : FreeLattice α) :
    isBelow (meet a x) b = true ↔ isBelow x (imply a b) = true := by
  rw [isBelow_iff, isBelow_iff, below_imply_iff]

-- Elements have the laws as they are written, redundant meets removed, and not only up to their readings.
theorem isBoundedDistributive_bounds (α : Type u) [Ordered α] :
    IsBoundedDistributive (bounds : Bounds (FreeLattice α)) :=
  isBoundedDistributive below_top bottom_below

end FreeLattice

end LabelInference

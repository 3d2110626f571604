import LabelInference.Proofs.FreeLattice.Canonical
import Mathlib.Data.Multiset.Lattice

namespace LabelInference.FreeLattice

universe u v

variable {α : Type u} {D : Type v} [DistribLattice D] [BoundedOrder D]

def meetIn (f : α → D) (m : List α) : D := (m.map f).foldr (· ⊓ ·) ⊤

def joinOfMeetsIn (f : α → D) (ms : List (List α)) : D := (ms.map (meetIn f)).foldr (· ⊔ ·) ⊥

section Lists

variable {f : α → D} {m : List α} {ms : List (List α)} {c d : D}

theorem le_meetIn_iff : d ≤ meetIn f m ↔ ∀ x ∈ m, d ≤ f x := by
  have h : d ≤ Multiset.inf (m.map f) ↔ ∀ v ∈ m.map f, d ≤ v := Multiset.le_inf
  rwa [Multiset.inf_coe, List.forall_mem_map] at h

theorem joinOfMeetsIn_le_iff : joinOfMeetsIn f ms ≤ d ↔ ∀ m ∈ ms, meetIn f m ≤ d := by
  have h : Multiset.sup (ms.map (meetIn f)) ≤ d ↔ ∀ v ∈ ms.map (meetIn f), v ≤ d := Multiset.sup_le
  rwa [Multiset.sup_coe, List.forall_mem_map] at h

-- The part of a join below an element is the join of the parts.
theorem joinOfMeetsIn_inf_le_iff : joinOfMeetsIn f ms ⊓ c ≤ d ↔ ∀ m ∈ ms, meetIn f m ⊓ c ≤ d := by
  induction ms with
  | nil => simp [joinOfMeetsIn]
  | cons m ms ih =>
    have hcons : joinOfMeetsIn f (m :: ms) = meetIn f m ⊔ joinOfMeetsIn f ms := rfl
    rw [hcons, inf_sup_right, sup_le_iff, ih, List.forall_mem_cons]

-- The value of a meet depends on its atoms only, not on their order or number.
theorem meetIn_anti {n : List α} (h : ∀ x ∈ n, x ∈ m) : meetIn f m ≤ meetIn f n :=
  le_meetIn_iff.mpr fun x hx => le_meetIn_iff.mp le_rfl x (h x hx)

theorem meetIn_eq_of_mem_iff {n : List α} (h : ∀ x, x ∈ m ↔ x ∈ n) : meetIn f m = meetIn f n :=
  le_antisymm (meetIn_anti fun x hx => (h x).mpr hx) (meetIn_anti fun x hx => (h x).mp hx)

end Lists

variable [Ordered α]

-- The value of an element when the atoms have the given ones.
def valueIn (f : α → D) (a : FreeLattice α) : D :=
  joinOfMeetsIn f (a.meets.toList.map OrderedSet.toList)

variable {f : α → D} {a b : FreeLattice α} {c d : D}

theorem valueIn_le_iff : valueIn f a ≤ d ↔ ∀ m ∈ a.meets, meetIn f m.toList ≤ d := by
  rw [valueIn, joinOfMeetsIn_le_iff, List.forall_mem_map]
  rfl

theorem valueIn_inf_le_iff : valueIn f a ⊓ c ≤ d ↔ ∀ m ∈ a.meets, meetIn f m.toList ⊓ c ≤ d := by
  rw [valueIn, joinOfMeetsIn_inf_le_iff, List.forall_mem_map]
  rfl

-- A meet that is dropped contains one that stays.
theorem valueIn_joinOf_le_iff {ms : OrderedSet (OrderedSet α)} :
    valueIn f (joinOf ms) ≤ d ↔ ∀ m ∈ ms, meetIn f m.toList ≤ d := by
  rw [valueIn_le_iff]
  constructor
  · intro h m hm
    obtain ⟨n, hn, hnm⟩ := exists_subset_isMinimal hm
    have hle : meetIn f m.toList ≤ meetIn f n.toList := meetIn_anti hnm
    exact hle.trans (h n hn)
  · intro h m hm
    exact h m (mem_of_mem_joinOf hm)

theorem meetIn_union (m n : OrderedSet α) :
    meetIn f (m.union n).toList = meetIn f m.toList ⊓ meetIn f n.toList := by
  refine eq_of_forall_le_iff fun d => ?_
  simp only [le_inf_iff, le_meetIn_iff, OrderedSet.mem_toList, OrderedSet.mem_union, or_imp,
    forall_and]

theorem valueIn_atom (x : α) : valueIn f (atom x) = f x := by
  simp [valueIn, joinOfMeetsIn, meetIn, atom, OrderedSet.singleton]

theorem valueIn_top : valueIn f (top : FreeLattice α) = ⊤ := by
  simp [valueIn, joinOfMeetsIn, meetIn, top, OrderedSet.singleton, OrderedSet.empty]

theorem valueIn_bottom : valueIn f (bottom : FreeLattice α) = ⊥ := by
  simp [valueIn, joinOfMeetsIn, bottom, OrderedSet.empty]

theorem valueIn_join : valueIn f (join a b) = valueIn f a ⊔ valueIn f b := by
  refine eq_of_forall_ge_iff fun d => ?_
  have hunion : valueIn f (join a b) ≤ d ↔ ∀ m ∈ a.meets.union b.meets, meetIn f m.toList ≤ d :=
    valueIn_joinOf_le_iff
  simp only [hunion, sup_le_iff, valueIn_le_iff, OrderedSet.mem_union, or_imp, forall_and]

theorem valueIn_meet : valueIn f (meet a b) = valueIn f a ⊓ valueIn f b := by
  refine eq_of_forall_ge_iff fun d => ?_
  have hpairs : valueIn f (meet a b) ≤ d ↔
      ∀ m ∈ a.meets, ∀ n ∈ b.meets, meetIn f (m.union n).toList ≤ d := by
    refine valueIn_joinOf_le_iff.trans ?_
    simp only [OrderedSet.mem_ofList, List.mem_flatMap, List.mem_map, OrderedSet.mem_toList]
    constructor
    · intro h m hm n hn
      exact h _ ⟨m, hm, n, hn, rfl⟩
    · rintro h _ ⟨m, hm, n, hn, rfl⟩
      exact h m hm n hn
  rw [hpairs, valueIn_inf_le_iff]
  refine forall₂_congr fun m _ => ?_
  rw [inf_comm, valueIn_inf_le_iff]
  refine forall₂_congr fun n _ => ?_
  rw [meetIn_union, inf_comm]

theorem valueIn_ofMeets (ms : List (List α)) : valueIn f (ofMeets ms) = joinOfMeetsIn f ms := by
  refine eq_of_forall_ge_iff fun d => ?_
  rw [ofMeets, valueIn_joinOf_le_iff, joinOfMeetsIn_le_iff]
  simp only [OrderedSet.mem_ofList, List.forall_mem_map]
  refine forall₂_congr fun m _ => ?_
  rw [meetIn_eq_of_mem_iff fun x => OrderedSet.mem_ofList]

-- Values of all elements that agree with those of the atoms and respect the operations.
structure Extends (f : α → D) (g : FreeLattice α → D) : Prop where
  atom : ∀ x, g (atom x) = f x
  join : ∀ a b, g (join a b) = g a ⊔ g b
  meet : ∀ a b, g (meet a b) = g a ⊓ g b
  top : g top = ⊤
  bottom : g bottom = ⊥

theorem extends_valueIn (f : α → D) : Extends f (valueIn f) where
  atom := valueIn_atom
  join _ _ := valueIn_join
  meet _ _ := valueIn_meet
  top := valueIn_top
  bottom := valueIn_bottom

namespace Extends

variable {g : FreeLattice α → D}

theorem foldr_join (h : Extends f g) (vs : List (FreeLattice α)) :
    g (vs.foldr LabelInference.join .bottom) = (vs.map g).foldr (· ⊔ ·) ⊥ := by
  induction vs with
  | nil => exact h.bottom
  | cons v vs ih => rw [List.foldr_cons, h.join, ih, List.map_cons, List.foldr_cons]

theorem foldr_meet (h : Extends f g) (vs : List (FreeLattice α)) :
    g (vs.foldr LabelInference.meet .top) = (vs.map g).foldr (· ⊓ ·) ⊤ := by
  induction vs with
  | nil => exact h.top
  | cons v vs ih => rw [List.foldr_cons, h.meet, ih, List.map_cons, List.foldr_cons]

theorem meetOf (h : Extends f g) (m : OrderedSet α) : g (meetOf m) = meetIn f m.toList := by
  rw [FreeLattice.meetOf, h.foldr_meet, List.map_map, meetIn]
  exact congrArg _ (List.map_congr_left fun x _ => h.atom x)

theorem eq_valueIn (h : Extends f g) : g = valueIn f := by
  funext a
  calc g a = g ((a.meets.toList.map FreeLattice.meetOf).foldr LabelInference.join .bottom) := by
        rw [foldr_join_meetOf]
    _ = ((a.meets.toList.map FreeLattice.meetOf).map g).foldr (· ⊔ ·) ⊥ := h.foldr_join _
    _ = (a.meets.toList.map fun m => meetIn f m.toList).foldr (· ⊔ ·) ⊥ := by
        rw [List.map_map]
        exact congrArg _ (List.map_congr_left fun m _ => h.meetOf m)
    _ = valueIn f a := by rw [valueIn, joinOfMeetsIn, List.map_map]; rfl

end Extends

-- In every bounded distributive lattice: the values of the atoms have one extension, the join of the
-- meets, and it may be read off any meets that an element is built from.
theorem valueIn_unique_extension (f : α → D) :
    Extends f (valueIn f) ∧
      (∀ ms : List (List α), valueIn f (ofMeets ms) = joinOfMeetsIn f ms) ∧
      ∀ g, Extends f g → g = valueIn f :=
  ⟨extends_valueIn f, valueIn_ofMeets, fun _ h => h.eq_valueIn⟩

end LabelInference.FreeLattice

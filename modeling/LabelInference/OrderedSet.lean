import LabelInference.Ordered

namespace LabelInference

universe u

structure OrderedSet (α : Type u) [Ordered α] where
  toList : List α
  ascending : toList.Pairwise (· < ·)

namespace OrderedSet

variable {α : Type u} [Ordered α]

instance : Membership α (OrderedSet α) where
  mem s a := a ∈ s.toList

instance (a : α) (s : OrderedSet α) : Decidable (a ∈ s) :=
  inferInstanceAs (Decidable (a ∈ s.toList))

instance : HasSubset (OrderedSet α) where
  Subset s t := ∀ a ∈ s.toList, a ∈ t

instance (s t : OrderedSet α) : Decidable (s ⊆ t) :=
  inferInstanceAs (Decidable (∀ a ∈ s.toList, a ∈ t))

@[simp] theorem mem_toList {a : α} {s : OrderedSet α} : a ∈ s.toList ↔ a ∈ s := Iff.rfl

theorem subset_refl (s : OrderedSet α) : s ⊆ s := fun _ h => h

theorem subset_trans {r s t : OrderedSet α} (h : r ⊆ s) (h' : s ⊆ t) : r ⊆ t :=
  fun a ha => h' a (h a ha)

theorem toList_injective : ∀ {s t : OrderedSet α}, s.toList = t.toList → s = t
  | ⟨_, _⟩, ⟨_, _⟩, rfl => rfl

instance : DecidableEq (OrderedSet α) := fun s t =>
  decidable_of_iff (s.toList = t.toList) ⟨toList_injective, congrArg toList⟩

-- A strictly ascending list is determined by its members: the two heads are both the least one.
theorem eq_of_ascending {xs ys : List α} (hx : xs.Pairwise (· < ·)) (hy : ys.Pairwise (· < ·))
    (h : ∀ a, a ∈ xs ↔ a ∈ ys) : xs = ys := by
  induction xs generalizing ys with
  | nil =>
    cases ys with
    | nil => rfl
    | cons y ys => exact absurd ((h y).mpr List.mem_cons_self) List.not_mem_nil
  | cons x xs ih =>
    cases ys with
    | nil => exact absurd ((h x).mp List.mem_cons_self) List.not_mem_nil
    | cons y ys =>
      rw [List.pairwise_cons] at hx hy
      have hxy : x = y := by
        rcases List.mem_cons.mp ((h x).mp List.mem_cons_self) with rfl | hxys
        · rfl
        rcases List.mem_cons.mp ((h y).mpr List.mem_cons_self) with rfl | hyxs
        · rfl
        exact absurd (hx.1 y hyxs) (Ordered.lt_asymm (hy.1 x hxys))
      subst hxy
      have tails : ∀ a, a ∈ xs ↔ a ∈ ys := by
        intro a
        constructor
        · intro ha
          rcases List.mem_cons.mp ((h a).mp (List.mem_cons_of_mem _ ha)) with rfl | ha'
          · exact absurd (hx.1 a ha) (Ordered.lt_irrefl a)
          · exact ha'
        · intro ha
          rcases List.mem_cons.mp ((h a).mpr (List.mem_cons_of_mem _ ha)) with rfl | ha'
          · exact absurd (hy.1 a ha) (Ordered.lt_irrefl a)
          · exact ha'
      rw [ih hx.2 hy.2 tails]

theorem ext {s t : OrderedSet α} (h : ∀ a, a ∈ s ↔ a ∈ t) : s = t :=
  toList_injective (eq_of_ascending s.ascending t.ascending h)

theorem subset_antisymm {s t : OrderedSet α} (h : s ⊆ t) (h' : t ⊆ s) : s = t :=
  ext fun a => ⟨h a, h' a⟩

def empty : OrderedSet α := ⟨[], .nil⟩

def singleton (a : α) : OrderedSet α := ⟨[a], List.pairwise_singleton _ a⟩

@[simp] theorem not_mem_empty (a : α) : a ∉ (empty : OrderedSet α) := List.not_mem_nil

@[simp] theorem mem_singleton {a b : α} : a ∈ singleton b ↔ a = b := List.mem_singleton

def insertList (a : α) : List α → List α
  | [] => [a]
  | b :: bs => if a < b then a :: b :: bs else if a = b then b :: bs else b :: insertList a bs

theorem mem_insertList {a b : α} {xs : List α} : b ∈ insertList a xs ↔ b = a ∨ b ∈ xs := by
  induction xs with
  | nil => simp [insertList]
  | cons x xs ih =>
    simp only [insertList]
    split
    · simp
    · split
      · subst a; simp
      · simp only [List.mem_cons, ih]
        constructor
        · rintro (h | h | h) <;> simp [h]
        · rintro (h | h | h) <;> simp [h]

theorem ascending_insertList (a : α) {xs : List α} (h : xs.Pairwise (· < ·)) :
    (insertList a xs).Pairwise (· < ·) := by
  induction xs with
  | nil => exact List.pairwise_singleton _ a
  | cons x xs ih =>
    rw [List.pairwise_cons] at h
    simp only [insertList]
    split
    · next hax =>
      refine List.pairwise_cons.mpr ⟨?_, List.pairwise_cons.mpr h⟩
      intro b hb
      rcases List.mem_cons.mp hb with rfl | hb
      · exact hax
      · exact Ordered.lt_trans hax (h.1 b hb)
    · split
      · exact List.pairwise_cons.mpr h
      · next hlt hne =>
        refine List.pairwise_cons.mpr ⟨?_, ih h.2⟩
        intro b hb
        rcases mem_insertList.mp hb with rfl | hb
        · rcases Ordered.lt_trichotomy b x with h' | h' | h'
          · exact absurd h' hlt
          · exact absurd h' hne
          · exact h'
        · exact h.1 b hb

def insert (a : α) (s : OrderedSet α) : OrderedSet α :=
  ⟨insertList a s.toList, ascending_insertList a s.ascending⟩

@[simp] theorem mem_insert {a b : α} {s : OrderedSet α} : b ∈ insert a s ↔ b = a ∨ b ∈ s :=
  mem_insertList

def union (s t : OrderedSet α) : OrderedSet α :=
  s.toList.foldr insert t

@[simp] theorem mem_union {a : α} {s t : OrderedSet α} : a ∈ union s t ↔ a ∈ s ∨ a ∈ t := by
  have folded : ∀ xs : List α, a ∈ xs.foldr insert t ↔ a ∈ xs ∨ a ∈ t := by
    intro xs
    induction xs with
    | nil => simp
    | cons x xs ih => simp [ih, or_assoc]
  exact folded s.toList

def ofList (xs : List α) : OrderedSet α :=
  xs.foldr insert empty

@[simp] theorem mem_ofList {a : α} {xs : List α} : a ∈ ofList xs ↔ a ∈ xs := by
  induction xs with
  | nil => simp [ofList]
  | cons x xs ih =>
    show a ∈ insert x (ofList xs) ↔ _
    simp [ih]

@[simp] theorem ofList_toList (s : OrderedSet α) : ofList s.toList = s :=
  ext fun _ => mem_ofList

def filter (p : α → Bool) (s : OrderedSet α) : OrderedSet α :=
  ⟨s.toList.filter p, s.ascending.filter p⟩

@[simp] theorem mem_filter {p : α → Bool} {a : α} {s : OrderedSet α} :
    a ∈ filter p s ↔ a ∈ s ∧ p a = true :=
  List.mem_filter

instance : SDiff (OrderedSet α) where
  sdiff s t := s.filter (· ∉ t)

@[simp] theorem mem_sdiff {a : α} {s t : OrderedSet α} : a ∈ s \ t ↔ a ∈ s ∧ a ∉ t := by
  show a ∈ s.filter _ ↔ _
  simp

-- Sets of sets are sorted too: by their lists.
instance : Ordered (OrderedSet α) where
  lt s t := s.toList < t.toList
  decEq := inferInstance
  decLt s t := inferInstanceAs (Decidable (s.toList < t.toList))
  lt_irrefl s := Ordered.lt_irrefl s.toList
  lt_trans h h' := Ordered.lt_trans h h'
  lt_trichotomy s t := by
    rcases Ordered.lt_trichotomy s.toList t.toList with h | h | h
    · exact .inl h
    · exact .inr (.inl (toList_injective h))
    · exact .inr (.inr h)

end OrderedSet

end LabelInference

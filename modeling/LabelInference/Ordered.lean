namespace LabelInference

universe u

class Ordered (α : Type u) extends LT α where
  decEq : DecidableEq α
  decLt : DecidableLT α
  lt_irrefl : ∀ a : α, ¬a < a
  lt_trans : ∀ {a b c : α}, a < b → b < c → a < c
  lt_trichotomy : ∀ a b : α, a < b ∨ a = b ∨ b < a

namespace Ordered

variable {α : Type u} [Ordered α]

instance : DecidableEq α := decEq

instance : DecidableLT α := decLt

theorem lt_asymm {a b : α} (h : a < b) : ¬b < a :=
  fun h' => lt_irrefl a (lt_trans h h')

theorem ne_of_lt {a b : α} (h : a < b) : a ≠ b := by
  rintro rfl
  exact lt_irrefl a h

instance : Ordered Int where
  decEq := inferInstance
  decLt := inferInstance
  lt_irrefl := Int.lt_irrefl
  lt_trans := Int.lt_trans
  lt_trichotomy := Int.lt_trichotomy

instance : Ordered String where
  decEq := inferInstance
  decLt := inferInstance
  lt_irrefl := String.lt_irrefl
  lt_trans := String.lt_trans
  lt_trichotomy a b := by
    rcases String.le_total a b with h | h
    · by_cases hlt : a < b
      · exact .inl hlt
      · exact .inr (.inl (String.le_antisymm h (String.not_lt.mp hlt)))
    · by_cases hlt : b < a
      · exact .inr (.inr hlt)
      · exact .inr (.inl (String.le_antisymm (String.not_lt.mp hlt) h))

instance : Ordered (List α) where
  decEq := inferInstance
  decLt := inferInstance
  lt_irrefl a := List.lex_irrefl lt_irrefl a
  lt_trans h h' := List.lex_trans lt_trans h h'
  lt_trichotomy a b := by
    induction a generalizing b with
    | nil =>
      cases b with
      | nil => exact .inr (.inl rfl)
      | cons => exact .inl (List.nil_lt_cons _ _)
    | cons x xs ih =>
      cases b with
      | nil => exact .inr (.inr (List.nil_lt_cons _ _))
      | cons y ys =>
        rcases lt_trichotomy x y with h | rfl | h
        · exact .inl (List.cons_lt_cons_iff.mpr (.inl h))
        · rcases ih ys with h | rfl | h
          · exact .inl (List.cons_lt_cons_iff.mpr (.inr ⟨rfl, h⟩))
          · exact .inr (.inl rfl)
          · exact .inr (.inr (List.cons_lt_cons_iff.mpr (.inr ⟨rfl, h⟩)))
        · exact .inr (.inr (List.cons_lt_cons_iff.mpr (.inl h)))

end Ordered

end LabelInference

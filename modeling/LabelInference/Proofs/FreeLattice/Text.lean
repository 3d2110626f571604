import LabelInference.FreeLattice.Text
import LabelInference.Proofs.FreeLattice.Reading

namespace LabelInference.FreeLattice

universe u

-- The operands that a text shows, without the characters next to them.
def operandsOf (sign : Char) (text : String) : List String :=
  if sign ∈ text.toList then
    ((text.toList.splitOn sign).map fun piece => piece.tail.dropLast).map String.ofList
  else [text]

section Operator

variable {sign : Char}

theorem splitOn_operands {opening closing : Char} (hopening : sign ≠ opening) (hblank : sign ≠ ' ')
    (hclosing : sign ≠ closing) {xs : List (List Char)} (hne : xs ≠ []) (hxs : ∀ x ∈ xs, sign ∉ x) :
    ((opening :: [' ', sign, ' '].intercalate xs ++ [closing]).splitOn sign).map
      (fun piece => piece.tail.dropLast) = xs := by
  induction xs generalizing opening with
  | nil => exact absurd rfl hne
  | cons x xs ih =>
    rw [List.forall_mem_cons] at hxs
    cases xs with
    | nil =>
      have hpiece : sign ∉ opening :: x ++ [closing] := by simp [hopening, hclosing, hxs.1]
      rw [List.intercalate_singleton, List.splitOn_eq_singleton hpiece]
      simp
    | cons y ys =>
      have hpiece : sign ∉ opening :: x ++ [' '] := by simp [hopening, hblank, hxs.1]
      have hsplit : opening :: [' ', sign, ' '].intercalate (x :: y :: ys) ++ [closing] =
          (opening :: x ++ [' ']) ++
            sign :: (' ' :: [' ', sign, ' '].intercalate (y :: ys) ++ [closing]) := by
        rw [List.intercalate_cons_cons]
        simp
      rw [hsplit, List.splitOn_append_cons_self_of_not_mem hpiece, List.map_cons,
        ih hblank (List.cons_ne_nil y ys) hxs.2]
      simp

theorem not_mem_sorted {c : Char} {operands : List String} (h : ∀ x ∈ operands, c ∉ x.toList) :
    ∀ x ∈ operands.mergeSort.map String.toList, c ∉ x := by
  rw [List.forall_mem_map]
  exact fun x hx => h x (List.mem_mergeSort.mp hx)

-- The sign shows exactly if there is more than one operand.
theorem operandsOf_operatorText {operator : String} (hoperator : operator.toList = [' ', sign, ' '])
    (hopening : sign ≠ '(') (hblank : sign ≠ ' ') (hclosing : sign ≠ ')') {operands : List String}
    (hne : operands ≠ []) (h : ∀ x ∈ operands, sign ∉ x.toList) :
    operandsOf sign (operatorText operator operands) = operands.mergeSort := by
  have hperm : operands.mergeSort.Perm operands := List.mergeSort_perm operands _
  have hsorted := not_mem_sorted h
  unfold operatorText
  generalize operands.mergeSort = sorted at hperm hsorted ⊢
  match sorted with
  | [] => exact absurd hperm.symm.eq_nil hne
  | [x] => exact if_neg (hsorted _ (List.mem_singleton_self x.toList))
  | x :: y :: rest =>
    let operandLists := (x :: y :: rest).map String.toList
    have hlist : ("(" ++ operator.intercalate (x :: y :: rest) ++ ")").toList =
        '(' :: [' ', sign, ' '].intercalate operandLists ++ [')'] := by
      simp only [String.toList_append, String.toList_intercalate, hoperator]
      rfl
    have hmem : sign ∈ '(' :: [' ', sign, ' '].intercalate operandLists ++ [')'] := by
      simp [operandLists, List.intercalate_cons_cons]
    have hne : operandLists ≠ [] := List.cons_ne_nil _ _
    dsimp only
    rw [operandsOf, hlist, if_pos hmem, splitOn_operands hopening hblank hclosing hne hsorted]
    simp [operandLists, Function.comp_def]

theorem not_mem_intercalate {c : Char} {operator : List Char} (hoperator : c ∉ operator)
    {xs : List (List Char)} (hxs : ∀ x ∈ xs, c ∉ x) : c ∉ operator.intercalate xs := by
  induction xs with
  | nil => simp
  | cons x xs ih =>
    rw [List.forall_mem_cons] at hxs
    cases xs with
    | nil => simpa using hxs.1
    | cons y ys =>
      rw [List.intercalate_cons_cons]
      simp [hxs.1, hoperator, ih hxs.2]

-- A text shows nothing but the operands, the operator and parentheses.
theorem not_mem_operatorText {c : Char} {operator : String} (hoperator : c ∉ operator.toList)
    (hopening : c ≠ '(') (hclosing : c ≠ ')') {operands : List String}
    (h : ∀ x ∈ operands, c ∉ x.toList) : c ∉ (operatorText operator operands).toList := by
  have hsorted := not_mem_sorted h
  unfold operatorText
  generalize operands.mergeSort = sorted at hsorted ⊢
  split
  · exact hsorted _ (List.mem_singleton_self _)
  · simp [hopening, hclosing, String.toList_intercalate, not_mem_intercalate hoperator hsorted]

end Operator

-- A text that can stand for an atom within the text of an element.
structure IsPlain (text : String) : Prop where
  no_meet : '∧' ∉ text.toList
  no_join : '∨' ∉ text.toList
  ne_top : text ≠ "⊤"
  ne_bottom : text ≠ "⊥"

-- The texts of the atoms that an element's text shows, by meet.
def atomTexts (text : String) : List (List String) :=
  (operandsOf '∨' text).map (operandsOf '∧')

section Bounds

variable {α : Type u} [Ordered α] {a : FreeLattice α}

-- Neither the greatest nor the least element, which have texts of their own.
structure IsProper (a : FreeLattice α) : Prop where
  not_top : a.isTop = false
  not_bottom : a.isBottom = false

theorem eq_top_of_isTop (h : a.isTop = true) : a = top := by
  have hempty : OrderedSet.empty ∈ a.meets := of_decide_eq_true h
  refine meets_injective (OrderedSet.ext fun m => ?_)
  rw [top, OrderedSet.mem_singleton]
  constructor
  · intro hm
    exact (a.irredundant m hm .empty hempty fun x hx => absurd hx (OrderedSet.not_mem_empty x)).symm
  · rintro rfl
    exact hempty

theorem eq_bottom_of_isBottom (h : a.isBottom = true) : a = bottom :=
  meets_injective (OrderedSet.toList_injective (List.isEmpty_iff.mp h))

theorem eq_top_or_eq_bottom_or_isProper (a : FreeLattice α) : a = top ∨ a = bottom ∨ a.IsProper := by
  cases htop : a.isTop with
  | true => exact .inl (eq_top_of_isTop htop)
  | false =>
    cases hbottom : a.isBottom with
    | true => exact .inr (.inl (eq_bottom_of_isBottom hbottom))
    | false => exact .inr (.inr ⟨htop, hbottom⟩)

end Bounds

variable {α : Type u} [Ordered α] [ToString α] {a b : FreeLattice α}

theorem text_top : (top : FreeLattice α).text = "⊤" := if_pos rfl

theorem text_bottom : (bottom : FreeLattice α).text = "⊥" := rfl

def HasPlainAtoms (a : FreeLattice α) : Prop :=
  ∀ m ∈ a.meets, ∀ x ∈ m, IsPlain (toString x)

theorem operandsOf_meetText {m : OrderedSet α} (hne : m ≠ .empty)
    (h : ∀ x ∈ m, IsPlain (toString x)) :
    operandsOf '∧' (meetText m) = (m.toList.map toString).mergeSort := by
  refine operandsOf_operatorText rfl (by decide) (by decide) (by decide) ?_ ?_
  · intro hnil
    exact hne (OrderedSet.toList_injective (List.map_eq_nil_iff.mp hnil))
  · rw [List.forall_mem_map]
    exact fun x hx => (h x hx).no_meet

theorem no_join_meetText {m : OrderedSet α} (h : ∀ x ∈ m, IsPlain (toString x)) :
    '∨' ∉ (meetText m).toList := by
  refine not_mem_operatorText (by decide) (by decide) (by decide) ?_
  rw [List.forall_mem_map]
  exact fun x hx => (h x hx).no_join

theorem operandsOf_text (hp : a.IsProper) (h : a.HasPlainAtoms) :
    operandsOf '∨' a.text = (a.meets.toList.map meetText).mergeSort := by
  simp only [text, hp.not_top, hp.not_bottom, Bool.false_eq_true, if_false]
  refine operandsOf_operatorText rfl (by decide) (by decide) (by decide) ?_ ?_
  · intro hnil
    have hbottom := hp.not_bottom
    simp [isBottom, List.map_eq_nil_iff.mp hnil] at hbottom
  · rw [List.forall_mem_map]
    exact fun m hm => no_join_meetText (h m hm)

-- The atoms of each meet can be read off the text.
theorem mem_atomTexts_iff (hp : a.IsProper) (h : a.HasPlainAtoms) {ts : List String} :
    ts ∈ atomTexts a.text ↔ ∃ m ∈ a.meets, (m.toList.map toString).mergeSort = ts := by
  have hread : ∀ m ∈ a.meets, operandsOf '∧' (meetText m) = (m.toList.map toString).mergeSort := by
    intro m hm
    refine operandsOf_meetText ?_ (h m hm)
    rintro rfl
    have htop := hp.not_top
    simp [isTop, hm] at htop
  rw [atomTexts, operandsOf_text hp h]
  simp only [List.mem_map, List.mem_mergeSort, exists_exists_and_eq_and, OrderedSet.mem_toList]
  exact exists_congr fun m => and_congr_right fun hm => by rw [hread m hm]

-- A text without signs is that of an atom, unless it stands for one of the bounds.
theorem IsProper.text_ne (hp : a.IsProper) (h : a.HasPlainAtoms) {t : String}
    (hmeet : '∧' ∉ t.toList) (hjoin : '∨' ∉ t.toList) (hne : ∀ u, IsPlain u → u ≠ t) :
    a.text ≠ t := by
  intro ht
  have hmem : [t] ∈ atomTexts a.text := by
    simp [ht, atomTexts, operandsOf, hmeet, hjoin]
  obtain ⟨m, hm, hsorted⟩ := (mem_atomTexts_iff hp h).mp hmem
  have htext : t ∈ m.toList.map toString := by
    rw [← List.mem_mergeSort, hsorted]
    exact List.mem_singleton_self t
  obtain ⟨x, hx, hxt⟩ := List.mem_map.mp htext
  exact hne (toString x) (h m hm x hx) hxt

theorem text_eq_top_iff (h : a.HasPlainAtoms) : a.text = "⊤" ↔ a = top := by
  constructor
  · intro ht
    rcases a.eq_top_or_eq_bottom_or_isProper with rfl | rfl | hp
    · rfl
    · rw [text_bottom] at ht
      simp at ht
    · exact absurd ht (hp.text_ne h (by decide) (by decide) fun _ hu => hu.ne_top)
  · rintro rfl
    exact text_top

theorem text_eq_bottom_iff (h : a.HasPlainAtoms) : a.text = "⊥" ↔ a = bottom := by
  constructor
  · intro ht
    rcases a.eq_top_or_eq_bottom_or_isProper with rfl | rfl | hp
    · rw [text_top] at ht
      simp at ht
    · rfl
    · exact absurd ht (hp.text_ne h (by decide) (by decide) fun _ hu => hu.ne_bottom)
  · rintro rfl
    exact text_bottom

theorem mem_meets_of_text_eq (hinj : Function.Injective (toString : α → String)) (hpa : a.IsProper)
    (hpb : b.IsProper) (ha : a.HasPlainAtoms) (hb : b.HasPlainAtoms) (h : a.text = b.text)
    {m : OrderedSet α} (hm : m ∈ a.meets) : m ∈ b.meets := by
  have hmem := (mem_atomTexts_iff hpa ha).mpr ⟨m, hm, rfl⟩
  rw [h] at hmem
  obtain ⟨n, hn, hsorted⟩ := (mem_atomTexts_iff hpb hb).mp hmem
  have hnm : n = m := by
    refine OrderedSet.ext fun x => ?_
    rw [← OrderedSet.mem_toList, ← List.mem_map_of_injective hinj, ← List.mem_mergeSort, hsorted,
      List.mem_mergeSort, List.mem_map_of_injective hinj, OrderedSet.mem_toList]
  rwa [← hnm]

-- Only the atoms of the two elements have to be written plainly, not all atoms that there are.
theorem eq_of_text_eq (hinj : Function.Injective (toString : α → String)) (ha : a.HasPlainAtoms)
    (hb : b.HasPlainAtoms) (h : a.text = b.text) : a = b := by
  rcases a.eq_top_or_eq_bottom_or_isProper with rfl | rfl | hpa
  · exact ((text_eq_top_iff hb).mp (h.symm.trans text_top)).symm
  · exact ((text_eq_bottom_iff hb).mp (h.symm.trans text_bottom)).symm
  rcases b.eq_top_or_eq_bottom_or_isProper with rfl | rfl | hpb
  · exact (text_eq_top_iff ha).mp (h.trans text_top)
  · exact (text_eq_bottom_iff ha).mp (h.trans text_bottom)
  exact meets_injective <| OrderedSet.ext fun _ =>
    ⟨mem_meets_of_text_eq hinj hpa hpb ha hb h, mem_meets_of_text_eq hinj hpb hpa hb ha h.symm⟩

-- Atoms that are written plainly, each in its own way.
structure PrintsPlainly (α : Type u) [ToString α] : Prop where
  injective : Function.Injective (toString : α → String)
  plain : ∀ x : α, IsPlain (toString x)

theorem text_injective_of_printsPlainly (h : PrintsPlainly α) :
    Function.Injective (text : FreeLattice α → String) :=
  fun _ _ => eq_of_text_eq h.injective (fun _ _ x _ => h.plain x) (fun _ _ x _ => h.plain x)

-- A number is written with digits, after a minus sign if it is negative.
theorem toList_toString_int (i : Int) : (toString i).toList =
    if 0 ≤ i then Nat.toDigits 10 i.toNat else '-' :: Nat.toDigits 10 (-i).toNat := by
  rw [Int.toString_eq_repr, Int.repr_eq_if]
  split <;> simp

theorem not_mem_toDigits {c : Char} (hdigit : c.isDigit = false) (n : Nat) :
    c ∉ Nat.toDigits 10 n := by
  intro hc
  have hc := Nat.isDigit_of_mem_toDigits (by decide) (by decide) hc
  simp [hdigit] at hc

theorem not_mem_toString_int {c : Char} (hdigit : c.isDigit = false) (hminus : c ≠ '-') (i : Int) :
    c ∉ (toString i).toList := by
  rw [toList_toString_int]
  split <;> simp [hminus, not_mem_toDigits hdigit]

theorem toDigits_injective : Function.Injective (Nat.toDigits 10) := by
  intro m n h
  have hread := congrArg (fun digits => Nat.ofDigitChars 10 digits 0) h
  simpa [Nat.ofDigitChars_toDigits] using hread

theorem toString_int_injective : Function.Injective (toString : Int → String) := by
  intro i j h
  have hdigits := congrArg String.toList h
  rw [toList_toString_int, toList_toString_int] at hdigits
  have hminus : ∀ n, '-' ∉ Nat.toDigits 10 n := not_mem_toDigits rfl
  by_cases hi : 0 ≤ i <;> by_cases hj : 0 ≤ j
  · rw [if_pos hi, if_pos hj] at hdigits
    have heq := toDigits_injective hdigits
    omega
  · rw [if_pos hi, if_neg hj] at hdigits
    exact absurd (hdigits ▸ List.mem_cons_self) (hminus i.toNat)
  · rw [if_neg hi, if_pos hj] at hdigits
    exact absurd (hdigits ▸ List.mem_cons_self) (hminus j.toNat)
  · rw [if_neg hi, if_neg hj] at hdigits
    have heq := toDigits_injective (List.cons.inj hdigits).2
    omega

theorem printsPlainly_int : PrintsPlainly Int where
  injective := toString_int_injective
  plain i := by
    refine ⟨not_mem_toString_int rfl (by decide) i, not_mem_toString_int rfl (by decide) i, ?_, ?_⟩
    · intro h
      exact not_mem_toString_int (c := '⊤') rfl (by decide) i (by simp [h])
    · intro h
      exact not_mem_toString_int (c := '⊥') rfl (by decide) i (by simp [h])

-- Two elements with the same text are equal, for all atoms that print plainly and in particular for
-- numbers.
theorem text_determines_element :
    (∀ (α : Type u) [Ordered α] [ToString α], PrintsPlainly α →
        Function.Injective (text : FreeLattice α → String)) ∧
      Function.Injective (text : FreeLattice Int → String) :=
  ⟨fun _ _ _ => text_injective_of_printsPlainly, text_injective_of_printsPlainly printsPlainly_int⟩

-- The join of `-1` with a meet, and the meet of two joins, which is written as a join of meets.
theorem text_determines_element_distributed :
    let a (k : Int) : FreeLattice Int := .atom k
    let c := join (a (-1)) (meet (a 2) (a 3))
    let d := meet (join (a (-1)) (a 2)) (join (a (-1)) (a 3))
    let e := meet (join (a (-1)) (a 2)) (a 3)
    PrintsPlainly Int ∧ c = d ∧ c.text = d.text ∧ c.text ≠ e.text := by
  intro a c d e
  have hinj := text_determines_element.1 Int printsPlainly_int
  have heq : c = d := by decide
  have hne : c ≠ e := by decide
  exact ⟨printsPlainly_int, heq, congrArg text heq, hinj.ne hne⟩

end LabelInference.FreeLattice

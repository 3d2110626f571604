import LabelInference.Proofs.Dot.Reading

namespace LabelInference.Dot

-- Whatever follows them, the characters are read as these tokens.
def Scans (cs : List Char) (ts : List Token) : Prop :=
  ∀ rest, tokens (cs ++ rest) = (tokens rest).map (ts ++ ·)

section Scanning

variable {c : Char} {cs cs' : List Char} {ts ts' : List Token}

theorem tokens_cons (hquote : c ≠ '"') (hminus : c ≠ '-') (cs : List Char) :
    tokens (c :: cs) =
      if isBlank c then tokens cs
      else if isSign c then (tokens cs).map (.sign c :: ·)
      else if isWordChar c then (tokens cs).map (pushWordChar c (cs.head?.any isWordChar))
      else none := by
  rw [tokens]
  · exact hquote
  · exact fun _ h _ => hminus h

theorem Scans.append (h : Scans cs ts) (h' : Scans cs' ts') : Scans (cs ++ cs') (ts ++ ts') := by
  intro rest
  rw [List.append_assoc, h, h', Option.map_map]
  simp [Function.comp_def]

theorem scans_nil : Scans [] [] := by
  intro rest
  simp

theorem Scans.flatMap {β : Type} {text : β → List Char} {read : β → List Token} {bs : List β}
    (h : ∀ b ∈ bs, Scans (text b) (read b)) : Scans (bs.flatMap text) (bs.flatMap read) := by
  induction bs with
  | nil => exact scans_nil
  | cons b bs ih =>
    rw [List.forall_mem_cons] at h
    exact h.1.append (ih h.2)

-- Characters of different classes differ.
theorem ne_of_class {p : Char → Bool} {d : Char} (hc : p c = true) (hd : p d = false) : c ≠ d := by
  rintro rfl
  rw [hc] at hd
  cases hd

theorem scans_blank (h : isBlank c = true) : Scans [c] [] := by
  intro rest
  rw [List.singleton_append, tokens_cons (ne_of_class h rfl) (ne_of_class h rfl), if_pos h]
  simp

theorem scans_sign (h : isSign c = true) : Scans [c] [.sign c] := by
  have hblank : isBlank c = false := by
    have hne : ∀ d, isSign d = false → c ≠ d := fun _ => ne_of_class h
    simp [isBlank, hne ' ' rfl, hne '\n' rfl, hne '\t' rfl, hne '\r' rfl]
  intro rest
  rw [List.singleton_append, tokens_cons (ne_of_class h rfl) (ne_of_class h rfl), hblank,
    if_neg Bool.false_ne_true, if_pos h]
  rfl

theorem scans_arrow : Scans ['-', '>'] [.arrow] := by
  intro rest
  rw [List.cons_append, List.singleton_append, tokens]
  rfl

def IsWord (text : List Char) : Prop := text ≠ [] ∧ ∀ c ∈ text, isWordChar c = true

instance (text : List Char) : Decidable (IsWord text) :=
  decidable_of_iff (text.isEmpty = false ∧ text.all isWordChar = true) <| by
    rw [IsWord, ← List.isEmpty_eq_false_iff, List.all_eq_true]

theorem tokens_wordChar (h : isWordChar c = true) (rest : List Char) :
    tokens (c :: rest) = (tokens rest).map (pushWordChar c (rest.head?.any isWordChar)) := by
  have hne : ∀ d, isWordChar d = false → c ≠ d := fun _ => ne_of_class h
  have hblank : isBlank c = false := by
    simp [isBlank, hne ' ' rfl, hne '\n' rfl, hne '\t' rfl, hne '\r' rfl]
  have hsign : isSign c = false := by
    simp [isSign, hne '{' rfl, hne '}' rfl, hne '[' rfl, hne ']' rfl, hne '=' rfl, hne ',' rfl]
  rw [tokens_cons (hne '"' rfl) (hne '-' rfl), hblank, hsign, if_neg Bool.false_ne_true,
    if_neg Bool.false_ne_true, if_pos h]

-- A word goes on as long as there are characters for it.
theorem tokens_word {text rest : List Char} (h : IsWord text)
    (hrest : rest.head?.any isWordChar = false) :
    tokens (text ++ rest) = (tokens rest).map (.id (.word text) :: ·) := by
  obtain ⟨hne, hchars⟩ := h
  induction text with
  | nil => exact absurd rfl hne
  | cons c text ih =>
    rw [List.forall_mem_cons] at hchars
    rw [List.cons_append, tokens_wordChar hchars.1]
    cases text with
    | nil =>
      rw [List.nil_append, hrest]
      congr 1
      funext ts
      unfold pushWordChar
      split <;> rfl
    | cons d text =>
      have hadjacent : ((d :: text) ++ rest).head?.any isWordChar = true := hchars.2 d (by simp)
      rw [hadjacent, ih (List.cons_ne_nil d text) hchars.2, Option.map_map]
      rfl

theorem Scans.word {text : List Char} (h : IsWord text) (hc : isWordChar c = false)
    (hscans : Scans (c :: cs) ts) : Scans (text ++ c :: cs) (.id (.word text) :: ts) := by
  intro rest
  have hrest : (c :: cs ++ rest).head?.any isWordChar = false := hc
  rw [List.append_assoc, tokens_word h hrest, hscans, Option.map_map]
  rfl

end Scanning

section Quoting

-- Characters among which no quote stands without a backslash of its own, and no backslash without
-- something that it escapes.
inductive Unended : List Char → Prop
  | nil : Unended []
  | plain {c : Char} {cs : List Char} (hquote : c ≠ '"') (hbackslash : c ≠ '\\') (h : Unended cs) :
      Unended (c :: cs)
  | escaped (c : Char) {cs : List Char} (h : Unended cs) : Unended ('\\' :: c :: cs)

theorem Unended.append {cs cs' : List Char} (h : Unended cs) (h' : Unended cs') :
    Unended (cs ++ cs') := by
  induction h with
  | nil => exact h'
  | plain hquote hbackslash _ ih => exact .plain hquote hbackslash ih
  | escaped c _ ih => exact .escaped c ih

theorem quotedTokens_append {raw : List Char} (h : Unended raw) (cs : List Char) :
    quotedTokens (raw ++ '"' :: cs) = (tokens cs).map fun ts => (raw, ts) := by
  induction h with
  | nil => rw [List.nil_append, quotedTokens]
  | plain hquote hbackslash _ ih =>
    rw [List.cons_append, quotedTokens, ih, Option.map_map]
    · rfl
    · exact hquote
    · exact fun _ _ h _ => hbackslash h
  | escaped c _ ih =>
    rw [List.cons_append, List.cons_append, quotedTokens, ih, Option.map_map]
    rfl

theorem Unended.scans {raw : List Char} (h : Unended raw) :
    Scans ('"' :: raw ++ ['"']) [.id (.quoted raw)] := by
  intro rest
  rw [List.cons_append, List.cons_append, List.append_assoc, List.singleton_append, tokens,
    quotedTokens_append h, Option.map_map]
  rfl

-- Both replacements in one pass, since neither finds what the other one puts in.
def escapeList (line : List Char) : List Char :=
  line.flatMap fun c => if c = '\\' ∨ c = '"' then ['\\', c] else [c]

theorem escapeEach_escapeEach (line : List Char) :
    escapeEach '"' (escapeEach '\\' line) = escapeList line := by
  unfold escapeEach escapeList
  rw [List.flatMap_assoc]
  congr 1
  funext c
  by_cases hbackslash : c = '\\'
  · subst hbackslash
    rfl
  · by_cases hquote : c = '"' <;> simp [hbackslash, hquote]

theorem unended_escapeList (line : List Char) : Unended (escapeList line) := by
  induction line with
  | nil => exact .nil
  | cons c line ih =>
    rw [escapeList, List.flatMap_cons]
    by_cases h : c = '\\' ∨ c = '"'
    · rw [if_pos h]
      exact .escaped c ih
    · rw [if_neg h]
      rw [not_or] at h
      exact .plain h.2 h.1 ih

-- The lines of a label between the quotes.
def rawLabel (label : List (List Char)) : List Char :=
  ['\\', 'n'].intercalate (label.map escapeList)

theorem rawLabel_singleton (line : List Char) : rawLabel [line] = escapeList line := by
  rw [rawLabel, List.map_singleton, List.intercalate_singleton]

theorem rawLabel_cons_cons (line line' : List Char) (label : List (List Char)) :
    rawLabel (line :: line' :: label) = escapeList line ++ '\\' :: 'n' :: rawLabel (line' :: label) := by
  unfold rawLabel
  rw [List.map_cons, List.map_cons, List.intercalate_cons_cons, List.append_assoc]
  rfl

theorem unended_rawLabel (label : List (List Char)) : Unended (rawLabel label) := by
  induction label with
  | nil => exact .nil
  | cons line label ih =>
    cases label with
    | nil =>
      rw [rawLabel_singleton]
      exact unended_escapeList line
    | cons line' label =>
      rw [rawLabel_cons_cons]
      exact (unended_escapeList line).append (.escaped 'n' ih)

-- Characters in front of the first line.
def pushLine (line : List Char) (lines : List (List Char)) : List (List Char) :=
  line.foldr pushChar lines

theorem pushLine_cons (line line' : List Char) (lines : List (List Char)) :
    pushLine line (line' :: lines) = (line ++ line') :: lines := by
  unfold pushLine
  induction line with
  | nil => rfl
  | cons c line ih =>
    rw [List.foldr_cons, ih]
    rfl

theorem lines?_escapeList (line rest : List Char) :
    lines? (escapeList line ++ rest) = (lines? rest).map (pushLine line) := by
  induction line with
  | nil =>
    have hid : pushLine [] = id := rfl
    rw [hid, Option.map_id]
    rfl
  | cons c line ih =>
    have hpush : lines? (escapeList (c :: line) ++ rest) =
        (lines? (escapeList line ++ rest)).map (pushChar c) := by
      rw [escapeList, List.flatMap_cons]
      by_cases h : c = '\\' ∨ c = '"'
      · rw [if_pos h]
        rcases h with rfl | rfl
        · rfl
        · rfl
      · rw [if_neg h, List.singleton_append, List.cons_append, lines?, if_neg h]
        · rfl
        all_goals
          rintro _ rfl
          exact absurd (.inl rfl) h
    rw [hpush, ih, Option.map_map]
    rfl

-- Of the escapes in a label only those between its lines are line breaks.
theorem lines?_rawLabel {label : List (List Char)} (h : label ≠ []) :
    lines? (rawLabel label) = some label := by
  induction label with
  | nil => exact absurd rfl h
  | cons line label ih =>
    cases label with
    | nil =>
      have hline := lines?_escapeList line []
      rw [List.append_nil, lines?] at hline
      rw [rawLabel_singleton, hline, Option.map_some, pushLine_cons, List.append_nil]
    | cons line' label =>
      rw [rawLabel_cons_cons, lines?_escapeList, lines?, ih (List.cons_ne_nil line' label),
        Option.map_some, Option.map_some, pushLine_cons, List.append_nil]

end Quoting

section Writing

-- A word, or a string that ends where it is closed.
def Id.IsWritten : Id → Prop
  | .word text => IsWord text
  | .quoted raw => Unended raw

def Id.text : Id → List Char
  | .word text => text
  | .quoted raw => '"' :: raw ++ ['"']

def attributeText (a : List Char × Id) : List Char :=
  a.1 ++ [' ', '=', ' '] ++ a.2.text

def attributesText (attributes : List (List Char × Id)) : List Char :=
  [',', ' '].intercalate (attributes.map attributeText) ++ [' ', ']', '\n']

def attributesTokens : List (List Char × Id) → List Token
  | [] => [.sign ']']
  | [(key, value)] => [.id (.word key), .sign '=', .id value, .sign ']']
  | (key, value) :: attributes =>
    .id (.word key) :: .sign '=' :: .id value :: .sign ',' :: attributesTokens attributes

variable {key : List Char} {value : Id} {attributes : List (List Char × Id)}
  {cs : List Char} {ts : List Token}

theorem Scans.blank (hscans : Scans cs ts) : Scans (' ' :: cs) ts :=
  (scans_blank rfl).append hscans

theorem Scans.id (hvalue : value.IsWritten) {c : Char} (hc : isWordChar c = false)
    (hscans : Scans (c :: cs) ts) : Scans (value.text ++ c :: cs) (.id value :: ts) := by
  cases value with
  | word text => exact .word hvalue hc hscans
  | quoted raw => exact hvalue.scans.append hscans

theorem Scans.attribute (hkey : IsWord key) (hvalue : value.IsWritten) {c : Char}
    (hc : isWordChar c = false) (hscans : Scans (c :: cs) ts) :
    Scans (attributeText (key, value) ++ c :: cs) (.id (.word key) :: .sign '=' :: .id value :: ts) := by
  have hsign : Scans ([' ', '=', ' '] ++ (value.text ++ c :: cs)) (.sign '=' :: .id value :: ts) :=
    .blank ((scans_sign rfl).append (.blank (.id hvalue hc hscans)))
  unfold attributeText
  rw [List.append_assoc, List.append_assoc]
  exact .word hkey rfl hsign

theorem scans_attributesText (hne : attributes ≠ [])
    (h : ∀ a ∈ attributes, IsWord a.1 ∧ a.2.IsWritten) :
    Scans (attributesText attributes) (attributesTokens attributes) := by
  induction attributes with
  | nil => exact absurd rfl hne
  | cons a attributes ih =>
    rw [List.forall_mem_cons] at h
    obtain ⟨⟨hkey, hvalue⟩, hrest⟩ := h
    unfold attributesText
    cases attributes with
    | nil =>
      have hend : Scans [' ', ']', '\n'] [.sign ']'] :=
        .blank ((scans_sign rfl).append (scans_blank rfl))
      rw [List.map_singleton, List.intercalate_singleton]
      exact .attribute hkey hvalue rfl hend
    | cons b attributes =>
      rw [List.map_cons, List.map_cons, List.intercalate_cons_cons, List.append_assoc,
        List.append_assoc]
      have hnext := (scans_sign (c := ',') rfl).append (ih (List.cons_ne_nil b attributes) hrest).blank
      exact .attribute hkey hvalue rfl hnext

theorem isWord_toDigits (n : Nat) : IsWord (Nat.toDigits 10 n) := by
  refine ⟨Nat.toDigits_ne_nil, fun c hc => ?_⟩
  have hdigit : c.isDigit = true := Nat.isDigit_of_mem_toDigits (by decide) (by decide) hc
  simp [isWordChar, Char.isAlphanum, hdigit]

theorem number?_toDigits (n : Nat) : number? (Nat.toDigits 10 n) = some n := by
  have hdigits : ∀ c ∈ Nat.toDigits 10 n, c.isDigit = true := fun c hc =>
    Nat.isDigit_of_mem_toDigits (by decide) (by decide) hc
  rw [number?, if_pos ⟨Nat.toDigits_ne_nil, List.all_eq_true.mpr hdigits⟩,
    Nat.ofDigitChars_toDigits (by decide) (by decide)]

def Subject.tokens : Subject → List Token
  | .node i => [.id (.word (Nat.toDigits 10 i))]
  | .arrow i j => [.id (.word (Nat.toDigits 10 i)), .arrow, .id (.word (Nat.toDigits 10 j))]

theorem Scans.subject (subject : Subject) {c : Char} (hc : isWordChar c = false)
    (hscans : Scans (c :: cs) ts) :
    Scans (subject.text.toList ++ c :: cs) (subject.tokens ++ ts) := by
  cases subject with
  | node i =>
    rw [Subject.text, Nat.toString_eq_repr, Nat.toList_repr]
    exact .word (isWord_toDigits i) hc hscans
  | arrow i j =>
    have harrow : Scans (" -> ".toList ++ (Nat.toDigits 10 j ++ c :: cs))
        (.arrow :: .id (.word (Nat.toDigits 10 j)) :: ts) :=
      .blank (scans_arrow.append (.blank (.word (isWord_toDigits j) hc hscans)))
    rw [Subject.text, String.toList_append, String.toList_append, Nat.toString_eq_repr,
      Nat.toString_eq_repr, Nat.toList_repr, Nat.toList_repr, List.append_assoc, List.append_assoc]
    exact .word (isWord_toDigits i) rfl harrow

def Item.tokens (item : Item) : List Token :=
  item.subject.tokens ++ .sign '[' :: attributesTokens item.attributes

theorem attributesThenItems_append (hne : attributes ≠ []) (ts : List Token) :
    attributesThenItems (attributesTokens attributes ++ ts) =
      (items ts).map fun rest => (attributes, rest) := by
  induction attributes with
  | nil => exact absurd rfl hne
  | cons a attributes ih =>
    cases attributes with
    | nil => simp [attributesTokens, attributesThenItems]
    | cons b attributes =>
      rw [attributesTokens]
      · simp [attributesThenItems, ih, Function.comp_def]
      · exact List.cons_ne_nil b attributes

theorem items_append (item : Item) (hne : item.attributes ≠ []) (ts : List Token) :
    items (item.tokens ++ ts) = (items ts).map (item :: ·) := by
  obtain ⟨subject, attributes⟩ := item
  have hrest := attributesThenItems_append hne ts
  cases subject with
  | node i =>
    cases hts : items ts <;> simp [Item.tokens, Subject.tokens, items, number?_toDigits, hrest, hts]
  | arrow i j =>
    cases hts : items ts <;> simp [Item.tokens, Subject.tokens, items, number?_toDigits, hrest, hts]

theorem items_flatMap (is : List Item) (h : ∀ item ∈ is, item.attributes ≠ []) :
    items (is.flatMap Item.tokens ++ [.sign '}']) = some is := by
  induction is with
  | nil => rw [List.flatMap_nil, List.nil_append, items]
  | cons item is ih =>
    rw [List.forall_mem_cons] at h
    rw [List.flatMap_cons, List.append_assoc, items_append item h.1, ih h.2]
    rfl

end Writing

section Statements

-- What a label shows has at least one line, and the other attributes are words.
structure Statement.IsReadable (s : Statement) : Prop where
  label : s.label ≠ []
  style : ∀ entry ∈ s.style, IsWord entry.1.toList ∧ IsWord entry.2.toList

def Statement.item (s : Statement) : Item where
  subject := s.subject
  attributes := ("label".toList, .quoted (rawLabel (s.label.map String.toList))) ::
    s.style.map fun (key, value) => (key.toList, .word value.toList)

theorem toList_escape (line : String) : (escape line).toList = escapeList line.toList := by
  rw [escape, String.toList_ofList, escapeEach_escapeEach]

theorem map_toList_attributes (s : Statement) :
    s.attributes.map String.toList = s.item.attributes.map attributeText := by
  have hraw : ("\\n".intercalate (s.label.map escape)).toList =
      rawLabel (s.label.map String.toList) := by
    simp [rawLabel, String.toList_intercalate, toList_escape, Function.comp_def]
  simp [Statement.attributes, Statement.item, attributeText, Id.text, hraw]

theorem toList_text (s : Statement) : s.text.toList =
    "    ".toList ++ (s.subject.text.toList ++ " [ ".toList ++ attributesText s.item.attributes) := by
  simp [Statement.text, attributesText, ← map_toList_attributes, String.toList_intercalate]

variable {s : Statement}

theorem Statement.IsReadable.scans (h : s.IsReadable) : Scans s.text.toList s.item.tokens := by
  have hlabel : IsWord "label".toList := by decide
  have hattributes : ∀ a ∈ s.item.attributes, IsWord a.1 ∧ a.2.IsWritten := by
    refine List.forall_mem_cons.mpr ⟨⟨hlabel, unended_rawLabel _⟩, ?_⟩
    rw [List.forall_mem_map]
    exact h.style
  have hopen : Scans (" [ ".toList ++ attributesText s.item.attributes)
      (.sign '[' :: attributesTokens s.item.attributes) :=
    .blank ((scans_sign rfl).append (.blank (scans_attributesText (List.cons_ne_nil _ _) hattributes)))
  rw [toList_text, List.append_assoc]
  exact .blank (.blank (.blank (.blank (.subject s.subject rfl hopen))))

theorem mapM_map_eq_some {α β : Type} {f : α → β} {g : β → Option α} {as : List α}
    (h : ∀ a ∈ as, g (f a) = some a) : (as.map f).mapM g = some as := by
  induction as with
  | nil => rfl
  | cons a as ih =>
    rw [List.forall_mem_cons] at h
    simp [List.mapM_cons, h.1, ih h.2]

theorem Statement.IsReadable.statement?_item (h : s.IsReadable) : s.item.statement? = some s := by
  have hlines := lines?_rawLabel (mt (List.map_eq_nil_iff (f := String.toList)).mp h.label)
  have hstyle : (s.style.map fun (key, value) => (key.toList, Id.word value.toList)).mapM
      stylePair? = some s.style :=
    mapM_map_eq_some fun entry _ => by simp [stylePair?]
  simp [Item.statement?, Statement.item, hlines, hstyle]

-- Statements are read back from their drawing one by one, whatever their labels say.
theorem read_drawing {statements : List Statement} (h : ∀ s ∈ statements, s.IsReadable) :
    read (drawing statements) = some statements := by
  have hword : IsWord "digraph".toList := by decide
  have hhead : Scans "digraph \x7b\n".toList [.id (.word "digraph".toList), .sign '{'] :=
    .word hword rfl (.blank ((scans_sign rfl).append (scans_blank rfl)))
  have hbody : Scans (statements.flatMap fun s => s.text.toList)
      (statements.flatMap fun s => s.item.tokens) :=
    .flatMap fun s hs => (h s hs).scans
  have hend : Scans "\x7d\n".toList [.sign '}'] := (scans_sign rfl).append (scans_blank rfl)
  have htokens : tokens (drawing statements).toList =
      some (.id (.word "digraph".toList) :: .sign '{' ::
        ((statements.map Statement.item).flatMap Item.tokens ++ [.sign '}'])) := by
    have hscans := ((hhead.append hbody).append hend) []
    rw [List.append_nil] at hscans
    rw [drawing, String.toList_append, String.toList_append, String.toList_join, List.flatMap_map,
      List.flatMap_map]
    simpa [tokens] using hscans
  have hitems := items_flatMap (statements.map Statement.item)
    (List.forall_mem_map.mpr fun s _ => List.cons_ne_nil _ _)
  rw [read, htokens]
  simp only [bind, Option.bind, if_pos, hitems]
  exact mapM_map_eq_some fun s hs => (h s hs).statement?_item

end Statements

end LabelInference.Dot

import Mathlib.Data.List.Basic
import Mathlib.Data.List.Induction
import Mathlib.Data.List.Nodup

namespace LabelInference

universe u

variable {τ : Type u} [DecidableEq τ]

-- Where the list without repetitions grows: at its end, by a member that it does not have yet.
theorem eraseDups_concat (ts : List τ) (t : τ) :
    (ts ++ [t]).eraseDups = if t ∈ ts then ts.eraseDups else ts.eraseDups ++ [t] := by
  rw [List.eraseDups_append]
  by_cases h : t ∈ ts
  · simp [List.removeAll, h]
  · simp [List.removeAll, h, List.eraseDups_cons]

theorem nodup_eraseDups (ts : List τ) : ts.eraseDups.Nodup := by
  induction ts using List.reverseRecOn with
  | nil => simp
  | append_singleton ts t ih =>
    rw [eraseDups_concat]
    by_cases h : t ∈ ts
    · simpa [h] using ih
    · have hnew : t ∉ ts.eraseDups := fun ht => h (List.mem_eraseDups.mp ht)
      rw [if_neg h, ← List.concat_eq_append]
      exact ih.concat hnew

-- A member keeps its place, and a new one comes after all others.
theorem idxOf_eraseDups_concat {ts : List τ} {t a : τ} (ha : a ∈ ts) :
    (ts ++ [t]).eraseDups.idxOf a = ts.eraseDups.idxOf a := by
  rw [eraseDups_concat]
  split
  · rfl
  · exact List.idxOf_append_of_mem (List.mem_eraseDups.mpr ha)

theorem idxOf_eraseDups_concat_self {ts : List τ} {t : τ} (ht : t ∉ ts) :
    (ts ++ [t]).eraseDups.idxOf t = ts.eraseDups.length := by
  have hnew : t ∉ ts.eraseDups := fun h => ht (List.mem_eraseDups.mp h)
  rw [eraseDups_concat, if_neg ht, List.idxOf_append_of_notMem hnew]
  simp

theorem idxOf_eraseDups_lt_iff {ts : List τ} {a b : τ} (ha : a ∈ ts) (hb : b ∈ ts) :
    ts.eraseDups.idxOf a < ts.eraseDups.idxOf b ↔ ts.idxOf a < ts.idxOf b := by
  induction ts using List.reverseRecOn with
  | nil => cases ha
  | append_singleton ts t ih =>
    -- Whether they were there before decides where `a` and `b` stand in both lists.
    have hold : ∀ c ∈ ts, (ts ++ [t]).idxOf c = ts.idxOf c ∧ ts.idxOf c < ts.length ∧
        (ts ++ [t]).eraseDups.idxOf c = ts.eraseDups.idxOf c ∧
        ts.eraseDups.idxOf c < ts.eraseDups.length := by
      intro c hc
      refine ⟨List.idxOf_append_of_mem hc, List.idxOf_lt_length_of_mem hc,
        idxOf_eraseDups_concat hc, ?_⟩
      exact List.idxOf_lt_length_of_mem (List.mem_eraseDups.mpr hc)
    have hnew : ∀ c ∈ ts ++ [t], c ∉ ts → (ts ++ [t]).idxOf c = ts.length ∧
        (ts ++ [t]).eraseDups.idxOf c = ts.eraseDups.length := by
      intro c hc hnot
      obtain rfl : c = t := by simpa [hnot] using hc
      refine ⟨?_, idxOf_eraseDups_concat_self hnot⟩
      rw [List.idxOf_append_of_notMem hnot]
      simp
    by_cases hat : a ∈ ts
    · have := hold a hat
      by_cases hbt : b ∈ ts
      · have := hold b hbt
        have := ih hat hbt
        omega
      · have := hnew b hb hbt
        omega
    · have := hnew a ha hat
      by_cases hbt : b ∈ ts
      · have := hold b hbt
        omega
      · have := hnew b hb hbt
        omega

theorem idxOf?_eq_some_iff_idxOf {ts : List τ} {t : τ} {i : Nat} :
    ts.idxOf? t = some i ↔ t ∈ ts ∧ ts.idxOf t = i := by
  rw [← List.isSome_idxOf?, List.idxOf_eq_getD_idxOf?]
  cases ts.idxOf? t <;> simp

theorem idxOf?_concat {ts : List τ} {t : τ} (ht : t ∉ ts) (a : τ) :
    (ts ++ [t]).idxOf? a = if a = t then some ts.length else ts.idxOf? a := by
  by_cases h : a = t
  · subst h
    rw [if_pos rfl, idxOf?_eq_some_iff_idxOf, List.idxOf_append_of_notMem ht]
    simp
  · rw [if_neg h]
    refine Option.ext fun i => ?_
    rw [idxOf?_eq_some_iff_idxOf, idxOf?_eq_some_iff_idxOf]
    have hmem : a ∈ ts ++ [t] ↔ a ∈ ts := by simp [h]
    rw [hmem]
    refine and_congr_right fun ha => ?_
    rw [List.idxOf_append_of_mem ha]

-- The members of `mentions` have the numbers from zero on, in the order in which they are first
-- mentioned, and `members` lists them by their numbers.
structure IsNumbering (number? : τ → Option Nat) (mentions members : List τ) : Prop where
  numbered_iff : ∀ t, (∃ i, number? t = some i) ↔ t ∈ mentions
  used_iff : ∀ i, (∃ t, number? t = some i) ↔ i < members.length
  injective : ∀ t u i, number? t = some i → number? u = some i → t = u
  member : ∀ t i, number? t = some i → members[i]? = some t
  lt_iff : ∀ t u i j, number? t = some i → number? u = some j →
    (i < j ↔ mentions.idxOf t < mentions.idxOf u)

theorem isNumbering_eraseDups (ts : List τ) : IsNumbering ts.eraseDups.idxOf? ts ts.eraseDups where
  numbered_iff t := by
    rw [← Option.isSome_iff_exists, List.isSome_idxOf?, List.mem_eraseDups]
  used_iff i := by
    constructor
    · rintro ⟨t, ht⟩
      obtain ⟨hmem, rfl⟩ := idxOf?_eq_some_iff_idxOf.mp ht
      exact List.idxOf_lt_length_of_mem hmem
    · intro hi
      refine ⟨ts.eraseDups[i], idxOf?_eq_some_iff_idxOf.mpr ⟨List.getElem_mem hi, ?_⟩⟩
      exact (nodup_eraseDups ts).idxOf_getElem i hi
  injective t u i ht hu := by
    obtain ⟨hmem, hti⟩ := idxOf?_eq_some_iff_idxOf.mp ht
    obtain ⟨_, hui⟩ := idxOf?_eq_some_iff_idxOf.mp hu
    exact (List.idxOf_inj hmem).mp (hti.trans hui.symm)
  member t i ht := by
    obtain ⟨hmem, rfl⟩ := idxOf?_eq_some_iff_idxOf.mp ht
    rw [List.getElem?_eq_getElem (List.idxOf_lt_length_of_mem hmem), List.getElem_idxOf]
  lt_iff t u i j ht hu := by
    obtain ⟨hmt, rfl⟩ := idxOf?_eq_some_iff_idxOf.mp ht
    obtain ⟨hmu, rfl⟩ := idxOf?_eq_some_iff_idxOf.mp hu
    exact idxOf_eraseDups_lt_iff (List.mem_eraseDups.mp hmt) (List.mem_eraseDups.mp hmu)

end LabelInference

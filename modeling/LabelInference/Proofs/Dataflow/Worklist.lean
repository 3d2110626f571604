import LabelInference.Proofs.Dataflow.Equations
import Mathlib.Data.DFinsupp.WellFounded
import Mathlib.Order.RelClasses

namespace LabelInference.Dataflow

universe u v w

namespace FlowFunctions

section Queue

variable {n : Nat} {inside : Vector Bool n}

theorem mem_enqueue {waiting successors : List (Fin n)} {v : Fin n} :
    v ∈ enqueue inside waiting successors ↔
      v ∈ waiting ∨ (v ∈ successors ∧ inside.get v = true) := by
  unfold enqueue
  induction successors generalizing waiting with
  | nil => simp
  | cons s successors ih =>
    rw [List.foldl_cons, ih]
    split
    · next hs =>
      rw [List.mem_append, List.mem_singleton, List.mem_cons]
      by_cases hv : v = s
      · subst hv
        simp [hs.1]
      · simp [hv]
    · next hs =>
      rw [List.mem_cons]
      by_cases hv : v = s
      · subst hv
        by_cases hin : inside.get v = true
        · have hw : v ∈ waiting := by simpa [hin] using hs
          simp [hw]
        · simp [hin]
      · simp [hv]

theorem nodup_enqueue {waiting successors : List (Fin n)} (h : waiting.Nodup) :
    (enqueue inside waiting successors).Nodup := by
  unfold enqueue
  induction successors generalizing waiting with
  | nil => exact h
  | cons s successors ih =>
    rw [List.foldl_cons]
    apply ih
    split
    · next hs => exact h.append (List.nodup_singleton s) (by simpa using hs.2)
    · exact h

end Queue

variable {n : Nat} {ν : Type u} {ε : Type v} {α : Type w} [Meet α]
variable {f : FlowFunctions ν ε α} {g : Graph n ν ε} {top : α} {inside : Vector Bool n}

-- The members of the component that are not waiting satisfy their equations.
structure Consistent (f : FlowFunctions ν ε α) (g : Graph n ν ε) (top : α) (inside : Vector Bool n)
    (p : Progress α n) : Prop where
  nodup : p.waiting.Nodup
  member : ∀ v ∈ p.waiting, inside.get v = true
  balanced : ∀ v, inside.get v = true → v ∉ p.waiting →
    p.values.get v = f.image g top p.values.get v

-- At first all members wait.
theorem Consistent.start {c : List (Fin n)} (hc : c.Nodup) (o : Outcome α n) :
    Consistent f g top (mark (.replicate n false) c) ⟨o.values, c, o.iterations⟩ where
  nodup := hc
  member _ hv := get_mark_replicate.mpr hv
  balanced _ hv hnot := absurd (get_mark_replicate.mp hv) hnot

-- One value lower, or the same values and a shorter queue. Only one value changes at a time, so any
-- order of the nodes makes the comparison of values lexicographic.
def Precedes (p q : Progress α n) : Prop :=
  Prod.Lex (Pi.Lex (· < ·) StrictlyBelow) (· < ·)
    (p.values.get, p.waiting.length) (q.values.get, q.waiting.length)

theorem precedes_wellFounded (h : WellFounded (StrictlyBelow : α → α → Prop)) :
    WellFounded (Precedes : Progress α n → Progress α n → Prop) :=
  InvImage.wf (fun p : Progress α n => (p.values.get, p.waiting.length))
    ((Pi.Lex.wellFounded (· < ·) fun _ => h).prod_lex Nat.lt_wfRel.wf)

variable [DecidableEq α]

-- Setting an unchanged value changes nothing, so both branches follow one rule.
theorem values_visit (v : Fin n) (rest : List (Fin n)) (p : Progress α n) :
    (f.visit g top inside v rest p).values =
      p.values.set v.val (f.image g top p.values.get v) v.isLt := by
  by_cases h : f.image g top p.values.get v = p.values.get v
  · simp only [visit, h, if_true, set_get]
  · simp only [visit, h, if_false]

theorem iterations_visit (v : Fin n) (rest : List (Fin n)) (p : Progress α n) :
    (f.visit g top inside v rest p).iterations = p.iterations + 1 := by
  by_cases h : f.image g top p.values.get v = p.values.get v
  · simp only [visit, h, if_true]
  · simp only [visit, h, if_false]

theorem waiting_visit_of_eq {v : Fin n} {rest : List (Fin n)} {p : Progress α n}
    (h : f.image g top p.values.get v = p.values.get v) :
    (f.visit g top inside v rest p).waiting = rest := by
  simp [visit, h]

theorem waiting_visit_of_ne {v : Fin n} {rest : List (Fin n)} {p : Progress α n}
    (h : f.image g top p.values.get v ≠ p.values.get v) :
    (f.visit g top inside v rest p).waiting = enqueue inside rest (g.successors v) := by
  simp [visit, h]

-- What holds at the start and after every visit holds at the end.
theorem settle_induction (P : Progress α n → Prop) {allowance : Nat} {p : Progress α n}
    (hvisit : ∀ p v rest, p.waiting = v :: rest → P p → P (f.visit g top inside v rest p))
    (h : P p) : P (f.settle g top inside allowance p) := by
  induction allowance generalizing p with
  | zero => exact h
  | succ allowance ih =>
    unfold settle
    split
    · exact h
    · next v rest hw => exact ih (hvisit p v rest hw h)

theorem settle_of_nil {allowance : Nat} {p : Progress α n} (h : p.waiting = []) :
    f.settle g top inside allowance p = p := by
  cases allowance with
  | zero => rfl
  | succ allowance => simp [settle, h]

theorem settle_of_cons {allowance : Nat} {p : Progress α n} {v : Fin n} {rest : List (Fin n)}
    (h : p.waiting = v :: rest) :
    f.settle g top inside (allowance + 1) p =
      f.settle g top inside allowance (f.visit g top inside v rest p) := by
  simp [settle, h]

-- Visits that are allowed beyond the last one do not happen.
theorem settle_eq_of_le {bound allowance : Nat} {p : Progress α n}
    (h : (f.settle g top inside bound p).waiting = []) (hle : bound ≤ allowance) :
    f.settle g top inside allowance p = f.settle g top inside bound p := by
  induction bound generalizing allowance p with
  | zero => exact settle_of_nil h
  | succ bound ih =>
    cases hw : p.waiting with
    | nil => rw [settle_of_nil hw, settle_of_nil hw]
    | cons v rest =>
      obtain ⟨allowance, rfl⟩ := Nat.exists_eq_add_of_lt hle
      rw [settle_of_cons hw] at h
      rw [settle_of_cons hw, settle_of_cons hw]
      exact ih h (by omega)

theorem Consistent.waiting_visit {p : Progress α n} (h : Consistent f g top inside p) {v : Fin n}
    {rest : List (Fin n)} (hw : p.waiting = v :: rest) :
    (f.visit g top inside v rest p).waiting.Nodup ∧
      ∀ u ∈ (f.visit g top inside v rest p).waiting, inside.get u = true := by
  have hnodup := h.nodup
  have hinside := h.member
  rw [hw] at hnodup hinside
  rw [List.nodup_cons] at hnodup
  rw [List.forall_mem_cons] at hinside
  by_cases hv : f.image g top p.values.get v = p.values.get v
  · rw [waiting_visit_of_eq hv]
    exact ⟨hnodup.2, hinside.2⟩
  · rw [waiting_visit_of_ne hv]
    refine ⟨nodup_enqueue hnodup.2, fun u hu => ?_⟩
    rcases mem_enqueue.mp hu with hu | hu
    · exact hinside.2 u hu
    · exact hu.2

-- A member that reads the changed value is woken, so the others see the values that they saw before.
theorem Consistent.visit {p : Progress α n} (h : Consistent f g top inside p) {v : Fin n}
    {rest : List (Fin n)} (hw : p.waiting = v :: rest) :
    Consistent f g top inside (f.visit g top inside v rest p) := by
  obtain ⟨hnodup, hinside⟩ := h.waiting_visit hw
  refine ⟨hnodup, hinside, fun u hu hnot => ?_⟩
  rw [values_visit]
  by_cases hv : f.image g top p.values.get v = p.values.get v
  · rw [waiting_visit_of_eq hv] at hnot
    rw [hv, set_get]
    by_cases huv : u = v
    · rw [huv, hv]
    · exact h.balanced u hu (by simp [hw, huv, hnot])
  · rw [waiting_visit_of_ne hv, mem_enqueue, not_or, and_iff_left hu] at hnot
    have hunread : v ∉ g.predecessors u := by
      rw [← Graph.mem_successors_iff_mem_predecessors]
      exact hnot.2
    have himage : f.image g top (p.values.set v.val (f.image g top p.values.get v) v.isLt).get u =
        f.image g top p.values.get u := by
      refine image_congr fun t ht => get_set_of_ne ?_
      rintro rfl
      exact hunread ht
    rw [himage]
    by_cases huv : u = v
    · subst huv
      rw [get_set_self]
    · rw [get_set_of_ne huv]
      exact h.balanced u hu (by simp [hw, huv, hnot.1])

theorem Consistent.settle {p : Progress α n} (h : Consistent f g top inside p) (allowance : Nat) :
    Consistent f g top inside (f.settle g top inside allowance p) :=
  settle_induction (Consistent f g top inside) (fun _ _ _ hw hp => hp.visit hw) h

-- Nothing outside of the component changes.
theorem Consistent.get_settle {p : Progress α n} (h : Consistent f g top inside p) {allowance : Nat}
    {u : Fin n} (hu : inside.get u = false) :
    (f.settle g top inside allowance p).values.get u = p.values.get u := by
  have hframe : Consistent f g top inside (f.settle g top inside allowance p) ∧
      (f.settle g top inside allowance p).values.get u = p.values.get u := by
    refine settle_induction (fun q => Consistent f g top inside q ∧ q.values.get u = p.values.get u)
      (fun q v rest hw hq => ⟨hq.1.visit hw, ?_⟩) ⟨h, rfl⟩
    have hv : inside.get v = true := hq.1.member v (by simp [hw])
    rw [values_visit, get_set_of_ne, hq.2]
    rintro rfl
    rw [hu] at hv
    cases hv
  exact hframe.2

-- A rule for the values alone.
theorem values_settle_induction (P : Vector α n → Prop) {allowance : Nat} {p : Progress α n}
    (hset : ∀ values v, P values → P (values.set v.val (f.image g top values.get v) v.isLt))
    (h : P p.values) : P (f.settle g top inside allowance p).values := by
  refine settle_induction (fun q => P q.values) (fun q v rest _ hq => ?_) h
  rw [values_visit]
  exact hset q.values v hq

-- A visit either only shortens the queue or strictly lowers the visited value.
theorem Descending.visit {p : Progress α n} (h : f.Descending g top p.values) (v : Fin n)
    (rest : List (Fin n)) :
    ((f.visit g top inside v rest p).values = p.values ∧
        (f.visit g top inside v rest p).waiting = rest) ∨
      StrictlyBelow (f.image g top p.values.get v) (p.values.get v) := by
  by_cases hv : f.image g top p.values.get v = p.values.get v
  · left
    refine ⟨?_, waiting_visit_of_eq hv⟩
    rw [values_visit, hv, set_get]
  · right
    exact ⟨h v, hv⟩

theorem Descending.visit_precedes {p : Progress α n} (h : f.Descending g top p.values) {v : Fin n}
    {rest : List (Fin n)} (hw : p.waiting = v :: rest) :
    Precedes (f.visit g top inside v rest p) p := by
  unfold Precedes
  rcases h.visit v rest with ⟨hvalues, hrest⟩ | hlower
  · rw [hvalues, hrest, hw]
    exact Prod.Lex.right _ (Nat.lt_succ_self _)
  · refine Prod.Lex.left _ _ ⟨v, fun u hu => ?_, ?_⟩
    · rw [values_visit]
      exact get_set_of_ne (ne_of_lt hu)
    · rw [values_visit]
      change StrictlyBelow ((p.values.set v.val _ v.isLt).get v) _
      rwa [get_set_self]

theorem exists_settle [LawfulMeet α] (hf : f.IsMonotone)
    (hwf : WellFounded (StrictlyBelow : α → α → Prop)) {p : Progress α n}
    (h : f.Descending g top p.values) :
    ∃ bound, (f.settle g top inside bound p).waiting = [] := by
  induction p using (precedes_wellFounded hwf).induction with
  | _ p ih =>
    cases hw : p.waiting with
    | nil => exact ⟨0, hw⟩
    | cons v rest =>
      have hdesc : f.Descending g top (f.visit g top inside v rest p).values := by
        rw [values_visit]
        exact h.set hf v
      obtain ⟨bound, hbound⟩ := ih _ (h.visit_precedes hw) hdesc
      exact ⟨bound + 1, by rwa [settle_of_cons hw]⟩

end FlowFunctions

end LabelInference.Dataflow

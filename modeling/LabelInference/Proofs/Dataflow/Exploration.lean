import LabelInference.Proofs.Dataflow.Search
import Mathlib.Logic.Relation

namespace LabelInference.Dataflow

section Marks

variable {n : Nat} {marks : Vector Bool n} {v : Fin n}

theorem ext_marks {marks marks' : Vector Bool n}
    (h : ∀ v, marks.get v = true ↔ marks'.get v = true) : marks = marks' :=
  Vector.ext fun i hi => Bool.eq_iff_iff.mpr (h ⟨i, hi⟩)

theorem mark_cons (vs : List (Fin n)) :
    mark marks (v :: vs) = mark (marks.set v.val true v.isLt) vs := rfl

-- The order in which nodes are marked does not matter.
theorem mark_append_cons (vs ws : List (Fin n)) :
    mark marks (vs ++ v :: ws) = mark (mark (marks.set v.val true v.isLt) vs) ws := by
  refine ext_marks fun u => ?_
  simp only [get_mark, get_set_true, List.mem_append, List.mem_cons]
  tauto

theorem get_set_eq_false_iff {u : Fin n} :
    (marks.set v.val true v.isLt).get u = false ↔ marks.get u = false ∧ u ≠ v := by
  rw [← Bool.not_eq_true, get_set_true, not_or, Bool.not_eq_true]

theorem get_mark_eq_false_iff {vs : List (Fin n)} :
    (mark marks vs).get v = false ↔ marks.get v = false ∧ v ∉ vs := by
  rw [← Bool.not_eq_true, get_mark, not_or, Bool.not_eq_true]

theorem count_false_mark_le (vs : List (Fin n)) :
    (mark marks vs).count false ≤ marks.count false := by
  induction vs generalizing marks with
  | nil => exact Nat.le_refl _
  | cons v vs ih =>
    rw [mark_cons]
    refine Nat.le_trans ih ?_
    by_cases hv : marks.get v = true
    · exact Nat.le_of_eq (by rw [← hv, set_get])
    · exact Nat.le_of_lt (count_unseen_set (Bool.eq_false_iff.mpr hv))

end Marks

variable {n : Nat} {successors : Fin n → List (Fin n)}

-- What a search finds from a list of nodes in turn, in the order in which it leaves them.
inductive Explores (successors : Fin n → List (Fin n)) :
    Vector Bool n → List (Fin n) → List (Fin n) → Prop
  | nil {seen : Vector Bool n} : Explores successors seen [] []
  | skip {seen : Vector Bool n} {v : Fin n} {vs found : List (Fin n)} (hseen : seen.get v = true)
      (h : Explores successors seen vs found) : Explores successors seen (v :: vs) found
  | enter {seen : Vector Bool n} {v : Fin n} {vs below after : List (Fin n)}
      (hunseen : seen.get v = false)
      (hbelow : Explores successors (seen.set v.val true v.isLt) (successors v) below)
      (hafter : Explores successors (mark (seen.set v.val true v.isLt) below) vs after) :
      Explores successors seen (v :: vs) (below ++ v :: after)

theorem exists_explores (seen : Vector Bool n) :
    (vs : List (Fin n)) → ∃ found, Explores successors seen vs found
  | [] => ⟨[], .nil⟩
  | v :: vs => by
    by_cases hseen : seen.get v = true
    · obtain ⟨found, h⟩ := exists_explores seen vs
      exact ⟨found, .skip hseen h⟩
    · have hunseen := Bool.eq_false_iff.mpr hseen
      obtain ⟨below, hbelow⟩ := exists_explores (seen.set v.val true v.isLt) (successors v)
      obtain ⟨after, hafter⟩ := exists_explores (mark (seen.set v.val true v.isLt) below) vs
      exact ⟨below ++ v :: after, .enter hunseen hbelow hafter⟩
termination_by vs => (seen.count false, vs.length)
decreasing_by
  · exact Prod.Lex.right _ (Nat.lt_succ_self _)
  · exact Prod.Lex.left _ _ (count_unseen_set hunseen)
  · exact Prod.Lex.left _ _ (Nat.lt_of_le_of_lt (count_false_mark_le below) (count_unseen_set hunseen))

-- The stack of tasks carries the recursion out.
theorem Explores.finishOrder_append {seen : Vector Bool n} {vs found : List (Fin n)}
    (h : Explores successors seen vs found) (tasks : List (Task n)) :
    finishOrder successors seen (vs.map .enter ++ tasks) =
      found ++ finishOrder successors (mark seen found) tasks := by
  induction h generalizing tasks with
  | nil => rfl
  | skip hseen _ ih =>
    rw [List.map_cons, List.cons_append, finishOrder, dif_pos hseen, ih]
  | enter hunseen _ _ ihbelow ihafter =>
    rw [List.map_cons, List.cons_append, finishOrder, dif_neg (Bool.not_eq_true _ ▸ hunseen), ihbelow,
      finishOrder, ihafter, mark_append_cons, List.append_assoc, List.cons_append]

namespace Explores

variable {seen : Vector Bool n} {vs found : List (Fin n)} {u v w : Fin n}

theorem eq_finishOrder (h : Explores successors seen vs found) :
    found = finishOrder successors seen (vs.map .enter) := by
  have heq := h.finishOrder_append []
  rw [List.append_nil, finishOrder, List.append_nil] at heq
  exact heq.symm

theorem leaves_enter : leaves (vs.map (Task.enter : Fin n → Task n)) = [] := by
  have h := leaves_enter_append vs []
  rwa [List.append_nil] at h

theorem unseen (h : Explores successors seen vs found) (hv : v ∈ found) : seen.get v = false := by
  rw [h.eq_finishOrder] at hv
  refine (leave_or_unseen hv).resolve_left ?_
  rw [leaves_enter]
  exact List.not_mem_nil

theorem seen_or_mem (h : Explores successors seen vs found) (hv : v ∈ vs) :
    seen.get v = true ∨ v ∈ found := by
  rw [h.eq_finishOrder]
  exact seen_or_mem_of_enter (List.mem_map_of_mem hv)

theorem seen_or_mem_successor (h : Explores successors seen vs found) (hu : u ∈ found)
    (hw : w ∈ successors u) : seen.get w = true ∨ w ∈ found := by
  rw [h.eq_finishOrder] at hu ⊢
  refine seen_or_mem_of_successor hu ?_ hw
  rw [leaves_enter]
  exact List.not_mem_nil

end Explores

theorem explores_finishOrder (seen : Vector Bool n) (vs : List (Fin n)) :
    Explores successors seen vs (finishOrder successors seen (vs.map .enter)) := by
  obtain ⟨found, h⟩ : ∃ found, Explores successors seen vs found := exists_explores seen vs
  rwa [← h.eq_finishOrder]

-- An arc between two nodes of a set.
def StepWithin (successors : Fin n → List (Fin n)) (S : Fin n → Prop) (u w : Fin n) : Prop :=
  w ∈ successors u ∧ S u ∧ S w

open Relation

theorem StepWithin.mono {S T : Fin n → Prop} (hST : ∀ v, S v → T v) {u w : Fin n}
    (h : ReflTransGen (StepWithin successors S) u w) :
    ReflTransGen (StepWithin successors T) u w :=
  ReflTransGen.mono (fun _ _ hstep => ⟨hstep.1, hST _ hstep.2.1, hST _ hstep.2.2⟩) u w h

theorem StepWithin.forget {S : Fin n → Prop} {u w : Fin n}
    (h : ReflTransGen (StepWithin successors S) u w) :
    ReflTransGen (fun x y => y ∈ successors x) u w :=
  ReflTransGen.mono (fun _ _ hstep => hstep.1) u w h

-- All that is found has been reached from where the search started, through unseen nodes.
theorem Explores.reached {seen : Vector Bool n} {vs found : List (Fin n)}
    (h : Explores successors seen vs found) {w : Fin n} (hw : w ∈ found) :
    ∃ u ∈ vs, seen.get u = false ∧
      ReflTransGen (StepWithin successors fun x => seen.get x = false) u w := by
  induction h with
  | nil => cases hw
  | skip _ _ ih =>
    obtain ⟨u, hu, hpath⟩ := ih hw
    exact ⟨u, List.mem_cons_of_mem _ hu, hpath⟩
  | @enter seen v vs below after hunseen _ _ ihbelow ihafter =>
    rcases List.mem_append.mp hw with hw | hw
    · obtain ⟨u, hu, huseen, hpath⟩ := ihbelow hw
      have hstep : StepWithin successors (fun x => seen.get x = false) v u :=
        ⟨hu, hunseen, (get_set_eq_false_iff.mp huseen).1⟩
      refine ⟨v, List.mem_cons_self, hunseen, .head hstep ?_⟩
      exact StepWithin.mono (fun x hx => (get_set_eq_false_iff.mp hx).1) hpath
    · rcases List.mem_cons.mp hw with rfl | hw
      · exact ⟨w, List.mem_cons_self, hunseen, .refl⟩
      · obtain ⟨u, hu, huseen, hpath⟩ := ihafter hw
        have hsub : ∀ x, (mark (seen.set v.val true v.isLt) below).get x = false → seen.get x = false :=
          fun x hx => (get_set_eq_false_iff.mp (get_mark_eq_false_iff.mp hx).1).1
        exact ⟨u, List.mem_cons_of_mem v hu, hsub u huseen, StepWithin.mono hsub hpath⟩

-- Where no arc of a path leaves a set, a path that ends outside of it avoids the set altogether.
theorem StepWithin.avoid {S T : Fin n → Prop} (hclosed : ∀ u, T u → ∀ w ∈ successors u, S w → T w)
    {u w : Fin n} (h : ReflTransGen (StepWithin successors S) u w) (hw : ¬T w) :
    ¬T u ∧ ReflTransGen (StepWithin successors fun x => S x ∧ ¬T x) u w := by
  induction h using ReflTransGen.head_induction_on with
  | refl => exact ⟨hw, .refl⟩
  | @head x y hstep _ ih =>
    have hx : ¬T x := fun hx => ih.1 (hclosed x hx y hstep.1 hstep.2.2)
    have hstep' : StepWithin successors (fun x => S x ∧ ¬T x) x y :=
      ⟨hstep.1, ⟨hstep.2.1, hx⟩, ⟨hstep.2.2, ih.1⟩⟩
    exact ⟨hx, .head hstep' ih.2⟩

-- No arc leads from a node and what is found from it to an unseen node outside of these.
theorem Explores.closed {seen : Vector Bool n} {u : Fin n} {below : List (Fin n)}
    (h : Explores successors (seen.set u.val true u.isLt) (successors u) below) {x y : Fin n}
    (hx : x ∈ below ∨ x = u) (hy : y ∈ successors x) (hunseen : seen.get y = false) :
    y ∈ below ∨ y = u := by
  have hstep : (seen.set u.val true u.isLt).get y = true ∨ y ∈ below := by
    rcases hx with hx | rfl
    · exact h.seen_or_mem_successor hx hy
    · exact h.seen_or_mem hy
  rcases hstep with hset | hmem
  · rcases get_set_true.mp hset with hseen | heq
    · rw [hunseen] at hseen
      cases hseen
    · exact .inr heq
  · exact .inl hmem

-- Two ways to split a list at one of its members.
theorem append_cons_eq_append_cons {α : Type*} {as bs cs ds : List α} {a c : α}
    (h : as ++ a :: bs = cs ++ c :: ds) :
    (∃ es, as = cs ++ c :: es ∧ ds = es ++ a :: bs) ∨ (as = cs ∧ a = c ∧ bs = ds) ∨
      ∃ es, cs = as ++ a :: es ∧ bs = es ++ c :: ds := by
  induction as generalizing cs with
  | nil => cases cs <;> simp_all
  | cons b as ih => cases cs <;> simp_all

-- The invariant of the search: a node left before another one, which it leads to through unseen nodes
-- that are left no later, was entered from that one.
theorem Explores.reaches_back {seen : Vector Bool n} {vs found : List (Fin n)}
    (h : Explores successors seen vs found) {before later : List (Fin n)} {v w : Fin n}
    (hfound : found = before ++ v :: later) (hw : w ∈ before)
    (hpath : ReflTransGen (StepWithin successors fun x => seen.get x = false ∧ x ∉ later) w v) :
    ReflTransGen (fun x y => y ∈ successors x) v w := by
  induction h generalizing before later with
  | nil => simp at hfound
  | skip _ _ ih => exact ih hfound hw hpath
  | @enter seen u vs below after hunseen hbelow hafter ihbelow ihafter =>
    rcases append_cons_eq_append_cons hfound with
      ⟨rest, hsplit, rfl⟩ | ⟨rfl, rfl, rfl⟩ | ⟨rest, rfl, rfl⟩
    · -- `v` was entered from `u`, which is left later, so the path avoids `u`
      refine ihbelow hsplit hw (StepWithin.mono (fun x hx => ?_) hpath)
      rw [List.mem_append, List.mem_cons, not_or, not_or] at hx
      exact ⟨get_set_eq_false_iff.mpr ⟨hx.1, hx.2.2.1⟩, hx.2.1⟩
    · -- `v` is `u` itself
      obtain ⟨y, hy, _, hreached⟩ := hbelow.reached hw
      exact .head hy (StepWithin.forget hreached)
    · -- `v` was entered when `u` had been left, and no path leads to it from what was left by then
      have hv : ¬(v ∈ below ∨ v = u) := by
        have hunseen := hafter.unseen (List.mem_append_right rest List.mem_cons_self)
        rw [get_mark_eq_false_iff, get_set_eq_false_iff] at hunseen
        exact not_or.mpr ⟨hunseen.2, hunseen.1.2⟩
      have hclosed : ∀ x, x ∈ below ∨ x = u → ∀ y ∈ successors x,
          seen.get y = false ∧ y ∉ later → y ∈ below ∨ y = u :=
        fun x hx y hy hunseen => hbelow.closed hx hy hunseen.1
      obtain ⟨hout, hpath⟩ := StepWithin.avoid hclosed hpath hv
      rw [not_or] at hout
      refine ihafter rfl ?_ (StepWithin.mono (fun x hx => ?_) hpath)
      · rcases List.mem_append.mp hw with hw | hw
        · exact absurd hw hout.1
        · exact (List.mem_cons.mp hw).resolve_left hout.2
      · obtain ⟨⟨hunseen, hlater⟩, hx⟩ := hx
        rw [not_or] at hx
        rw [get_mark_eq_false_iff, get_set_eq_false_iff]
        exact ⟨⟨⟨hunseen, hx.2⟩, hx.1⟩, hlater⟩

end LabelInference.Dataflow

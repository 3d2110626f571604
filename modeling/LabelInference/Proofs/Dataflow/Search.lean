import LabelInference.Dataflow.Search
import Mathlib.Data.List.Nodup

namespace LabelInference.Dataflow

universe u

section Vector

variable {n : Nat} {α : Type u} {values : Vector α n} {v w : Fin n} {a : α}

theorem get_set_self : (values.set v.val a v.isLt).get v = a :=
  Vector.getElem_set_self v.isLt

theorem get_set_of_ne (h : w ≠ v) : (values.set v.val a v.isLt).get w = values.get w :=
  Vector.getElem_set_ne v.isLt w.isLt fun hv => h (Fin.ext hv.symm)

-- What holds of every value holds after one of them is replaced by another value of which it holds.
theorem forall_get_set {P : Fin n → α → Prop} (h : ∀ u, P u (values.get u)) (ha : P v a) :
    ∀ u, P u ((values.set v.val a v.isLt).get u) := by
  intro u
  by_cases huv : u = v
  · subst huv
    rw [get_set_self]
    exact ha
  · rw [get_set_of_ne huv]
    exact h u

theorem set_get (v : Fin n) : values.set v.val (values.get v) v.isLt = values :=
  Vector.set_getElem_self v.isLt

theorem get_set_true {seen : Vector Bool n} :
    (seen.set v.val true v.isLt).get w = true ↔ seen.get w = true ∨ w = v := by
  by_cases h : w = v
  · subst h
    simp [get_set_self]
  · rw [get_set_of_ne h, or_iff_left h]

theorem get_replicate_false : (Vector.replicate n false).get v = false :=
  Vector.getElem_replicate v.isLt

theorem get_mark_replicate {vs : List (Fin n)} :
    (mark (.replicate n false) vs).get v = true ↔ v ∈ vs := by
  rw [get_mark, get_replicate_false, or_iff_right Bool.false_ne_true]

end Vector

variable {n : Nat} {successors : Fin n → List (Fin n)}

def Task.left? : Task n → Option (Fin n)
  | .enter _ => none
  | .leave v => some v

-- The nodes that the tasks leave without entering them first.
def leaves (tasks : List (Task n)) : List (Fin n) := tasks.filterMap Task.left?

theorem mem_leaves {tasks : List (Task n)} {v : Fin n} : v ∈ leaves tasks ↔ .leave v ∈ tasks := by
  simp only [leaves, List.mem_filterMap]
  constructor
  · rintro ⟨_ | u, ht, h⟩
    · cases h
    · cases h
      exact ht
  · intro h
    exact ⟨_, h, rfl⟩

theorem leaves_enter_append (vs : List (Fin n)) (tasks : List (Task n)) :
    leaves (vs.map .enter ++ tasks) = leaves tasks := by
  induction vs with
  | nil => rfl
  | cons v vs ih => exact ih

theorem mem_finishOrder_of_leave {seen : Vector Bool n} {tasks : List (Task n)} {v : Fin n}
    (h : v ∈ leaves tasks) : v ∈ finishOrder successors seen tasks := by
  fun_induction finishOrder successors seen tasks with
  | case1 => cases h
  | case2 seen u tasks ih =>
    rcases List.mem_cons.mp h with rfl | h
    · exact List.mem_cons_self
    · exact List.mem_cons_of_mem u (ih h)
  | case3 seen u tasks _ ih => exact ih h
  | case4 seen u tasks _ ih =>
    refine ih ?_
    rw [leaves_enter_append]
    exact List.mem_cons_of_mem u h

theorem seen_or_mem_of_enter {seen : Vector Bool n} {tasks : List (Task n)} {v : Fin n}
    (h : .enter v ∈ tasks) : seen.get v = true ∨ v ∈ finishOrder successors seen tasks := by
  fun_induction finishOrder successors seen tasks with
  | case1 => cases h
  | case2 seen u tasks ih =>
    rcases List.mem_cons.mp h with h | h
    · cases h
    · exact (ih h).imp_right (List.mem_cons_of_mem u)
  | case3 seen u tasks hu ih =>
    rcases List.mem_cons.mp h with h | h
    · cases h
      exact .inl hu
    · exact ih h
  | case4 seen u tasks _ ih =>
    have hu : u ∈ finishOrder successors (seen.set u true)
        ((successors u).map .enter ++ .leave u :: tasks) := by
      apply mem_finishOrder_of_leave
      rw [leaves_enter_append]
      exact List.mem_cons_self
    rcases List.mem_cons.mp h with h | h
    · cases h
      exact .inr hu
    · rcases ih (List.mem_append_right _ (List.mem_cons_of_mem _ h)) with hseen | hmem
      · rcases get_set_true.mp hseen with hseen | rfl
        · exact .inl hseen
        · exact .inr hu
      · exact .inr hmem

theorem leave_or_unseen {seen : Vector Bool n} {tasks : List (Task n)} {v : Fin n}
    (h : v ∈ finishOrder successors seen tasks) : v ∈ leaves tasks ∨ seen.get v = false := by
  fun_induction finishOrder successors seen tasks with
  | case1 => cases h
  | case2 seen u tasks ih =>
    rcases List.mem_cons.mp h with rfl | h
    · exact .inl List.mem_cons_self
    · exact (ih h).imp_left (List.mem_cons_of_mem u)
  | case3 seen u tasks _ ih => exact ih h
  | case4 seen u tasks hu ih =>
    rcases ih h with hleave | hunseen
    · rw [leaves_enter_append] at hleave
      rcases List.mem_cons.mp hleave with rfl | hleave
      · exact .inr (Bool.eq_false_iff.mpr hu)
      · exact .inl hleave
    · refine .inr (Bool.eq_false_iff.mpr fun hseen => ?_)
      rw [get_set_true.mpr (.inl hseen)] at hunseen
      cases hunseen

-- A node is left once: the pending leaves have been seen and are not entered again.
theorem nodup_finishOrder {seen : Vector Bool n} {tasks : List (Task n)}
    (hnodup : (leaves tasks).Nodup) (hseen : ∀ v ∈ leaves tasks, seen.get v = true) :
    (finishOrder successors seen tasks).Nodup := by
  fun_induction finishOrder successors seen tasks with
  | case1 => exact List.nodup_nil
  | case2 seen u tasks ih =>
    have hcons : (u :: leaves tasks).Nodup := hnodup
    rw [List.nodup_cons] at hcons
    refine List.nodup_cons.mpr
      ⟨fun hu => ?_, ih hcons.2 fun v hv => hseen v (List.mem_cons_of_mem u hv)⟩
    rcases leave_or_unseen hu with hleave | hunseen
    · exact hcons.1 hleave
    · rw [hseen u List.mem_cons_self] at hunseen
      cases hunseen
  | case3 seen u tasks _ ih => exact ih hnodup hseen
  | case4 seen u tasks hu ih =>
    apply ih
    · rw [leaves_enter_append]
      exact List.nodup_cons.mpr ⟨fun h => hu (hseen u h), hnodup⟩
    · intro v hv
      rw [leaves_enter_append] at hv
      rcases List.mem_cons.mp hv with rfl | hv
      · exact get_set_true.mpr (.inr rfl)
      · exact get_set_true.mpr (.inl (hseen v hv))

-- The search goes on from every node that it enters.
theorem seen_or_mem_of_successor {seen : Vector Bool n} {tasks : List (Task n)} {u w : Fin n}
    (hu : u ∈ finishOrder successors seen tasks) (hnew : u ∉ leaves tasks)
    (hw : w ∈ successors u) : seen.get w = true ∨ w ∈ finishOrder successors seen tasks := by
  fun_induction finishOrder successors seen tasks with
  | case1 => cases hu
  | case2 seen v tasks ih =>
    rcases List.mem_cons.mp hu with rfl | hu
    · exact absurd List.mem_cons_self hnew
    · exact (ih hu fun h => hnew (List.mem_cons_of_mem v h)).imp_right (List.mem_cons_of_mem v)
  | case3 seen v tasks _ ih => exact ih hu hnew
  | case4 seen v tasks _ ih =>
    have hstep : (seen.set v true).get w = true ∨ w ∈ finishOrder successors (seen.set v true)
        ((successors v).map .enter ++ .leave v :: tasks) := by
      by_cases huv : u = v
      · subst huv
        exact seen_or_mem_of_enter (List.mem_append_left _ (List.mem_map_of_mem hw))
      · refine ih hu fun h => ?_
        rw [leaves_enter_append] at h
        exact (List.mem_cons.mp h).elim huv hnew
    rcases hstep with hseen | hmem
    · rcases get_set_true.mp hseen with hseen | rfl
      · exact .inl hseen
      · refine .inr (mem_finishOrder_of_leave ?_)
        rw [leaves_enter_append]
        exact List.mem_cons_self
    · exact .inr hmem

theorem mem_searchOrder (v : Fin n) : v ∈ searchOrder successors := by
  have h : Task.enter v ∈ (List.finRange n).map Task.enter :=
    List.mem_map_of_mem (List.mem_finRange v)
  have hfound : (Vector.replicate n false).get v = true ∨ v ∈ searchOrder successors :=
    seen_or_mem_of_enter h
  exact hfound.resolve_left (Bool.eq_false_iff.mp get_replicate_false)

end LabelInference.Dataflow

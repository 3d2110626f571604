namespace LabelInference.Dataflow

-- Entering an unseen node puts its successors before the task of leaving it, so that a node is left once
-- everything first seen from it has been left.
inductive Task (n : Nat) where
  | enter (v : Fin n)
  | leave (v : Fin n)

theorem count_unseen_set {n : Nat} {seen : Vector Bool n} {v : Fin n} (h : seen.get v = false) :
    (seen.set v true).count false < seen.count false := by
  have hv : seen[v.val] = false := h
  have hmem : seen[v.val] ∈ seen := Vector.getElem_mem v.isLt
  rw [hv] at hmem
  have hpos : 0 < seen.count false := Vector.count_pos_iff.mpr hmem
  have hcount : (seen.set v true).count false = seen.count false - 1 := by
    rw [Vector.count_set]
    simp only [hv, beq_self_eq_true, if_true, Bool.true_eq_false, beq_iff_eq, if_false, Nat.add_zero]
  omega

-- The nodes that the tasks leave, in the order in which they are left.
def finishOrder {n : Nat} (successors : Fin n → List (Fin n)) (seen : Vector Bool n) :
    List (Task n) → List (Fin n)
  | [] => []
  | .leave v :: tasks => v :: finishOrder successors seen tasks
  | .enter v :: tasks =>
    if h : seen.get v = true then finishOrder successors seen tasks
    else
      finishOrder successors (seen.set v true)
        ((successors v).map .enter ++ .leave v :: tasks)
termination_by tasks => (seen.count false, tasks.length)
decreasing_by
  · exact Prod.Lex.right _ (Nat.lt_succ_self _)
  · exact Prod.Lex.right _ (Nat.lt_succ_self _)
  · exact Prod.Lex.left _ _ (count_unseen_set (by simpa using h))

-- The order in which a search that starts at 0, 1, 2, ... leaves all nodes.
def searchOrder {n : Nat} (successors : Fin n → List (Fin n)) : List (Fin n) :=
  finishOrder successors (.replicate n false) ((List.finRange n).map .enter)

def mark {n : Nat} (marks : Vector Bool n) (nodes : List (Fin n)) : Vector Bool n :=
  nodes.foldl (fun marks v => marks.set v.val true v.isLt) marks

theorem get_mark {n : Nat} {marks : Vector Bool n} {nodes : List (Fin n)} {v : Fin n} :
    (mark marks nodes).get v = true ↔ marks.get v = true ∨ v ∈ nodes := by
  unfold mark
  induction nodes generalizing marks with
  | nil => simp
  | cons u nodes ih =>
    have hset : (marks.set u.val true u.isLt).get v = true ↔ marks.get v = true ∨ v = u := by
      change (marks.set u.val true u.isLt)[v.val] = true ↔ marks[v.val] = true ∨ v = u
      rw [Vector.getElem_set]
      by_cases h : v = u
      · simp [h]
      · have hne : u.val ≠ v.val := fun hv => h (Fin.ext hv.symm)
        simp [h, hne]
    rw [List.foldl_cons, ih, hset, List.mem_cons, or_assoc]

-- What searches from the given nodes in turn find, each beyond what the searches before it saw.
def searches {n : Nat} (successors : Fin n → List (Fin n)) (seen : Vector Bool n) :
    List (Fin n) → List (List (Fin n))
  | [] => []
  | v :: rest =>
    if seen.get v then searches successors seen rest
    else
      let found := finishOrder successors seen [.enter v]
      found :: searches successors (mark seen found) rest

end LabelInference.Dataflow

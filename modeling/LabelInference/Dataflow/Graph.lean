namespace LabelInference.Dataflow

universe u v

structure Arc (n : Nat) (ε : Type v) where
  source : Fin n
  target : Fin n
  label : ε

-- The items of a list by their key, the last one first.
def groupByKey {n : Nat} {β : Type u} (key : β → Fin n) (items : List β) : Vector (List β) n :=
  items.foldl (fun groups b => groups.set (key b) (b :: groups.get (key b)) (key b).isLt)
    (.replicate n [])

theorem get_groupByKey {n : Nat} {β : Type u} (key : β → Fin n) (items : List β) (v : Fin n) :
    (groupByKey key items).get v = items.reverse.filter (key · = v) := by
  have grouped : ∀ groups : Vector (List β) n,
      (items.foldl (fun groups b => groups.set (key b) (b :: groups.get (key b)) (key b).isLt)
        groups)[v.val] = items.reverse.filter (key · = v) ++ groups[v.val] := by
    induction items with
    | nil => simp
    | cons b items ih =>
      intro groups
      rw [List.foldl_cons, ih, List.reverse_cons, List.filter_append, List.append_assoc]
      by_cases h : key b = v
      · subst h
        rw [Vector.getElem_set_self]
        simp [Vector.get]
      · have hne : (key b).val ≠ v.val := fun hv => h (Fin.ext hv)
        rw [Vector.getElem_set_ne _ _ hne]
        simp [h]
  have h := grouped (.replicate n [])
  rw [Vector.getElem_replicate, List.append_nil] at h
  exact h

-- Arcs are kept in the order in which they were added, those at a node the most recent first.
structure Graph (n : Nat) (ν : Type u) (ε : Type v) where
  nodes : Vector ν n
  arcs : List (Arc n ε)
  byTarget : Vector (List (Arc n ε)) n
  bySource : Vector (List (Arc n ε)) n
  byTarget_eq : byTarget = groupByKey Arc.target arcs
  bySource_eq : bySource = groupByKey Arc.source arcs

namespace Graph

variable {n : Nat} {ν : Type u} {ε : Type v}

def ofArcs (nodes : Vector ν n) (arcs : List (Arc n ε)) : Graph n ν ε where
  nodes
  arcs
  byTarget := groupByKey Arc.target arcs
  bySource := groupByKey Arc.source arcs
  byTarget_eq := rfl
  bySource_eq := rfl

def incoming (g : Graph n ν ε) (v : Fin n) : List (Arc n ε) :=
  g.byTarget.get v

-- Where the arcs into a node come from, repeats included.
def predecessors (g : Graph n ν ε) (v : Fin n) : List (Fin n) :=
  (g.byTarget.get v).map (·.source)

-- Where the arcs out of a node lead, repeats included.
def successors (g : Graph n ν ε) (v : Fin n) : List (Fin n) :=
  (g.bySource.get v).map (·.target)

theorem incoming_eq (g : Graph n ν ε) (v : Fin n) :
    g.incoming v = g.arcs.reverse.filter (·.target = v) := by
  rw [incoming, g.byTarget_eq, get_groupByKey]

theorem mem_incoming {g : Graph n ν ε} {v : Fin n} {arc : Arc n ε} :
    arc ∈ g.incoming v ↔ arc ∈ g.arcs ∧ arc.target = v := by
  simp [incoming_eq]

theorem mem_predecessors {g : Graph n ν ε} {u v : Fin n} :
    u ∈ g.predecessors v ↔ ∃ arc ∈ g.arcs, arc.source = u ∧ arc.target = v := by
  rw [predecessors, g.byTarget_eq, get_groupByKey]
  simp [and_assoc, and_comm]

theorem mem_successors {g : Graph n ν ε} {u v : Fin n} :
    v ∈ g.successors u ↔ ∃ arc ∈ g.arcs, arc.source = u ∧ arc.target = v := by
  rw [successors, g.bySource_eq, get_groupByKey]
  simp [and_assoc]

-- The graph on a list of distinct nodes whose arcs are given by their end nodes.
def ofLinks [DecidableEq ν] (nodes : List ν) (links : List (ν × ε × ν))
    (known : ∀ link ∈ links, link.1 ∈ nodes ∧ link.2.2 ∈ nodes) : Graph nodes.length ν ε :=
  ofArcs ⟨nodes.toArray, rfl⟩ <| links.attach.map fun link =>
    { source := ⟨nodes.idxOf link.val.1, List.idxOf_lt_length_of_mem (known _ link.property).1⟩
      target := ⟨nodes.idxOf link.val.2.2, List.idxOf_lt_length_of_mem (known _ link.property).2⟩
      label := link.val.2.1 }

end Graph

end LabelInference.Dataflow

import LabelInference.Proofs.Dataflow.Allowance
import Mathlib.Logic.Relation

namespace LabelInference.Dataflow

universe u v w

variable {n : Nat} {ν : Type u} {ε : Type v} {α : Type w}

-- The iteration over the component at hand, with the components still ahead.
structure Stage (α : Type w) (n : Nat) where
  progress : Progress α n
  inside : Vector Bool n
  ahead : List (List (Fin n))

namespace Stage

def value (s : Stage α n) (v : Fin n) : α := s.progress.values.get v

-- All visits to the component at hand, and for each component ahead those that it may take and the
-- step that goes on to it.
def remaining (rank : α → Nat) (steps : Nat) (s : Stage α n) : Nat :=
  s.ahead.length * (allowance n steps + 1) + potential rank s.progress

end Stage

namespace FlowFunctions

variable [Meet α]

-- What holds at every stage of a run.
structure Sound (f : FlowFunctions ν ε α) (g : Graph n ν ε) (top : α) (P : α → Prop)
    (s : Stage α n) : Prop where
  consistent : Consistent f g top s.inside s.progress
  descending : f.Descending g top s.progress.values
  closed : ∀ v, P (s.value v)
  nodup : ∀ c ∈ s.ahead, c.Nodup

-- Before the first component nothing waits.
def start (f : FlowFunctions ν ε α) (g : Graph n ν ε) (top : α) (cs : List (List (Fin n))) :
    Stage α n :=
  ⟨⟨(f.initial g top).values, [], 0⟩, mark (.replicate n false) [], cs⟩

variable {f : FlowFunctions ν ε α} {g : Graph n ν ε} {top : α} {P : α → Prop}
  {cs : List (List (Fin n))}

theorem Sound.start [LawfulMeet α] (hf : f.IsMonotone) (h : f.Closed g top P)
    (hcs : g.IsLayering cs) : Sound f g top P (f.start g top cs) where
  consistent := .start List.nodup_nil (f.initial g top)
  descending := .initial hf
  closed := h.initial
  nodup := hcs.nodup

variable [DecidableEq α]

-- The first waiting node is visited or, when none waits, the next component is entered.
inductive Step (f : FlowFunctions ν ε α) (g : Graph n ν ε) (top : α) : Stage α n → Stage α n → Prop
  | visit {p : Progress α n} {inside : Vector Bool n} {ahead : List (List (Fin n))} {v : Fin n}
      {rest : List (Fin n)} (h : p.waiting = v :: rest) :
      Step f g top ⟨p, inside, ahead⟩ ⟨f.visit g top inside v rest p, inside, ahead⟩
  | enter {p : Progress α n} {inside : Vector Bool n} {c : List (Fin n)}
      {ahead : List (List (Fin n))} (h : p.waiting = []) :
      Step f g top ⟨p, inside, c :: ahead⟩
        ⟨⟨p.values, c, p.iterations⟩, mark (.replicate n false) c, ahead⟩

def Reached (f : FlowFunctions ν ε α) (g : Graph n ν ε) (top : α) (cs : List (List (Fin n)))
    (s : Stage α n) : Prop :=
  Relation.ReflTransGen (f.Step g top) (f.start g top cs) s

variable {s next : Stage α n}

-- A step changes a value only by lowering it.
theorem Step.strictlyBelow [LawfulMeet α] (hs : f.Descending g top s.progress.values)
    (h : f.Step g top s next) {v : Fin n} (hne : next.value v ≠ s.value v) :
    StrictlyBelow (next.value v) (s.value v) := by
  refine ⟨?_, hne⟩
  cases h with
  | visit hw =>
    unfold Stage.value
    rw [values_visit]
    exact hs.set_below _ v
  | enter hw => exact absurd rfl hne

theorem Sound.step [LawfulMeet α] (hf : f.IsMonotone) (h : f.Closed g top P)
    (hs : Sound f g top P s) (hstep : f.Step g top s next) : Sound f g top P next := by
  obtain ⟨hcons, hdesc, hP, hnodup⟩ := hs
  cases hstep with
  | @visit p inside ahead v rest hw =>
    refine ⟨hcons.visit hw, ?_, ?_, hnodup⟩
    · rw [values_visit]
      exact hdesc.set hf v
    · unfold Stage.value
      rw [values_visit]
      exact h.set hP v
  | @enter p inside c ahead hw =>
    rw [List.forall_mem_cons] at hnodup
    exact ⟨.start hnodup.1 ⟨p.values, 0, p.iterations, true⟩, hdesc, hP, hnodup.2⟩

theorem Sound.of_reached [LawfulMeet α] (hf : f.IsMonotone) (h : f.Closed g top P)
    (hcs : g.IsLayering cs) (hs : f.Reached g top cs s) : Sound f g top P s := by
  induction hs with
  | refl => exact .start hf h hcs
  | tail _ hstep ih => exact ih.step hf h hstep

variable {rank : α → Nat} {steps : Nat}

theorem Step.remaining_lt (h : f.Closed g top P) (hrank : IsRank P rank steps)
    (hs : Sound f g top P s) (hstep : f.Step g top s next) :
    next.remaining rank steps < s.remaining rank steps := by
  obtain ⟨hcons, hdesc, hP, hnodup⟩ := hs
  unfold Stage.remaining
  cases hstep with
  | visit hw => exact Nat.add_lt_add_left (potential_visit_lt h hrank hcons hdesc hP hw) _
  | @enter p inside c ahead hw =>
    have hle : potential rank ⟨p.values, c, p.iterations⟩ ≤ allowance n steps :=
      potential_start_le hrank hP (hnodup c List.mem_cons_self) p.iterations
    simp only [List.length_cons, Nat.succ_mul]
    omega

-- No run goes on forever.
theorem Sound.acc [LawfulMeet α] (hf : f.IsMonotone) (h : f.Closed g top P)
    (hrank : IsRank P rank steps) (hs : Sound f g top P s) :
    Acc (fun next s => f.Step g top s next) s := by
  induction hk : s.remaining rank steps using Nat.strongRecOn generalizing s with
  | ind k ih =>
    refine .intro s fun next hstep => ?_
    exact ih _ (hk ▸ hstep.remaining_lt h hrank hs) (hs.step hf h hstep) rfl

theorem Reached.settle {p : Progress α n} {inside : Vector Bool n} {ahead : List (List (Fin n))}
    (h : f.Reached g top cs ⟨p, inside, ahead⟩) (allowance : Nat) :
    f.Reached g top cs ⟨f.settle g top inside allowance p, inside, ahead⟩ :=
  settle_induction (fun q => f.Reached g top cs ⟨q, inside, ahead⟩)
    (fun _ _ _ hw hq => hq.tail (.visit hw)) h

theorem Reached.solveComponent {allowance : Nat} {c : List (Fin n)} {ahead : List (List (Fin n))}
    {o : Outcome α n} {inside : Vector Bool n}
    (h : f.Reached g top cs ⟨⟨o.values, [], o.iterations⟩, inside, c :: ahead⟩)
    (hsettled : (f.solveComponent g top allowance o c).settled = true) :
    f.Reached g top cs ⟨⟨(f.solveComponent g top allowance o c).values, [],
      (f.solveComponent g top allowance o c).iterations⟩, mark (.replicate n false) c, ahead⟩ := by
  have hentered : f.Reached g top cs
      ⟨⟨o.values, c, o.iterations⟩, mark (.replicate n false) c, ahead⟩ := h.tail (.enter rfl)
  have hvisited := hentered.settle allowance
  have hempty := (settled_solveComponent_iff.mp hsettled).2
  rw [← hempty]
  exact hvisited

theorem Reached.foldl {allowance : Nat} {ahead : List (List (Fin n))} {o : Outcome α n}
    {inside : Vector Bool n} (h : f.Reached g top cs ⟨⟨o.values, [], o.iterations⟩, inside, ahead⟩)
    (hsettled : (ahead.foldl (f.solveComponent g top allowance) o).settled = true) :
    ∃ inside, f.Reached g top cs
      ⟨⟨(ahead.foldl (f.solveComponent g top allowance) o).values, [],
        (ahead.foldl (f.solveComponent g top allowance) o).iterations⟩, inside, []⟩ := by
  induction ahead generalizing o inside with
  | nil => exact ⟨inside, h⟩
  | cons c ahead ih => exact ih (h.solveComponent (settled_of_foldl hsettled)) hsettled

-- What the solver returns within its allowance is where the run ends.
theorem reached_solveAlong {allowance : Nat}
    (hsettled : (f.solveAlong g top allowance cs).settled = true) :
    ∃ inside, f.Reached g top cs ⟨⟨(f.solveAlong g top allowance cs).values, [],
      (f.solveAlong g top allowance cs).iterations⟩, inside, []⟩ :=
  Reached.foldl (o := f.initial g top) .refl hsettled

theorem not_step_of_last {values : Vector α n} {iterations : Nat} {inside : Vector Bool n} :
    ¬f.Step g top ⟨⟨values, [], iterations⟩, inside, []⟩ next := by
  intro h
  cases h with
  | visit hw => cases hw

end FlowFunctions

end LabelInference.Dataflow

import LabelInference.Lattice.Level
import LabelInference.Proofs.Dataflow.Component
import LabelInference.Proofs.Dataflow.Worklist

namespace LabelInference.Dataflow

universe u v w

namespace FlowFunctions

variable {n : Nat} {ν : Type u} {ε : Type v} {α : Type w} [Meet α] [DecidableEq α]

-- The solver with its components in a given order.
def solveAlong (f : FlowFunctions ν ε α) (g : Graph n ν ε) (top : α) (allowance : Nat)
    (cs : List (List (Fin n))) : Outcome α n :=
  cs.foldl (f.solveComponent g top allowance) (f.initial g top)

variable {f : FlowFunctions ν ε α} {g : Graph n ν ε} {top : α} {allowance : Nat}
variable {o : Outcome α n} {c : List (Fin n)} {cs : List (List (Fin n))}

theorem solve_eq_solveAlong :
    f.solve g top allowance = f.solveAlong g top allowance g.components := rfl

theorem get_solveComponent_of_not_mem (hc : c.Nodup) {v : Fin n} (hv : v ∉ c) :
    (f.solveComponent g top allowance o c).values.get v = o.values.get v := by
  refine (Consistent.start hc o).get_settle (Bool.eq_false_iff.mpr fun hmark => ?_)
  exact hv (get_mark_replicate.mp hmark)

theorem get_foldl_solveComponent (hnodup : ∀ c ∈ cs, c.Nodup) {v : Fin n} (hv : ∀ c ∈ cs, v ∉ c) :
    (cs.foldl (f.solveComponent g top allowance) o).values.get v = o.values.get v := by
  induction cs generalizing o with
  | nil => rfl
  | cons c cs ih =>
    rw [List.forall_mem_cons] at hnodup hv
    rw [List.foldl_cons, ih hnodup.2 hv.2, get_solveComponent_of_not_mem hnodup.1 hv.1]

theorem settled_solveComponent_iff :
    (f.solveComponent g top allowance o c).settled = true ↔ o.settled = true ∧
      (f.settle g top (mark (.replicate n false) c) allowance
        ⟨o.values, c, o.iterations⟩).waiting = [] := by
  simp [solveComponent]

theorem settled_of_foldl (h : (cs.foldl (f.solveComponent g top allowance) o).settled = true) :
    o.settled = true := by
  induction cs generalizing o with
  | nil => exact h
  | cons c cs ih =>
    have hc : (f.solveComponent g top allowance o c).settled = true := ih h
    exact (settled_solveComponent_iff.mp hc).1

theorem balanced_solveComponent (hc : c.Nodup)
    (hsettled : (f.solveComponent g top allowance o c).settled = true) {v : Fin n} (hv : v ∈ c) :
    (f.solveComponent g top allowance o c).values.get v =
      f.image g top (f.solveComponent g top allowance o c).values.get v := by
  have hempty := (settled_solveComponent_iff.mp hsettled).2
  refine ((Consistent.start hc o).settle allowance).balanced v (get_mark_replicate.mpr hv) ?_
  rw [hempty]
  exact List.not_mem_nil

-- Later components change neither the members of this one nor what these read.
theorem balanced_foldl (hnodup : ∀ c ∈ cs, c.Nodup)
    (hforward : cs.Pairwise fun c d => List.Disjoint c d ∧ ∀ u ∈ c, ∀ w ∈ g.predecessors u, w ∉ d)
    (hsettled : (cs.foldl (f.solveComponent g top allowance) o).settled = true)
    (hc : c ∈ cs) {v : Fin n} (hv : v ∈ c) :
    (cs.foldl (f.solveComponent g top allowance) o).values.get v =
      f.image g top (cs.foldl (f.solveComponent g top allowance) o).values.get v := by
  induction cs generalizing o with
  | nil => cases hc
  | cons d cs ih =>
    rw [List.forall_mem_cons] at hnodup
    rw [List.pairwise_cons] at hforward
    rw [List.foldl_cons] at hsettled ⊢
    rcases List.mem_cons.mp hc with rfl | hc
    · have hbalanced := balanced_solveComponent hnodup.1 (settled_of_foldl hsettled) hv
      generalize f.solveComponent g top allowance o c = o' at hbalanced ⊢
      have hvalue : (cs.foldl (f.solveComponent g top allowance) o').values.get v =
          o'.values.get v :=
        get_foldl_solveComponent hnodup.2 fun d hd hvd => (hforward.1 d hd).1 hv hvd
      have himage : f.image g top (cs.foldl (f.solveComponent g top allowance) o').values.get v =
          f.image g top o'.values.get v :=
        image_congr fun u hu =>
          get_foldl_solveComponent hnodup.2 fun d hd => (hforward.1 d hd).2 v hv u hu
      rw [hvalue, himage]
      exact hbalanced
    · exact ih hnodup.2 hforward.2 hsettled hc

-- Monotone or not, and in any order of components in which no arc leads back: once every queue has been
-- worked off, every equation holds.
theorem solveAlong_balanced (hcs : g.IsLayering cs)
    (h : (f.solveAlong g top allowance cs).settled = true) (v : Fin n) :
    (f.solveAlong g top allowance cs).values.get v =
      f.image g top (f.solveAlong g top allowance cs).values.get v := by
  obtain ⟨c, hc, hv⟩ := hcs.covers v
  exact balanced_foldl hcs.nodup hcs.forward h hc hv

-- A rule for the values alone, over all components.
theorem values_foldl_induction (P : Vector α n → Prop)
    (hset : ∀ values v, P values → P (values.set v.val (f.image g top values.get v) v.isLt))
    (h : P o.values) : P (cs.foldl (f.solveComponent g top allowance) o).values := by
  induction cs generalizing o with
  | nil => exact h
  | cons c cs ih => exact ih (values_settle_induction P hset h)

-- What the equations hand on from all values to each value holds of the values reached, settled or not.
theorem forall_solveAlong {P : Fin n → α → Prop}
    (himage : ∀ x : Fin n → α, (∀ u, P u (x u)) → ∀ v, P v (f.image g top x v))
    (hinitial : ∀ v, P v (f.transfer (g.nodes.get v) top)) :
    ∀ v, P v ((f.solveAlong g top allowance cs).values.get v) := by
  refine values_foldl_induction (fun values => ∀ v, P v (values.get v))
    (fun values v h => forall_get_set h (himage values.get h v)) fun v => ?_
  rw [get_initial]
  exact hinitial v

variable [LawfulMeet α]

theorem Descending.solveComponent (hf : f.IsMonotone) (h : f.Descending g top o.values) :
    f.Descending g top (f.solveComponent g top allowance o c).values :=
  values_settle_induction (f.Descending g top) (fun _ v h => h.set hf v) h

-- Every map below its own equations is below the values reached, settled or not.
theorem below_solveAlong (hf : f.IsMonotone) {m : Fin n → α}
    (hm : ∀ v, Below (m v) (f.image g top m v)) :
    ∀ v, Below (m v) ((f.solveAlong g top allowance cs).values.get v) :=
  forall_solveAlong (P := fun v => Below (m v)) (fun _ h v => (hm v).trans (image_mono hf h v))
    fun v => (hm v).trans (image_below_transfer_top hf m v)

theorem below_of_settled (hf : f.IsMonotone) (hcs : g.IsLayering cs)
    (h : (f.solveAlong g top allowance cs).settled = true) (ds : List (List (Fin n))) (limit : Nat)
    (v : Fin n) :
    Below ((f.solveAlong g top allowance cs).values.get v)
      ((f.solveAlong g top limit ds).values.get v) := by
  refine below_solveAlong hf (fun v => ?_) v
  rw [← solveAlong_balanced hcs h v]
  exact Below.refl _

-- With monotone functions the values do not depend on the order of the components: those reached along one
-- order solve the equations, so that they are below those reached along any other.
theorem values_eq_of_settled (hf : f.IsMonotone) {ds : List (List (Fin n))} {limit : Nat}
    (hcs : g.IsLayering cs) (hds : g.IsLayering ds)
    (hc : (f.solveAlong g top allowance cs).settled = true)
    (hd : (f.solveAlong g top limit ds).settled = true) :
    (f.solveAlong g top allowance cs).values = (f.solveAlong g top limit ds).values := by
  refine Vector.ext fun i hi => ?_
  have hto := below_of_settled hf hcs hc ds limit ⟨i, hi⟩
  have hback := below_of_settled hf hds hd cs allowance ⟨i, hi⟩
  exact hto.antisymm hback

theorem exists_foldl (hf : f.IsMonotone) (hwf : WellFounded (StrictlyBelow : α → α → Prop))
    (hdesc : f.Descending g top o.values) (hsettled : o.settled = true) :
    ∃ final : Outcome α n, final.settled = true ∧ ∃ bound, ∀ allowance, bound ≤ allowance →
      cs.foldl (f.solveComponent g top allowance) o = final := by
  induction cs generalizing o with
  | nil => exact ⟨o, hsettled, 0, fun _ _ => rfl⟩
  | cons c cs ih =>
    obtain ⟨k, hk⟩ : ∃ k, (f.settle g top (mark (.replicate n false) c) k
        ⟨o.values, c, o.iterations⟩).waiting = [] :=
      exists_settle hf hwf hdesc
    have hc : ∀ allowance, k ≤ allowance →
        f.solveComponent g top allowance o c = f.solveComponent g top k o c := by
      intro allowance hle
      simp only [solveComponent, settle_eq_of_le hk hle]
    have hsettled' : (f.solveComponent g top k o c).settled = true :=
      settled_solveComponent_iff.mpr ⟨hsettled, hk⟩
    obtain ⟨final, hfinal, bound, hbound⟩ := ih (hdesc.solveComponent hf) hsettled'
    refine ⟨final, hfinal, max k bound, fun allowance hle => ?_⟩
    rw [List.foldl_cons, hc allowance (by omega)]
    exact hbound allowance (by omega)

theorem exists_solveAlong (hf : f.IsMonotone) (hwf : WellFounded (StrictlyBelow : α → α → Prop))
    (g : Graph n ν ε) (top : α) (cs : List (List (Fin n))) :
    ∃ o : Outcome α n, o.settled = true ∧ ∃ bound, ∀ allowance, bound ≤ allowance →
      f.solveAlong g top allowance cs = o :=
  exists_foldl hf hwf (Descending.initial hf) rfl

-- Where no value can fall forever, the solver ends: some number of visits is enough, and what it then
-- returns solves the equations and is above all that lies below its own equations. Along any other order
-- of components in which no arc leads back it ends with the same values.
theorem solve_ends_greatest (hf : f.IsMonotone)
    (hwf : WellFounded (StrictlyBelow : α → α → Prop)) (g : Graph n ν ε) (top : α) :
    ∃ o : Outcome α n,
      (∃ bound, ∀ allowance, bound ≤ allowance → f.solve g top allowance = o) ∧
      o.settled = true ∧
      (∀ v, o.values.get v = f.image g top o.values.get v) ∧
      (∀ m : Fin n → α, (∀ v, Below (m v) (f.image g top m v)) →
        ∀ v, Below (m v) (o.values.get v)) ∧
      ∀ cs, g.IsLayering cs → ∃ along : Outcome α n,
        (∃ bound, ∀ allowance, bound ≤ allowance → f.solveAlong g top allowance cs = along) ∧
        along.settled = true ∧ along.values = o.values := by
  obtain ⟨o, ho, bound, hbound⟩ := exists_solveAlong hf hwf g top g.components
  obtain rfl := hbound bound (Nat.le_refl bound)
  refine ⟨_, ⟨bound, hbound⟩, ho, ?_, fun m hm => below_solveAlong hf hm, fun cs hcs => ?_⟩
  · exact solveAlong_balanced g.components_isLayering ho
  · obtain ⟨along, halong, limit, hlimit⟩ := exists_solveAlong hf hwf g top cs
    obtain rfl := hlimit limit (Nat.le_refl limit)
    exact ⟨_, ⟨limit, hlimit⟩, halong,
      values_eq_of_settled hf hcs g.components_isLayering halong ho⟩

end FlowFunctions

section Level

theorem Level.below_iff {a b : Level} : Below a b ↔ a.rank ≤ b.rank := by
  obtain ⟨a⟩ := a
  obtain ⟨b⟩ := b
  simp [Below, meet]

instance : LawfulMeet Level where
  meet_comm a b := by simp [meet, Nat.min_comm]
  meet_assoc a b c := by simp [meet, Nat.min_assoc]
  meet_self a := by simp [meet]

theorem Level.strictlyBelow_wellFounded : WellFounded (StrictlyBelow : Level → Level → Prop) := by
  refine Subrelation.wf (fun {a b} h => ?_) (measure Level.rank).wf
  have hle := Level.below_iff.mp h.1
  have hne : a.rank ≠ b.rank := fun heq => h.2 (by cases a; cases b; cases heq; rfl)
  exact Nat.lt_of_le_of_ne hle hne

-- A cycle of two nodes with a loop and a parallel arc; an arc caps the level that it passes on.
theorem FlowFunctions.solve_ends_greatest_cycle :
    let f : FlowFunctions (Option Level) Nat Level :=
      ⟨fun node input => node.getD input, fun bound l => meet l ⟨bound⟩⟩
    let g : Graph 2 (Option Level) Nat :=
      .ofArcs #v[none, none] [⟨0, 1, 3⟩, ⟨0, 1, 5⟩, ⟨1, 0, 4⟩, ⟨1, 1, 7⟩]
    let top : Level := ⟨6⟩
    f.IsMonotone ∧ WellFounded (StrictlyBelow : Level → Level → Prop) ∧
      ∃ o : Outcome Level 2,
        (∃ bound, ∀ allowance, bound ≤ allowance → f.solve g top allowance = o) ∧
        o.settled = true ∧
        (∀ v, o.values.get v = f.image g top o.values.get v) ∧
        (∀ m : Fin 2 → Level, (∀ v, Below (m v) (f.image g top m v)) →
          ∀ v, Below (m v) (o.values.get v)) ∧
        ∀ cs, g.IsLayering cs → ∃ along : Outcome Level 2,
          (∃ bound, ∀ allowance, bound ≤ allowance → f.solveAlong g top allowance cs = along) ∧
          along.settled = true ∧ along.values = o.values := by
  intro f g top
  have hf : f.IsMonotone :=
    { transfer := by
        rintro (_ | l) a b h
        · exact h
        · exact Below.refl l
      propagate := fun bound _ _ h => h.meet (Below.refl (Level.mk bound)) }
  exact ⟨hf, Level.strictlyBelow_wellFounded,
    solve_ends_greatest hf Level.strictlyBelow_wellFounded g top⟩

end Level

end LabelInference.Dataflow

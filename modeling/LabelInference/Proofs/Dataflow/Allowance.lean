import LabelInference.Proofs.Dataflow.Fixpoint
import Mathlib.Algebra.BigOperators.Fin
import Mathlib.Algebra.Order.BigOperators.Group.Finset

namespace LabelInference.Dataflow

universe u v w

variable {n : Nat} {ν : Type u} {ε : Type v} {α : Type w}

-- A measure of strict descent within a set of values.
structure IsRank [Meet α] (P : α → Prop) (rank : α → Nat) (steps : Nat) : Prop where
  lt : ∀ {a b}, P a → P b → StrictlyBelow a b → rank a < rank b
  le : ∀ {a}, P a → rank a ≤ steps

-- What can still happen: the waiting nodes are visited, and each time a value falls at most all nodes
-- wait again.
def potential (rank : α → Nat) (p : Progress α n) : Nat :=
  p.waiting.length + n * ∑ v, rank (p.values.get v)

theorem length_le_of_nodup {vs : List (Fin n)} (h : vs.Nodup) : vs.length ≤ n := by
  have hcard := h.length_le_card
  rwa [Fintype.card_fin] at hcard

namespace FlowFunctions

variable [Meet α]

-- A set of values that the right-hand sides of the equations do not lead out of.
structure Closed (f : FlowFunctions ν ε α) (g : Graph n ν ε) (top : α) (P : α → Prop) : Prop where
  top : P top
  meet : ∀ {a b}, P a → P b → P (meet a b)
  transfer : ∀ v {a}, P a → P (f.transfer (g.nodes.get v) a)
  propagate : ∀ arc ∈ g.arcs, ∀ {a}, P a → P (f.propagate arc.label a)

variable {f : FlowFunctions ν ε α} {g : Graph n ν ε} {top : α} {P : α → Prop}

theorem Closed.image (h : f.Closed g top P) {x : Fin n → α} (hx : ∀ u, P (x u)) (v : Fin n) :
    P (f.image g top x v) := by
  have hfold : ∀ (arcs : List (Arc n ε)) (acc : α), P acc → (∀ arc ∈ arcs, arc ∈ g.arcs) →
      P (arcs.foldl (fun acc arc =>
        LabelInference.meet acc (f.propagate arc.label (x arc.source))) acc) := by
    intro arcs
    induction arcs with
    | nil => exact fun acc hacc _ => hacc
    | cons arc arcs ih =>
      intro acc hacc harcs
      rw [List.forall_mem_cons] at harcs
      exact ih _ (h.meet hacc (h.propagate arc harcs.1 (hx arc.source))) harcs.2
  exact h.transfer v (hfold _ top h.top fun arc harc => (Graph.mem_incoming.mp harc).1)

theorem Closed.set (h : f.Closed g top P) {values : Vector α n} (hP : ∀ u, P (values.get u))
    (v u : Fin n) : P ((values.set v.val (f.image g top values.get v) v.isLt).get u) :=
  forall_get_set (P := fun _ => P) hP (h.image hP v) u

theorem Closed.initial (h : f.Closed g top P) (v : Fin n) : P ((f.initial g top).values.get v) := by
  rw [get_initial]
  exact h.transfer v h.top

variable {rank : α → Nat} {steps : Nat}

theorem potential_start_le (hrank : IsRank P rank steps) {values : Vector α n}
    (hP : ∀ u, P (values.get u)) {c : List (Fin n)} (hc : c.Nodup) (iterations : Nat) :
    potential rank ⟨values, c, iterations⟩ ≤ allowance n steps := by
  have hsum : ∑ u, rank (values.get u) ≤ n * steps := by
    have hle := Finset.sum_le_card_nsmul Finset.univ (fun u => rank (values.get u)) steps
      fun u _ => hrank.le (hP u)
    rwa [Finset.card_univ, Fintype.card_fin, smul_eq_mul] at hle
  have hmul := Nat.mul_le_mul_left n hsum
  have hlength := length_le_of_nodup hc
  unfold potential allowance
  rw [Nat.mul_assoc]
  exact Nat.add_le_add hlength hmul

variable [DecidableEq α] {inside : Vector Bool n}

theorem potential_visit_lt (h : f.Closed g top P) (hrank : IsRank P rank steps) {p : Progress α n}
    (hcons : Consistent f g top inside p) (hdesc : f.Descending g top p.values)
    (hP : ∀ u, P (p.values.get u)) {v : Fin n} {rest : List (Fin n)} (hw : p.waiting = v :: rest) :
    potential rank (f.visit g top inside v rest p) < potential rank p := by
  unfold potential
  have hlength := length_le_of_nodup (hcons.visit hw).nodup
  have hwait : p.waiting.length = rest.length + 1 := by rw [hw]; rfl
  rcases hdesc.visit v rest with ⟨hvalues, hrest⟩ | hlower
  · rw [hvalues, hrest]
    omega
  · have hv : (f.visit g top inside v rest p).values.get v = f.image g top p.values.get v := by
      rw [values_visit, get_set_self]
    have hfall : rank ((f.visit g top inside v rest p).values.get v) < rank (p.values.get v) := by
      rw [hv]
      exact hrank.lt (h.image hP v) (hP v) hlower
    have hsum : ∑ u, rank ((f.visit g top inside v rest p).values.get u) <
        ∑ u, rank (p.values.get u) := by
      refine Finset.sum_lt_sum (fun u _ => ?_) ⟨v, Finset.mem_univ v, hfall⟩
      by_cases huv : u = v
      · subst huv
        exact hfall.le
      · rw [values_visit, get_set_of_ne huv]
    have hmul := Nat.mul_le_mul_left n (Nat.succ_le_of_lt hsum)
    rw [Nat.mul_succ] at hmul
    omega

theorem settle_waiting_eq_nil [LawfulMeet α] (hf : f.IsMonotone) (h : f.Closed g top P)
    (hrank : IsRank P rank steps) {allowance : Nat} {p : Progress α n}
    (hcons : Consistent f g top inside p) (hdesc : f.Descending g top p.values)
    (hP : ∀ u, P (p.values.get u)) (hle : potential rank p ≤ allowance) :
    (f.settle g top inside allowance p).waiting = [] := by
  induction allowance generalizing p with
  | zero =>
    have hzero : p.waiting.length = 0 := by unfold potential at hle; omega
    exact List.eq_nil_of_length_eq_zero hzero
  | succ allowance ih =>
    cases hw : p.waiting with
    | nil => rw [settle_of_nil hw, hw]
    | cons v rest =>
      have hlt := potential_visit_lt h hrank hcons hdesc hP hw
      rw [settle_of_cons hw]
      apply ih (hcons.visit hw)
      · rw [values_visit]
        exact hdesc.set hf v
      · rw [values_visit]
        exact h.set hP v
      · omega

theorem settled_foldl [LawfulMeet α] (hf : f.IsMonotone) (h : f.Closed g top P)
    (hrank : IsRank P rank steps) {cs : List (List (Fin n))} (hcs : ∀ c ∈ cs, c.Nodup)
    {o : Outcome α n} (hdesc : f.Descending g top o.values) (hP : ∀ u, P (o.values.get u))
    (hsettled : o.settled = true) :
    (cs.foldl (f.solveComponent g top (allowance n steps)) o).settled = true := by
  induction cs generalizing o with
  | nil => exact hsettled
  | cons c cs ih =>
    rw [List.forall_mem_cons] at hcs
    have hempty := settle_waiting_eq_nil hf h hrank (.start hcs.1 o) hdesc hP
      (potential_start_le hrank hP hcs.1 o.iterations)
    apply ih hcs.2 (hdesc.solveComponent hf)
    · exact values_settle_induction (fun values => ∀ u, P (values.get u)) (fun _ v hP => h.set hP v) hP
    · exact settled_solveComponent_iff.mpr ⟨hsettled, hempty⟩

-- The allowance never cuts the iteration off.
theorem solveAlong_settled [LawfulMeet α] (hf : f.IsMonotone) (h : f.Closed g top P)
    (hrank : IsRank P rank steps) {cs : List (List (Fin n))} (hcs : g.IsLayering cs) :
    (f.solveAlong g top (allowance n steps) cs).settled = true :=
  settled_foldl hf h hrank hcs.nodup (Descending.initial hf) h.initial rfl

end FlowFunctions

end LabelInference.Dataflow

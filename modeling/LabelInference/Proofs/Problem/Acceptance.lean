import LabelInference.Problem.Solving
import LabelInference.Proofs.Label.Flow
import LabelInference.Proofs.Term.Offence

namespace LabelInference

namespace Connective

-- What a connective of labels is on the terms of a component.
def on (k : Connective) : Label.Component → Connective
  | .confidentiality => k.dual
  | .integrity => k

theorem on_eq_on_iff {j k : Connective} {c : Label.Component} : j.on c = k.on c ↔ j = k := by
  cases j <;> cases k <;> cases c <;> decide

end Connective

def ComponentVariable.ofBase {ν : Type} : Label.Component → ν → ComponentVariable ν
  | .confidentiality, x => .confidentiality x
  | .integrity, x => .integrity x

theorem ComponentVariable.ofBase_eq_iff {ν : Type} {c : Label.Component} {x y : ν} :
    ofBase c x = ofBase c y ↔ x = y := by
  cases c <;> simp [ofBase]

namespace LabelExpr

def list : Connective → List LabelExpr → LabelExpr
  | .join, operands => .join operands
  | .meet, operands => .meet operands

theorem list_eq_list_iff {j k : Connective} {es fs : List LabelExpr} :
    list j es = list k fs ↔ j = k ∧ es = fs := by
  cases j <;> cases k <;> simp [list]

inductive IsConstant : LabelExpr → Prop where
  | host (name : String) : IsConstant (.host name)
  | label (confidentiality integrity : PrincipalExpr) : IsConstant (.label confidentiality integrity)
  | top : IsConstant .top
  | bottom : IsConstant .bottom

@[elab_as_elim]
theorem inductionOn {P : LabelExpr → Prop} (e : LabelExpr) (constant : ∀ e, e.IsConstant → P e)
    (var : ∀ name, P (.var name)) (list : ∀ k es, (∀ e ∈ es, P e) → P (list k es)) : P e :=
  @LabelExpr.rec P (fun es => ∀ e ∈ es, P e) (fun name => constant _ (.host name)) var
    (fun c i => constant _ (.label c i)) (list .join) (list .meet) (constant _ .top)
    (constant _ .bottom) (fun _ h => absurd h List.not_mem_nil)
    (fun _ _ he hes => List.forall_mem_cons.mpr ⟨he, hes⟩) e

-- The expression occurs in another one, at any depth.
inductive Within (part : LabelExpr) : LabelExpr → Prop where
  | self : Within part part
  | join {e : LabelExpr} {es : List LabelExpr} (he : e ∈ es) (h : Within part e) :
      Within part (.join es)
  | meet {e : LabelExpr} {es : List LabelExpr} (he : e ∈ es) (h : Within part e) :
      Within part (.meet es)

def Mentions (e : LabelExpr) (x : String) : Prop := (var x).Within e

-- Two operands mention an unknown each, and not the same one.
def Clashing (es : List LabelExpr) : Prop :=
  ∃ (i j : Nat) (hi : i < es.length) (hj : j < es.length), i ≠ j ∧
    ∃ x y, es[i].Mentions x ∧ es[j].Mentions y ∧ x ≠ y

def HasClash (k : Connective) (e : LabelExpr) : Prop := ∃ es, (list k es).Within e ∧ Clashing es

theorem within_list_iff {part : LabelExpr} {k : Connective} {es : List LabelExpr} :
    part.Within (list k es) ↔ part = list k es ∨ ∃ e ∈ es, part.Within e := by
  constructor
  · intro h
    cases k with
    | join =>
      cases h with
      | self => exact .inl rfl
      | join he h => exact .inr ⟨_, he, h⟩
    | meet =>
      cases h with
      | self => exact .inl rfl
      | meet he h => exact .inr ⟨_, he, h⟩
  · rintro (rfl | ⟨e, he, h⟩)
    · exact .self
    · cases k with
      | join => exact .join he h
      | meet => exact .meet he h

theorem mentions_list_iff {k : Connective} {es : List LabelExpr} {x : String} :
    (list k es).Mentions x ↔ ∃ e ∈ es, e.Mentions x := by
  have hne : var x ≠ list k es := by cases k <;> simp [list]
  exact within_list_iff.trans (or_iff_right hne)

theorem hasClash_list_iff {j k : Connective} {es : List LabelExpr} :
    (list j es).HasClash k ↔ (∃ e ∈ es, e.HasClash k) ∨ k = j ∧ Clashing es := by
  constructor
  · rintro ⟨fs, hwithin, hclash⟩
    rcases within_list_iff.mp hwithin with heq | ⟨e, he, hwithin⟩
    · obtain ⟨hkj, rfl⟩ := list_eq_list_iff.mp heq
      exact .inr ⟨hkj, hclash⟩
    · exact .inl ⟨e, he, fs, hwithin, hclash⟩
  · rintro (⟨e, he, fs, hwithin, hclash⟩ | ⟨rfl, hclash⟩)
    · exact ⟨fs, within_list_iff.mpr (.inr ⟨e, he, hwithin⟩), hclash⟩
    · exact ⟨es, .self, hclash⟩

theorem IsConstant.eq_of_within {part e : LabelExpr} (he : e.IsConstant) (h : part.Within e) :
    part = e := by
  cases he <;> cases h <;> rfl

theorem IsConstant.not_mentions {e : LabelExpr} (he : e.IsConstant) (x : String) : ¬e.Mentions x := by
  intro h
  rw [← he.eq_of_within h] at he
  cases he

theorem IsConstant.not_hasClash {e : LabelExpr} (he : e.IsConstant) (k : Connective) :
    ¬e.HasClash k := by
  rintro ⟨es, h, _⟩
  rw [← he.eq_of_within h] at he
  cases k <;> cases he

theorem mentions_var_iff {x y : String} : (var y).Mentions x ↔ x = y := by
  constructor
  · intro h
    cases h
    rfl
  · rintro rfl
    exact .self

theorem not_hasClash_var (k : Connective) (x : String) : ¬(var x).HasClash k := by
  rintro ⟨es, h, _⟩
  cases k <;> cases h

def Agree (e f : LabelExpr) : Prop := ∀ x, e.Mentions x → ∀ y, f.Mentions y → x = y

theorem clashing_iff {es : List LabelExpr} : Clashing es ↔ ¬es.Pairwise Agree := by
  rw [List.pairwise_iff_getElem]
  push Not
  constructor
  · rintro ⟨i, j, hi, hj, hij, x, y, hx, hy, hxy⟩
    rcases Nat.lt_or_gt_of_ne hij with hlt | hlt
    · exact ⟨i, j, hi, hj, hlt, fun hagree => hxy (hagree x hx y hy)⟩
    · exact ⟨j, i, hj, hi, hlt, fun hagree => hxy (hagree y hy x hx).symm⟩
  · rintro ⟨i, j, hi, hj, hlt, hagree⟩
    unfold Agree at hagree
    push Not at hagree
    obtain ⟨x, hx, y, hy, hxy⟩ := hagree
    exact ⟨i, j, hi, hj, Nat.ne_of_lt hlt, x, y, hx, hy, hxy⟩

section Terms

variable {c : Label.Component}

theorem component_joinWith (t : LabelTerm Principal String) (es : List LabelExpr) :
    (joinWith t es).component c =
      (es.map fun e => e.term.component c).foldl (Term.node (Connective.join.on c))
        (t.component c) := by
  induction es generalizing t with
  | nil => rfl
  | cons e es ih =>
    rw [joinWith, ih, List.map_cons, List.foldl_cons]
    cases c <;> rfl

theorem component_meetWith (t : LabelTerm Principal String) (es : List LabelExpr) :
    (meetWith t es).component c =
      (es.map fun e => e.term.component c).foldl (Term.node (Connective.meet.on c))
        (t.component c) := by
  induction es generalizing t with
  | nil => rfl
  | cons e es ih =>
    rw [meetWith, ih, List.map_cons, List.foldl_cons]
    cases c <;> rfl

-- On a component a list is folded with one connective from its first operand.
theorem component_list_cons (k : Connective) (e : LabelExpr) (es : List LabelExpr) :
    (list k (e :: es)).term.component c =
      (es.map fun e => e.term.component c).foldl (Term.node (k.on c)) (e.term.component c) := by
  cases k with
  | join => rw [list, term, component_joinWith]
  | meet => rw [list, term, component_meetWith]

theorem component_list_nil (k : Connective) : ∃ p, (list k []).term.component c = .const p := by
  cases k <;> cases c <;> exact ⟨_, rfl⟩

theorem IsConstant.component_term {e : LabelExpr} (he : e.IsConstant) :
    ∃ p, e.term.component c = .const p := by
  cases he <;> cases c <;> exact ⟨_, rfl⟩

theorem component_var (x : String) : (var x).term.component c = .var (.ofBase c x) := by
  cases c <;> rfl

theorem mem_unknowns_iff {e : LabelExpr} {x : ComponentVariable String} :
    x ∈ (e.term.component c).unknowns ↔ ∃ name, e.Mentions name ∧ x = .ofBase c name := by
  induction e using inductionOn with
  | constant e he =>
    obtain ⟨p, hp⟩ := he.component_term (c := c)
    rw [hp]
    refine iff_of_false List.not_mem_nil ?_
    rintro ⟨name, hname, _⟩
    exact he.not_mentions name hname
  | var name =>
    simp only [component_var, Term.unknowns, List.mem_singleton, mentions_var_iff, exists_eq_left]
  | list k es ih =>
    have hlist : (∃ name, (list k es).Mentions name ∧ x = .ofBase c name) ↔
        ∃ e ∈ es, x ∈ (e.term.component c).unknowns := by
      simp only [mentions_list_iff]
      constructor
      · rintro ⟨name, ⟨e, he, hname⟩, rfl⟩
        exact ⟨e, he, (ih e he).mpr ⟨name, hname, rfl⟩⟩
      · rintro ⟨e, he, hx⟩
        obtain ⟨name, hname, rfl⟩ := (ih e he).mp hx
        exact ⟨name, ⟨e, he, hname⟩, rfl⟩
    rw [hlist]
    cases es with
    | nil =>
      obtain ⟨p, hp⟩ := component_list_nil (c := c) k
      simp [hp, Term.unknowns]
    | cons e es =>
      rw [component_list_cons, Term.mem_unknowns_foldl_node]
      simp

theorem exists_mentions_of_ne {e : LabelExpr} {x y : ComponentVariable String}
    (hx : x ∈ (e.term.component c).unknowns) (hy : y ∈ (e.term.component c).unknowns) (hne : x ≠ y) :
    ∃ a b, a ≠ b ∧ e.Mentions a ∧ e.Mentions b ∧ x = .ofBase c a ∧ y = .ofBase c b := by
  obtain ⟨a, ha, hxa⟩ := mem_unknowns_iff.mp hx
  obtain ⟨b, hb, hyb⟩ := mem_unknowns_iff.mp hy
  have hab : a ≠ b := by
    rintro rfl
    exact hne (hxa.trans hyb.symm)
  exact ⟨a, b, hab, ha, hb, hxa, hyb⟩

theorem agree_component_iff {e f : LabelExpr} :
    (e.term.component c).Agree (f.term.component c) ↔ e.Agree f := by
  simp only [Term.Agree, mem_unknowns_iff]
  constructor
  · intro h x hx y hy
    exact ComponentVariable.ofBase_eq_iff.mp (h _ ⟨x, hx, rfl⟩ _ ⟨y, hy, rfl⟩)
  · rintro h _ ⟨x, hx, rfl⟩ _ ⟨y, hy, rfl⟩
    rw [h x hx y hy]

-- Both components clash where the expression does: confidentiality exchanges joins with meets, and the source
-- with the sink.
theorem clashes_component_iff {k : Connective} {e : LabelExpr} :
    (e.term.component c).Clashes (k.on c) ↔ e.HasClash k := by
  induction e using inductionOn with
  | constant e he =>
    obtain ⟨p, hp⟩ := he.component_term (c := c)
    rw [hp]
    exact iff_of_false id (he.not_hasClash k)
  | var x =>
    rw [component_var]
    exact iff_of_false id (not_hasClash_var k x)
  | list j es ih =>
    rw [hasClash_list_iff, clashing_iff]
    cases es with
    | nil =>
      obtain ⟨p, hp⟩ := component_list_nil (c := c) j
      rw [hp]
      simp [Term.Clashes]
    | cons e es =>
      have hcons : (e.term.component c :: es.map fun e => e.term.component c) =
          (e :: es).map fun e => e.term.component c := rfl
      rw [component_list_cons, Term.clashes_foldl_node_iff, Connective.on_eq_on_iff, hcons,
        List.pairwise_map]
      refine or_congr ?_ ?_
      · simp only [List.mem_map, exists_exists_and_eq_and]
        exact exists_congr fun f => and_congr_right fun hf => ih f hf
      · simp only [agree_component_iff]

end Terms

end LabelExpr

-- The flow cannot be cut into bounds on single unknowns: two operands of one meet of the source
-- disagree, or two operands of one join of the sink.
def FlowConstraint.IsIllegal (c : FlowConstraint) : Prop :=
  c.source.HasClash .meet ∨ c.sink.HasClash .join

namespace FlowConstraint

variable {ρ : Type} {b : Bounds Principal} {c : FlowConstraint}
  {report : Label Principal → Label Principal → ρ}

theorem exists_confidentialityFlow_iff :
    (∃ k, LabelTerm.confidentialityFlow b c.source.term c.sink.term report = .ok k) ↔
      ¬c.IsIllegal := by
  have hsink := LabelExpr.clashes_component_iff (c := .confidentiality) (k := .join) (e := c.sink)
  have hsource := LabelExpr.clashes_component_iff (c := .confidentiality) (k := .meet) (e := c.source)
  refine Constraint.exists_below_iff.trans ?_
  rw [IsIllegal, not_or, ← hsink, ← hsource, and_comm]
  rfl

theorem exists_integrityFlow_iff :
    (∃ k, LabelTerm.integrityFlow b c.source.term c.sink.term report = .ok k) ↔ ¬c.IsIllegal := by
  have hsink := LabelExpr.clashes_component_iff (c := .integrity) (k := .join) (e := c.sink)
  have hsource := LabelExpr.clashes_component_iff (c := .integrity) (k := .meet) (e := c.source)
  refine Constraint.exists_below_iff.trans ?_
  rw [IsIllegal, not_or, ← hsink, ← hsource]
  rfl

theorem exists_flow_iff :
    (∃ ks, LabelTerm.flow b c.source.term c.sink.term report = .ok ks) ↔ ¬c.IsIllegal := by
  unfold LabelTerm.flow
  simp only [exists_bind_ok_iff]
  constructor
  · rintro ⟨k, hk, _⟩
    exact exists_confidentialityFlow_iff.mp ⟨k, hk⟩
  · intro h
    obtain ⟨k, hk⟩ := exists_confidentialityFlow_iff.mpr h
    obtain ⟨l, hl⟩ := exists_integrityFlow_iff.mpr h
    exact ⟨k, hk, l, hl, _, rfl⟩

theorem isIllegal_of_flow_error {e : UnsupportedTerm Principal (ComponentVariable String)}
    (h : LabelTerm.flow b c.source.term c.sink.term report = .error e) : c.IsIllegal := by
  by_contra hlegal
  obtain ⟨ks, hks⟩ := exists_flow_iff.mpr hlegal
  rw [h] at hks
  cases hks

-- Integrity is asked after confidentiality has been accepted, and then it is accepted too. The joins
-- of the sink are asked for before the meets of the source.
theorem flow_error {e : UnsupportedTerm Principal (ComponentVariable String)}
    (h : LabelTerm.flow b c.source.term c.sink.term report = .error e) :
    ∃ x y, x ≠ y ∧
      (c.sink.HasClash .join ∧ c.sink.Mentions x ∧ c.sink.Mentions y ∧
          e = .meetOfDistinctVariables c.sink.term.confidentiality
            (.confidentiality x) (.confidentiality y) ∨
        ¬c.sink.HasClash .join ∧ c.source.Mentions x ∧ c.source.Mentions y ∧
          e = .joinOfDistinctVariables c.source.term.confidentiality
            (.confidentiality x) (.confidentiality y)) := by
  have hreduce : Term.reduce (c.sink.term.component .confidentiality)
      (c.source.term.component .confidentiality) = .error e := by
    rcases bind_error h with hconf | ⟨k, hk, hinteg⟩
    · exact Constraint.below_error hconf
    · obtain ⟨l, hl⟩ := exists_integrityFlow_iff.mpr (exists_confidentialityFlow_iff.mp ⟨k, hk⟩)
      rw [hl] at hinteg
      cases hinteg
  have hsink := LabelExpr.clashes_component_iff (c := .confidentiality) (k := .join) (e := c.sink)
  obtain ⟨x, y, hne, ⟨hclash, hx, hy, he⟩ | ⟨hclash, hx, hy, he⟩⟩ := Term.reduce_error hreduce
  · obtain ⟨a, b, hab, ha, hb, rfl, rfl⟩ := LabelExpr.exists_mentions_of_ne hx hy hne
    exact ⟨a, b, hab, .inl ⟨hsink.mp hclash, ha, hb, he⟩⟩
  · obtain ⟨a, b, hab, ha, hb, rfl, rfl⟩ := LabelExpr.exists_mentions_of_ne hx hy hne
    exact ⟨a, b, hab, .inr ⟨mt hsink.mpr hclash, ha, hb, he⟩⟩

end FlowConstraint

namespace Problem

variable {p : Problem} {e : IllegalConstraint}

theorem not_isIllegal_of_system_ok {s : LabelSystem Principal String Violation}
    (h : p.system = .ok s) : ∀ c ∈ p.constraints, ¬c.IsIllegal := by
  intro c hc
  obtain ⟨_, hlabel, _⟩ := bind_ok h
  obtain ⟨flows, hflows, _⟩ := bind_ok hlabel
  obtain ⟨i, hi, rfl⟩ := List.mem_iff_getElem.mp hc
  have hmem : (p.constraints[i], i) ∈ p.constraints.zipIdx :=
    List.mem_zipIdx_iff_getElem?.mpr (List.getElem?_eq_getElem hi)
  obtain ⟨ks, hks⟩ := exists_mapM_ok_iff.mp ⟨flows, hflows⟩ _ hmem
  exact FlowConstraint.exists_flow_iff.mp ⟨ks, mapError_ok hks⟩

-- The index is that of the first flow that is refused, and the cause is its own.
theorem system_error (h : p.system = .error e) :
    ∃ hindex : e.index < p.constraints.length,
      (∀ i (hi : i < p.constraints.length), i < e.index → ¬p.constraints[i].IsIllegal) ∧
        LabelTerm.flow FreeLattice.bounds p.constraints[e.index].source.term
          p.constraints[e.index].sink.term
          (Violation.mk e.index p.constraints[e.index].reason) = .error e.cause := by
  have hlabel : p.labelConstraints = .error e := by
    rcases bind_error h with hlabel | ⟨_, _, hpure⟩
    · exact hlabel
    · cases hpure
  rcases bind_error hlabel with hflows | ⟨_, _, hpure⟩
  · obtain ⟨index, hindex, hfail, hbefore⟩ := exists_index_of_mapM_error hflows
    simp only [List.length_zipIdx, List.getElem_zipIdx, Nat.zero_add] at hindex hbefore hfail
    obtain ⟨cause, hcause, rfl⟩ := mapError_error hfail
    refine ⟨hindex, fun i hi hlt => ?_, hcause⟩
    obtain ⟨ks, hks⟩ := hbefore i hi hlt
    exact FlowConstraint.exists_flow_iff.mp ⟨ks, mapError_ok hks⟩
  · cases hpure

theorem exists_system_error_iff :
    (∃ e, p.system = .error e) ↔ ∃ c ∈ p.constraints, c.IsIllegal := by
  constructor
  · rintro ⟨e, h⟩
    obtain ⟨hindex, _, hcause⟩ := system_error h
    have hillegal : p.constraints[e.index].IsIllegal := FlowConstraint.isIllegal_of_flow_error hcause
    exact ⟨_, List.getElem_mem hindex, hillegal⟩
  · rintro ⟨c, hc, hillegal⟩
    refine exists_error_iff.mpr ?_
    rintro ⟨s, h⟩
    exact not_isIllegal_of_system_ok h c hc hillegal

-- The refusal is of the first illegal flow and names two unknowns of it, and no flow is refused for its
-- integrity alone.
theorem system_rejects_first_clash (p : Problem) :
    ((∃ e, p.system = .error e) ↔ ∃ c ∈ p.constraints, c.IsIllegal) ∧
      (∀ e, p.system = .error e → ∃ (c : FlowConstraint) (x y : String),
        p.constraints[e.index]? = some c ∧ c.IsIllegal ∧
          (∀ i < e.index, ∀ d, p.constraints[i]? = some d → ¬d.IsIllegal) ∧ x ≠ y ∧
          (c.sink.HasClash .join ∧ c.sink.Mentions x ∧ c.sink.Mentions y ∧
              e.cause = .meetOfDistinctVariables c.sink.term.confidentiality
                (.confidentiality x) (.confidentiality y) ∨
            ¬c.sink.HasClash .join ∧ c.source.Mentions x ∧ c.source.Mentions y ∧
              e.cause = .joinOfDistinctVariables c.source.term.confidentiality
                (.confidentiality x) (.confidentiality y))) ∧
      ∀ (c : FlowConstraint) (report : Label Principal → Label Principal → Violation),
        (∃ k, LabelTerm.confidentialityFlow FreeLattice.bounds c.source.term c.sink.term report =
            .ok k) ↔
          ∃ k, LabelTerm.integrityFlow FreeLattice.bounds c.source.term c.sink.term report = .ok k := by
  refine ⟨exists_system_error_iff, fun e h => ?_, fun c report => ?_⟩
  · obtain ⟨hindex, hbefore, hcause⟩ := system_error h
    obtain ⟨x, y, hne, hnames⟩ := FlowConstraint.flow_error hcause
    refine ⟨_, x, y, List.getElem?_eq_getElem hindex, FlowConstraint.isIllegal_of_flow_error hcause,
      ?_, hne, hnames⟩
    intro i hlt d hd
    obtain ⟨hi, rfl⟩ := List.getElem?_eq_some_iff.mp hd
    exact hbefore i hi hlt
  · exact FlowConstraint.exists_confidentialityFlow_iff.trans
      FlowConstraint.exists_integrityFlow_iff.symm

end Problem

end LabelInference

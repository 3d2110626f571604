import LabelInference.Problem.Document
import Mathlib.Data.List.Nodup

namespace LabelInference

namespace Json

mutual

-- The second tree is the first one, up to the order of members.
inductive Rearranged : Json → Json → Prop
  | null : Rearranged .null .null
  | bool (value : Bool) : Rearranged (.bool value) (.bool value)
  | number (literal : String) : Rearranged (.number literal) (.number literal)
  | string (text : String) : Rearranged (.string text) (.string text)
  | array {xs ys : List Json} (items : ItemsRearranged xs ys) : Rearranged (.array xs) (.array ys)
  | object {ms ns ls : List (String × Json)} (members : MembersRearranged ms ns) (order : ns.Perm ls) :
      Rearranged (.object ms) (.object ls)
  | unreadable : Rearranged .unreadable .unreadable

inductive ItemsRearranged : List Json → List Json → Prop
  | nil : ItemsRearranged [] []
  | cons {x y : Json} {xs ys : List Json} (head : Rearranged x y) (tail : ItemsRearranged xs ys) :
      ItemsRearranged (x :: xs) (y :: ys)

inductive MembersRearranged : List (String × Json) → List (String × Json) → Prop
  | nil : MembersRearranged [] []
  | cons (name : String) {x y : Json} {ms ns : List (String × Json)} (head : Rearranged x y)
      (tail : MembersRearranged ms ns) : MembersRearranged ((name, x) :: ms) ((name, y) :: ns)

end

mutual

theorem Rearranged.refl : ∀ j : Json, Rearranged j j
  | .null => .null
  | .bool value => .bool value
  | .number literal => .number literal
  | .string text => .string text
  | .array items => .array (ItemsRearranged.refl items)
  | .object members => .object (MembersRearranged.refl members) (.refl members)
  | .unreadable => .unreadable

theorem ItemsRearranged.refl : ∀ items : List Json, ItemsRearranged items items
  | [] => .nil
  | item :: rest => .cons (Rearranged.refl item) (ItemsRearranged.refl rest)

theorem MembersRearranged.refl : ∀ members : List (String × Json), MembersRearranged members members
  | [] => .nil
  | (name, value) :: rest => .cons name (Rearranged.refl value) (MembersRearranged.refl rest)

end

theorem MembersRearranged.map_fst {ms ns : List (String × Json)} (h : MembersRearranged ms ns) :
    ns.map Prod.fst = ms.map Prod.fst := by
  induction ms generalizing ns with
  | nil =>
    cases h
    rfl
  | cons m ms ih =>
    cases h with
    | cons name _ tail => rw [List.map_cons, List.map_cons, ih tail]

theorem Rearranged.of_singleton {name : String} {x j : Json} (h : Rearranged (.object [(name, x)]) j) :
    ∃ y, Rearranged x y ∧ j = .object [(name, y)] := by
  cases h with
  | object members order =>
    cases members with
    | cons _ head tail =>
      cases tail
      rw [List.singleton_perm] at order
      exact ⟨_, head, by rw [order]⟩

end Json

-- A member is found by its name wherever it stands, if no other one has that name.
theorem lookup_eq_of_perm {β : Type} {ms ns : List (String × β)} (h : ms.Perm ns)
    (hnodup : (ms.map Prod.fst).Nodup) (name : String) : ns.lookup name = ms.lookup name := by
  induction h with
  | nil => rfl
  | cons m _ ih =>
    rw [List.map_cons, List.nodup_cons] at hnodup
    obtain ⟨key, value⟩ := m
    rw [List.lookup_cons, List.lookup_cons, ih hnodup.2]
  | swap m n rest =>
    obtain ⟨key, value⟩ := m
    obtain ⟨key', value'⟩ := n
    have hne : key' ≠ key := by
      intro heq
      simp [heq] at hnodup
    simp only [List.lookup_cons]
    by_cases hname : name = key
    · subst hname
      simp [beq_false_of_ne hne.symm]
    · simp [beq_false_of_ne hname]
  | trans h _ ih ih' => exact (ih' ((h.map Prod.fst).nodup_iff.mp hnodup)).trans (ih hnodup)

namespace Dialect

open Json

-- A record that has only fields of its own, each at most once, is read by looking the fields up.
theorem fields_of_rearranged (d : Dialect) (skipsExtra : Bool) (names : List String)
    {ms : List (String × Json)} {j : Json} (h : Rearranged (.object ms) j)
    (hnames : ∀ name ∈ ms.map Prod.fst, name ∈ names) (hnodup : (ms.map Prod.fst).Nodup) :
    ∃ ns, MembersRearranged ms ns ∧
      d.fields skipsExtra names j = some (names.map fun name => ns.lookup name) := by
  cases h with
  | @object _ ns ls members order =>
    refine ⟨ns, members, ?_⟩
    rw [← members.map_fst] at hnames hnodup
    have hkeys := order.map Prod.fst
    have hknown : ls.all (fun m => m.1 ∈ names) = true := by
      rw [List.all_eq_true]
      intro m hm
      exact decide_eq_true (hnames m.1 (hkeys.mem_iff.mpr (List.mem_map_of_mem hm)))
    have honce : names.all (fun name => ls.countP (·.1 = name) ≤ 1) = true := by
      rw [List.all_eq_true]
      intro name _
      have hcount := List.nodup_iff_count_le_one.mp (hkeys.nodup_iff.mp hnodup) name
      rw [List.count, List.countP_map] at hcount
      exact decide_eq_true hcount
    have hlookup : ∀ name, ls.lookup name = ns.lookup name := lookup_eq_of_perm order hnodup
    simp only [fields, hknown, honce, hlookup, Bool.or_true, Bool.and_self, if_true]

theorem fields_of_rearranged_pair (d : Dialect) (skipsExtra : Bool) {name name' : String}
    (hne : name ≠ name') {x x' j : Json} (h : Rearranged (.object [(name, x), (name', x')]) j) :
    ∃ y y', Rearranged x y ∧ Rearranged x' y' ∧
      d.fields skipsExtra [name, name'] j = some [some y, some y'] := by
  obtain ⟨_, members, hfields⟩ := d.fields_of_rearranged skipsExtra [name, name'] h
    (by simp) (by simp [hne])
  obtain _ | ⟨_, hx, _ | ⟨_, hx', _ | _⟩⟩ := members
  refine ⟨_, _, hx, hx', ?_⟩
  simp [hfields, List.lookup_cons, beq_false_of_ne hne.symm]

end Dialect

open Json

variable (d : Dialect)

mutual

theorem PrincipalExpr.ofJson?_of_rearranged :
    ∀ (e : PrincipalExpr) {j : Json}, Rearranged e.toJson j → PrincipalExpr.ofJson? d j = some e
  | .host name, _, h => by
    obtain ⟨_, hpayload, rfl⟩ := h.of_singleton
    cases hpayload
    rfl
  | .all operands, _, h => by
    obtain ⟨_, hpayload, rfl⟩ := h.of_singleton
    cases hpayload with
    | array items =>
      exact congrArg (Option.map all) (PrincipalExpr.ofJsons?_of_rearranged operands items)
  | .any operands, _, h => by
    obtain ⟨_, hpayload, rfl⟩ := h.of_singleton
    cases hpayload with
    | array items =>
      exact congrArg (Option.map any) (PrincipalExpr.ofJsons?_of_rearranged operands items)
  | .strongest, _, h => by
    cases h
    rfl
  | .weakest, _, h => by
    cases h
    rfl

theorem PrincipalExpr.ofJsons?_of_rearranged :
    ∀ (es : List PrincipalExpr) {js : List Json}, ItemsRearranged (PrincipalExpr.toJsons es) js →
      PrincipalExpr.ofJsons? d js = some es
  | [], _, h => by
    cases h
    rfl
  | e :: es, _, h => by
    cases h with
    | cons head tail =>
      rw [PrincipalExpr.ofJsons?, PrincipalExpr.ofJson?_of_rearranged e head,
        PrincipalExpr.ofJsons?_of_rearranged es tail]
      rfl

end

theorem LabelExpr.labelOfJson?_of_rearranged (confidentiality integrity : PrincipalExpr) {j : Json}
    (h : Rearranged (.object
      [("confidentiality", confidentiality.toJson), ("integrity", integrity.toJson)]) j) :
    LabelExpr.labelOfJson? d j = some (.label confidentiality integrity) := by
  obtain ⟨_, _, hc, hi, hfields⟩ :=
    d.fields_of_rearranged_pair d.skipsExtraLabelFields (by decide) h
  simp [LabelExpr.labelOfJson?, hfields, confidentiality.ofJson?_of_rearranged d hc,
    integrity.ofJson?_of_rearranged d hi]

mutual

theorem LabelExpr.ofJson?_of_rearranged :
    ∀ (e : LabelExpr) {j : Json}, Rearranged e.toJson j → LabelExpr.ofJson? d j = some e
  | .host name, _, h | .var name, _, h => by
    obtain ⟨_, hpayload, rfl⟩ := h.of_singleton
    cases hpayload
    rfl
  | .label confidentiality integrity, _, h => by
    obtain ⟨_, hpayload, rfl⟩ := h.of_singleton
    exact LabelExpr.labelOfJson?_of_rearranged d confidentiality integrity hpayload
  | .join operands, _, h => by
    obtain ⟨_, hpayload, rfl⟩ := h.of_singleton
    cases hpayload with
    | array items => exact congrArg (Option.map join) (LabelExpr.ofJsons?_of_rearranged operands items)
  | .meet operands, _, h => by
    obtain ⟨_, hpayload, rfl⟩ := h.of_singleton
    cases hpayload with
    | array items => exact congrArg (Option.map meet) (LabelExpr.ofJsons?_of_rearranged operands items)
  | .top, _, h | .bottom, _, h => by
    cases h
    rfl

theorem LabelExpr.ofJsons?_of_rearranged :
    ∀ (es : List LabelExpr) {js : List Json}, ItemsRearranged (LabelExpr.toJsons es) js →
      LabelExpr.ofJsons? d js = some es
  | [], _, h => by
    cases h
    rfl
  | e :: es, _, h => by
    cases h with
    | cons head tail =>
      rw [LabelExpr.ofJsons?, LabelExpr.ofJson?_of_rearranged e head,
        LabelExpr.ofJsons?_of_rearranged es tail]
      rfl

end

theorem Assumption.ofJson?_of_rearranged (a : Assumption) {j : Json} (h : Rearranged a.toJson j) :
    Assumption.ofJson? d j = some a := by
  obtain ⟨_, _, hactor, hprincipal, hfields⟩ := d.fields_of_rearranged_pair false (by decide) h
  simp [Assumption.ofJson?, hfields, a.actor.ofJson?_of_rearranged d hactor,
    a.principal.ofJson?_of_rearranged d hprincipal]

-- A reason that was left out is absent again.
theorem FlowConstraint.ofJson?_of_rearranged (c : FlowConstraint) {j : Json}
    (h : Rearranged c.toJson j) : FlowConstraint.ofJson? d j = some c := by
  obtain ⟨source, sink, reason⟩ := c
  obtain ⟨_, members, hfields⟩ := d.fields_of_rearranged false ["from", "to", "reason"] h
    (by cases reason <;> simp) (by cases reason <;> simp)
  obtain _ | ⟨_, hsource, _ | @⟨_, _, _, _, rest, hsink, hrest⟩⟩ := members
  have hreason : reasonOfJson? (rest.lookup "reason") = some reason := by
    cases reason with
    | none =>
      cases hrest
      rfl
    | some text =>
      obtain _ | ⟨_, htext, _ | _⟩ := hrest
      cases htext
      rfl
  simp [FlowConstraint.ofJson?, hfields, List.lookup_cons, hreason,
    source.ofJson?_of_rearranged d hsource, sink.ofJson?_of_rearranged d hsink]

theorem recordsOfJson?_of_rearranged {β : Type} {toJson : β → Json} {ofJson? : Json → Option β}
    (hread : ∀ b {j}, Rearranged (toJson b) j → ofJson? j = some b) (bs : List β) {j : Json}
    (h : Rearranged (.array (bs.map toJson)) j) : recordsOfJson? ofJson? (some j) = some bs := by
  cases h with
  | @array _ js items =>
    change js.mapM ofJson? = some bs
    induction bs generalizing js with
    | nil =>
      cases items
      rfl
    | cons b bs ih =>
      cases items with
      | cons head tail => simp [List.mapM_cons, hread b head, ih tail]

namespace Problem

theorem ofJson?_of_rearranged (p : Problem) {j : Json} (h : Rearranged p.toJson j) :
    ofJson? d j = some p := by
  obtain ⟨_, _, hassumptions, hconstraints, hfields⟩ :=
    d.fields_of_rearranged_pair false (by decide) h
  simp [ofJson?, hfields,
    recordsOfJson?_of_rearranged (Assumption.ofJson?_of_rearranged d) p.assumptions hassumptions,
    recordsOfJson?_of_rearranged (FlowConstraint.ofJson?_of_rearranged d) p.constraints hconstraints]

-- Every problem is read back from its tree, and also if the members of the objects in it have been put
-- into another order. Dialects differ in nothing that a written problem has.
theorem ofJson?_toJson (p : Problem) (d : Dialect) :
    ofJson? d p.toJson = some p ∧
      ∀ tree : Json, Rearranged p.toJson tree → ofJson? d tree = some p :=
  ⟨p.ofJson?_of_rearranged d (Rearranged.refl p.toJson), fun _ => p.ofJson?_of_rearranged d⟩

-- The members sorted by name, so that a reason comes before the sink.
theorem ofJson?_toJson_sorted :
    let p : Problem := ⟨[], [⟨.var "x", .top, some "sink"⟩]⟩
    let flow : Json := .object
      [("from", .object [("var", .string "x")]), ("reason", .string "sink"), ("to", .string "top")]
    let tree : Json := .object [("assumptions", .array []), ("constraints", .array [flow])]
    Rearranged p.toJson tree ∧ ofJson? .json tree = some p := by
  intro p flow tree
  have hflow : ∀ c ∈ p.constraints, Rearranged c.toJson flow := by
    intro c hc
    rw [List.mem_singleton.mp hc]
    exact .object (MembersRearranged.refl _) ((List.Perm.swap _ _ []).cons _)
  have htree : Rearranged p.toJson tree := by
    have hitems : ItemsRearranged (p.constraints.map FlowConstraint.toJson) [flow] :=
      .cons (hflow _ (List.mem_singleton_self _)) .nil
    exact .object (.cons _ (.array .nil) (.cons _ (.array hitems) .nil)) (.refl _)
  exact ⟨htree, (ofJson?_toJson p .json).2 tree htree⟩

end Problem

end LabelInference

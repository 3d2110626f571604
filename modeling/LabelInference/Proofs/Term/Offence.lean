import LabelInference.Proofs.Term.Clash

namespace LabelInference

universe u v

variable {γ : Type u} {ν : Type v}

namespace Term

-- The subterms in the order in which they are expanded.
def postorder : Term γ ν → List (Term γ ν)
  | .const c => [.const c]
  | .var x => [.var x]
  | .join s t => s.postorder ++ t.postorder ++ [.join s t]
  | .meet s t => s.postorder ++ t.postorder ++ [.meet s t]

-- A node with the connective, whose two operands have different unknowns.
def Offends (k : Connective) (t : Term γ ν) : Prop := ∃ s u, t = node k s u ∧ ¬s.Agree u

-- The first offending node of the term has the two operands.
def OffendsFirstAt (k : Connective) (t s u : Term γ ν) : Prop :=
  ¬s.Agree u ∧ ∃ before after, t.postorder = before ++ node k s u :: after ∧
    ∀ v ∈ before, ¬v.Offends k

variable {j k : Connective} {s t u w : Term γ ν}

theorem postorder_node : (node k s t).postorder = s.postorder ++ t.postorder ++ [node k s t] := by
  cases k <;> rfl

theorem offends_node_iff : (node j s t).Offends k ↔ k = j ∧ ¬s.Agree t := by
  constructor
  · rintro ⟨u, w, heq, hagree⟩
    cases j <;> cases k <;> cases heq <;> exact ⟨rfl, hagree⟩
  · rintro ⟨rfl, hagree⟩
    exact ⟨s, t, rfl, hagree⟩

theorem clashes_iff_exists_offends : t.Clashes k ↔ ∃ u ∈ t.postorder, u.Offends k := by
  have hnode : ∀ {j : Connective} {s t : Term γ ν},
      (s.Clashes k ↔ ∃ u ∈ s.postorder, u.Offends k) →
      (t.Clashes k ↔ ∃ u ∈ t.postorder, u.Offends k) →
      ((node j s t).Clashes k ↔ ∃ u ∈ (node j s t).postorder, u.Offends k) := by
    intro j s t hs ht
    rw [clashes_node, hs, ht, postorder_node]
    simp only [List.mem_append, List.mem_singleton, or_and_right, exists_or, exists_eq_left,
      offends_node_iff, or_assoc]
  induction t with
  | const | var =>
    refine iff_of_false not_false ?_
    rintro ⟨u, hu, s, w, rfl, _⟩
    cases k <;> cases List.mem_singleton.mp hu
  | join s t ihs iht => exact hnode (j := .join) ihs iht
  | meet s t ihs iht => exact hnode (j := .meet) ihs iht

theorem not_offends_of_not_clashes (h : ¬t.Clashes k) : ∀ u ∈ t.postorder, ¬u.Offends k := by
  intro u hu hoffends
  exact h (clashes_iff_exists_offends.mpr ⟨u, hu, hoffends⟩)

theorem OffendsFirstAt.clashes (h : t.OffendsFirstAt k s u) : t.Clashes k := by
  obtain ⟨hagree, before, after, hsplit, _⟩ := h
  refine clashes_iff_exists_offends.mpr ⟨node k s u, ?_, s, u, rfl, hagree⟩
  rw [hsplit]
  exact List.mem_append_right _ List.mem_cons_self

theorem mem_unknowns_of_mem_postorder {t u : Term γ ν} (hu : u ∈ t.postorder) {x : ν}
    (hx : x ∈ u.unknowns) : x ∈ t.unknowns := by
  induction t with
  | const | var =>
    rw [← List.mem_singleton.mp hu]
    exact hx
  | join s t ihs iht | meet s t ihs iht =>
    rw [postorder, List.mem_append, List.mem_append, List.mem_singleton] at hu
    rcases hu with (hu | hu) | rfl
    · exact List.mem_append_left _ (ihs hu)
    · exact List.mem_append_right _ (iht hu)
    · exact hx

theorem Clashes.of_mem_postorder {t u : Term γ ν} (hu : u ∈ t.postorder) (h : u.Clashes k) :
    t.Clashes k := by
  induction t with
  | const | var => rwa [← List.mem_singleton.mp hu]
  | join s t ihs iht | meet s t ihs iht =>
    rw [postorder, List.mem_append, List.mem_append, List.mem_singleton] at hu
    rcases hu with (hu | hu) | rfl
    · exact .inl (ihs hu)
    · exact .inr (.inl (iht hu))
    · exact h

-- The unknowns of its operands are unknowns of the term.
theorem OffendsFirstAt.mem_unknowns (h : t.OffendsFirstAt k s u) {x : ν}
    (hx : x ∈ s.unknowns ∨ x ∈ u.unknowns) : x ∈ t.unknowns := by
  obtain ⟨_, before, after, hsplit, _⟩ := h
  refine mem_unknowns_of_mem_postorder (u := node k s u) ?_ ?_
  · rw [hsplit]
    exact List.mem_append_right _ List.mem_cons_self
  · rw [unknowns_node]
    exact List.mem_append.mpr hx

theorem OffendsFirstAt.node_left (h : s.OffendsFirstAt k u w) (j : Connective) (t : Term γ ν) :
    (node j s t).OffendsFirstAt k u w := by
  obtain ⟨hagree, before, after, hsplit, hbefore⟩ := h
  refine ⟨hagree, before, after ++ t.postorder ++ [node j s t], ?_, hbefore⟩
  rw [postorder_node, hsplit]
  simp only [List.append_assoc, List.cons_append]

-- Nothing in the left operand offends, so all of it comes before.
theorem OffendsFirstAt.node_right (h : t.OffendsFirstAt k u w) (j : Connective)
    (hs : ¬s.Clashes k) : (node j s t).OffendsFirstAt k u w := by
  obtain ⟨hagree, before, after, hsplit, hbefore⟩ := h
  refine ⟨hagree, s.postorder ++ before, after ++ [node j s t], ?_, ?_⟩
  · rw [postorder_node, hsplit]
    simp only [List.append_assoc, List.cons_append]
  · exact List.forall_mem_append.mpr ⟨not_offends_of_not_clashes hs, hbefore⟩

theorem offendsFirstAt_node (hs : ¬s.Clashes k) (ht : ¬t.Clashes k) (hagree : ¬s.Agree t) :
    (node k s t).OffendsFirstAt k s t := by
  refine ⟨hagree, s.postorder ++ t.postorder, [], postorder_node, ?_⟩
  exact List.forall_mem_append.mpr
    ⟨not_offends_of_not_clashes hs, not_offends_of_not_clashes ht⟩

theorem dual_node : (node k s t).dual = node k.dual s.dual t.dual := by
  cases k <;> rfl

theorem postorder_dual (t : Term γ ν) : t.dual.postorder = t.postorder.map dual := by
  induction t with
  | const | var => rfl
  | join s t ihs iht | meet s t ihs iht =>
    simp only [dual, postorder, ihs, iht, List.map_append, List.map_cons, List.map_nil]

theorem Offends.of_dual (h : t.dual.Offends k.dual) : t.Offends k := by
  obtain ⟨s, u, heq, hagree⟩ := h
  refine ⟨s.dual, u.dual, ?_, mt agree_dual_iff.mp hagree⟩
  rw [← dual_dual t, heq, dual_node]
  cases k <;> rfl

theorem OffendsFirstAt.dual (h : t.OffendsFirstAt k s u) :
    t.dual.OffendsFirstAt k.dual s.dual u.dual := by
  obtain ⟨hagree, before, after, hsplit, hbefore⟩ := h
  refine ⟨mt agree_dual_iff.mp hagree, before.map Term.dual, after.map Term.dual, ?_, ?_⟩
  · rw [postorder_dual, hsplit, List.map_append, List.map_cons, dual_node]
  · rw [List.forall_mem_map]
    exact fun v hv => mt Offends.of_dual (hbefore v hv)

end Term

namespace Clause

variable [DecidableEq ν] {t : Term γ ν} {x y : ν}

-- Both operands of the node that fails have been expanded, and every unknown of a clause is one of the
-- expanded term.
theorem joinOfMeets_error_at [Meet γ] (h : joinOfMeets t = .error (x, y)) :
    ∃ s u, t.OffendsFirstAt .meet s u ∧ x ∈ s.unknowns ∧ y ∈ u.unknowns ∧ x ≠ y := by
  induction t with
  | const d => cases h
  | var z => cases h
  | join s t ihs iht =>
    rcases bind_error h with hs | ⟨as, has, h⟩
    · obtain ⟨u, w, hfirst, hnames⟩ := ihs hs
      exact ⟨u, w, hfirst.node_left .join t, hnames⟩
    · rcases bind_error h with ht | ⟨bs, _, h⟩
      · obtain ⟨u, w, hfirst, hnames⟩ := iht ht
        exact ⟨u, w, hfirst.node_right .join (exists_joinOfMeets_iff.mp ⟨as, has⟩), hnames⟩
      · cases h
  | meet s t ihs iht =>
    rcases bind_error h with hs | ⟨as, has, h⟩
    · obtain ⟨u, w, hfirst, hnames⟩ := ihs hs
      exact ⟨u, w, hfirst.node_left .meet t, hnames⟩
    · have hs := exists_joinOfMeets_iff.mp ⟨as, has⟩
      rcases bind_error h with ht | ⟨bs, hbs, h⟩
      · obtain ⟨u, w, hfirst, hnames⟩ := iht ht
        exact ⟨u, w, hfirst.node_right .meet hs, hnames⟩
      · obtain ⟨⟨a, ha, hxa⟩, ⟨b, hb, hyb⟩, hne⟩ := product_error h
        have hx := mem_unknowns_of_joinOfMeets has ha hxa
        have hy := mem_unknowns_of_joinOfMeets hbs hb hyb
        have hagree : ¬s.Agree t := fun hagree => hne (hagree x hx y hy)
        exact ⟨s, t, Term.offendsFirstAt_node hs (exists_joinOfMeets_iff.mp ⟨bs, hbs⟩) hagree,
          hx, hy, hne⟩

theorem meetOfJoins_error_at [Join γ] (h : meetOfJoins t = .error (x, y)) :
    ∃ s u, t.OffendsFirstAt .join s u ∧ x ∈ s.unknowns ∧ y ∈ u.unknowns ∧ x ≠ y := by
  rw [meetOfJoins_eq_dual] at h
  obtain ⟨s, u, hfirst, hx, hy, hne⟩ := @joinOfMeets_error_at _ _ _ _ _ _ Join.toMeet h
  refine ⟨s.dual, u.dual, ?_, ?_, ?_, hne⟩
  · have hdual := hfirst.dual
    rwa [Term.dual_dual] at hdual
  · rwa [Term.unknowns_dual]
  · rwa [Term.unknowns_dual]

end Clause

namespace Term

variable [Join γ] [Meet γ] [DecidableEq ν] {lower upper : Term γ ν}

-- The lower side is expanded first, so its offence is the one that is reported.
theorem reduce_error_at {e : UnsupportedTerm γ ν} (h : reduce lower upper = .error e) :
    ∃ s t x y, x ∈ s.unknowns ∧ y ∈ t.unknowns ∧ x ≠ y ∧
      (lower.OffendsFirstAt .meet s t ∧ e = .meetOfDistinctVariables lower x y ∨
        ¬lower.Clashes .meet ∧ upper.OffendsFirstAt .join s t ∧
          e = .joinOfDistinctVariables upper x y) := by
  unfold reduce at h
  split at h
  · next x y hlower =>
    cases h
    obtain ⟨s, t, hfirst, hx, hy, hne⟩ := Clause.joinOfMeets_error_at hlower
    exact ⟨s, t, x, y, hx, hy, hne, .inl ⟨hfirst, rfl⟩⟩
  · next as x y hlower hupper =>
    cases h
    obtain ⟨s, t, hfirst, hx, hy, hne⟩ := Clause.meetOfJoins_error_at hupper
    have hclash := Clause.exists_joinOfMeets_iff.mp ⟨as, hlower⟩
    exact ⟨s, t, x, y, hx, hy, hne, .inr ⟨hclash, hfirst, rfl⟩⟩
  · cases h

-- What the rest of the acceptance theory needs of it: two different unknowns of the refused side.
theorem reduce_error {e : UnsupportedTerm γ ν} (h : reduce lower upper = .error e) :
    ∃ x y, x ≠ y ∧
      (lower.Clashes .meet ∧ x ∈ lower.unknowns ∧ y ∈ lower.unknowns ∧
          e = .meetOfDistinctVariables lower x y ∨
        ¬lower.Clashes .meet ∧ x ∈ upper.unknowns ∧ y ∈ upper.unknowns ∧
          e = .joinOfDistinctVariables upper x y) := by
  obtain ⟨s, t, x, y, hx, hy, hne, ⟨hfirst, he⟩ | ⟨hlower, hfirst, he⟩⟩ := reduce_error_at h
  · refine ⟨x, y, hne, .inl ⟨hfirst.clashes, ?_, ?_, he⟩⟩
    · exact hfirst.mem_unknowns (.inl hx)
    · exact hfirst.mem_unknowns (.inr hy)
  · refine ⟨x, y, hne, .inr ⟨hlower, ?_, ?_, he⟩⟩
    · exact hfirst.mem_unknowns (.inl hx)
    · exact hfirst.mem_unknowns (.inr hy)

-- A pair of terms is refused exactly if a meet of the lower one or a join of the upper one has different
-- unknowns in its operands. The refusal quotes the whole lower side whenever that offends, and it names
-- an unknown of each operand of the first node that does.
theorem reduce_refuses_first_offence [ToString γ] [ToString ν] (lower upper : Term γ ν) :
    ((∃ e, reduce lower upper = .error e) ↔
        (∃ u ∈ lower.postorder, u.Offends .meet) ∨ ∃ u ∈ upper.postorder, u.Offends .join) ∧
      ∀ e, reduce lower upper = .error e →
        ∃ s t x y, x ∈ s.unknowns ∧ y ∈ t.unknowns ∧ x ≠ y ∧
          (lower.OffendsFirstAt .meet s t ∧ e = .meetOfDistinctVariables lower x y ∧
              e.message = "cannot meet distinct variables \x60" ++ toString x ++ "\x60 and \x60" ++
                toString y ++ "\x60 on the left of \x60" ++ toString lower ++ "\x60" ∨
            (∀ u ∈ lower.postorder, ¬u.Offends .meet) ∧ upper.OffendsFirstAt .join s t ∧
              e = .joinOfDistinctVariables upper x y ∧
              e.message = "cannot join distinct variables \x60" ++ toString x ++ "\x60 and \x60" ++
                toString y ++ "\x60 on the right of \x60" ++ toString upper ++ "\x60") := by
  constructor
  · rw [exists_error_iff, exists_reduce_iff, ← clashes_iff_exists_offends,
      ← clashes_iff_exists_offends, not_and_or, not_not, not_not]
  · intro e h
    obtain ⟨s, t, x, y, hx, hy, hne, ⟨hfirst, rfl⟩ | ⟨hlower, hfirst, rfl⟩⟩ := reduce_error_at h
    · exact ⟨s, t, x, y, hx, hy, hne, .inl ⟨hfirst, rfl, rfl⟩⟩
    · have hnone := not_offends_of_not_clashes hlower
      exact ⟨s, t, x, y, hx, hy, hne, .inr ⟨hnone, hfirst, rfl, rfl⟩⟩

end Term

end LabelInference

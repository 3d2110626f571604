import LabelInference.Term.Clause

namespace LabelInference

universe u v

variable {γ : Type u} {ν : Type v}

namespace Term

def dual : Term γ ν → Term γ ν
  | .const c => .const c
  | .var x => .var x
  | .join s t => .meet s.dual t.dual
  | .meet s t => .join s.dual t.dual

theorem dual_dual (t : Term γ ν) : t.dual.dual = t := by
  induction t with
  | const | var => rfl
  | join s t ihs iht | meet s t ihs iht => simp only [dual, ihs, iht]

theorem unknowns_dual (t : Term γ ν) : t.dual.unknowns = t.unknowns := by
  induction t with
  | const | var => rfl
  | join s t ihs iht | meet s t ihs iht => simp only [dual, unknowns, ihs, iht]

theorem constants_dual (t : Term γ ν) : t.dual.constants = t.constants := by
  induction t with
  | const | var => rfl
  | join s t ihs iht | meet s t ihs iht => simp only [dual, constants, ihs, iht]

end Term

-- The join of constants as the operation that expansions combine them with.
abbrev Join.toMeet [Join γ] : Meet γ := ⟨join⟩

-- A term is expanded into a meet of joins as its dual is into a join of meets, with the join of constants in
-- the place of their meet.
theorem Clause.meetOfJoins_eq_dual [Join γ] [DecidableEq ν] (t : Term γ ν) :
    meetOfJoins t = @joinOfMeets γ ν _ Join.toMeet t.dual := by
  induction t with
  | const | var => rfl
  | join s t ihs iht =>
    simp only [meetOfJoins, joinOfMeets, Term.dual, ihs, iht]
    rfl
  | meet s t ihs iht => simp only [meetOfJoins, joinOfMeets, Term.dual, ihs, iht]

end LabelInference

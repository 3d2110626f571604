import LabelInference.Proofs.ConstraintSystem.Confinement
import LabelInference.Proofs.Label.Flow
import LabelInference.Proofs.Term.Unknowns

namespace LabelInference

universe u v w w'

variable {γ : Type u} {ν : Type v} {ρ : Type w} {ρ' : Type w'}

namespace LabelTerm

-- Terms of all operations on labels but the one that exchanges the components.
inductive IsSwapFree : LabelTerm γ ν → Prop where
  | ofLabel (l : Label γ) : IsSwapFree (ofLabel l)
  | ofVariable (x : ν) : IsSwapFree (ofVariable x)
  | join {t u : LabelTerm γ ν} : IsSwapFree t → IsSwapFree u → IsSwapFree (Join.join t u)
  | meet {t u : LabelTerm γ ν} : IsSwapFree t → IsSwapFree u → IsSwapFree (Meet.meet t u)
  | conj {t u : LabelTerm γ ν} : IsSwapFree t → IsSwapFree u → IsSwapFree (t.conj u)
  | disj {t u : LabelTerm γ ν} : IsSwapFree t → IsSwapFree u → IsSwapFree (t.disj u)
  | confidentialityOnly (b : Bounds γ) {t : LabelTerm γ ν} :
    IsSwapFree t → IsSwapFree (t.confidentialityOnly (Term.bounds b))
  | integrityOnly (b : Bounds γ) {t : LabelTerm γ ν} :
    IsSwapFree t → IsSwapFree (t.integrityOnly (Term.bounds b))

theorem IsSwapFree.component_eq {t : LabelTerm γ ν} (h : IsSwapFree t) {k : Label.Component}
    {x : ComponentVariable ν} (hx : x ∈ (t.component k).unknowns) : x.component = k := by
  induction h with
  | ofLabel l => cases k <;> cases hx
  | ofVariable y =>
    cases k with
    | confidentiality =>
      obtain rfl := List.mem_singleton.mp hx
      rfl
    | integrity =>
      obtain rfl := List.mem_singleton.mp hx
      rfl
  | join _ _ iht ihu | meet _ _ iht ihu | conj _ _ iht ihu | disj _ _ iht ihu =>
    cases k with
    | confidentiality => exact (List.mem_append.mp hx).elim iht ihu
    | integrity => exact (List.mem_append.mp hx).elim iht ihu
  | confidentialityOnly b _ iht =>
    cases k with
    | confidentiality => exact iht hx
    | integrity => cases hx
  | integrityOnly b _ iht =>
    cases k with
    | confidentiality => cases hx
    | integrity => exact iht hx

end LabelTerm

namespace LabelFlow

structure IsSwapFree (f : LabelFlow γ ν ρ) : Prop where
  source : f.source.IsSwapFree
  sink : f.sink.IsSwapFree

-- The pairs of terms that are compared on one component.
def sidesOn (k : Label.Component) (fs : List (LabelFlow γ ν ρ)) :
    List (Term γ (ComponentVariable ν) × Term γ (ComponentVariable ν)) :=
  (fs.filter (k ∈ ·.scope.components)).map (·.sides k)

-- The flows as far as they are asked of one component.
def onlyOn (k : Label.Component) (fs : List (LabelFlow γ ν ρ)) : List (LabelFlow γ ν ρ) :=
  (fs.filter (k ∈ ·.scope.components)).map ({ · with scope := .only k })

variable {f : LabelFlow γ ν ρ} {fs : List (LabelFlow γ ν ρ)} {fs' : List (LabelFlow γ ν ρ')}
  {k : Label.Component} {p : Term γ (ComponentVariable ν) × Term γ (ComponentVariable ν)}
  {r : AtomicConstraint γ (ComponentVariable ν)} {x : ComponentVariable ν}

theorem mem_sidesOn : p ∈ sidesOn k fs ↔ ∃ f ∈ fs, k ∈ f.scope.components ∧ f.sides k = p := by
  simp [sidesOn, and_assoc]

theorem mem_onlyOn :
    f ∈ onlyOn k fs ↔ ∃ g ∈ fs, k ∈ g.scope.components ∧ { g with scope := .only k } = f := by
  simp [onlyOn, and_assoc]

theorem mem_sidesOn_onlyOn : p ∈ sidesOn k (onlyOn k fs) ↔ p ∈ sidesOn k fs := by
  rw [mem_sidesOn, mem_sidesOn]
  constructor
  · rintro ⟨f, hf, _, rfl⟩
    obtain ⟨g, hg, hk, rfl⟩ := mem_onlyOn.mp hf
    exact ⟨g, hg, hk, rfl⟩
  · rintro ⟨g, hg, hk, rfl⟩
    exact ⟨_, mem_onlyOn.mpr ⟨g, hg, hk, rfl⟩, List.mem_singleton_self k, rfl⟩

theorem IsSwapFree.onlyOn (h : ∀ f ∈ fs, f.IsSwapFree) : ∀ f ∈ onlyOn k fs, f.IsSwapFree := by
  intro f hf
  obtain ⟨g, hg, _, rfl⟩ := mem_onlyOn.mp hf
  exact ⟨(h g hg).source, (h g hg).sink⟩

theorem IsSwapFree.component_eq_of_lower (h : f.IsSwapFree) (hx : x ∈ (f.sides k).1.unknowns) :
    x.component = k := by
  cases k with
  | confidentiality => exact h.sink.component_eq (k := .confidentiality) hx
  | integrity => exact h.source.component_eq (k := .integrity) hx

theorem IsSwapFree.component_eq_of_upper (h : f.IsSwapFree) (hx : x ∈ (f.sides k).2.unknowns) :
    x.component = k := by
  cases k with
  | confidentiality => exact h.source.component_eq (k := .confidentiality) hx
  | integrity => exact h.sink.component_eq (k := .integrity) hx

variable [Join γ] [Meet γ] [DecidableEq ν] {b : Bounds γ} {order order' : γ → γ → Bool}
  {s : LabelSystem γ ν ρ} {s' : LabelSystem γ ν ρ'}

theorem exists_sides_of_mem_reduced (h : system b order fs = .ok s) (hr : r ∈ s.reduced) :
    ∃ f ∈ fs, ∃ k ∈ f.scope.components,
      ∃ rs, Term.reduce (f.sides k).1 (f.sides k).2 = .ok rs ∧ r ∈ rs := by
  obtain ⟨c, hc, hr⟩ := ConstraintSystem.mem_reduced.mp hr
  obtain ⟨f, hf, k, hk, hc⟩ := (mem_constraints h).mp hc
  obtain ⟨hlower, hupper⟩ := constraint_ok hc
  have hreduces := c.reduces
  rw [hlower, hupper] at hreduces
  exact ⟨f, hf, k, hk, c.reduced, hreduces, hr⟩

theorem mem_reduced_of_sidesOn (h : system b order fs = .ok s) (hp : p ∈ sidesOn k fs)
    {rs : List (AtomicConstraint γ (ComponentVariable ν))} (hrs : Term.reduce p.1 p.2 = .ok rs)
    (hr : r ∈ rs) : r ∈ s.reduced := by
  obtain ⟨f, hf, hk, rfl⟩ := mem_sidesOn.mp hp
  obtain ⟨c, hc⟩ := exists_system_iff.mp ⟨s, h⟩ f hf k hk
  obtain ⟨hlower, hupper⟩ := constraint_ok hc
  have hreduces := c.reduces
  rw [hlower, hupper, hrs] at hreduces
  refine ConstraintSystem.mem_reduced.mpr ⟨c, (mem_constraints h).mpr ⟨f, hf, k, hk, hc⟩, ?_⟩
  rwa [← Except.ok.inj hreduces]

-- A bound on an unknown comes from the component that the unknown stands for, and mentions only it. The two
-- halves share the nodes of their constants, but nothing is passed on through these.
theorem exists_sidesOn_of_mem_reduced (h : system b order fs = .ok s) (hfs : ∀ f ∈ fs, f.IsSwapFree)
    (hr : r ∈ s.reduced) (hx : r.lower = .var x) :
    (∃ p ∈ sidesOn x.component fs, ∃ rs, Term.reduce p.1 p.2 = .ok rs ∧ r ∈ rs) ∧
      ∀ y, r.upper = .var y → y.component = x.component := by
  obtain ⟨f, hf, k, hk, rs, hrs, hr⟩ := exists_sides_of_mem_reduced h hr
  have hlower : x.component = k :=
    (hfs f hf).component_eq_of_lower (AtomicConstraint.mem_unknowns_of_lower hrs hr hx)
  subst hlower
  refine ⟨⟨f.sides x.component, mem_sidesOn.mpr ⟨f, hf, hk, rfl⟩, rs, hrs, hr⟩, fun y hy => ?_⟩
  exact (hfs f hf).component_eq_of_upper (AtomicConstraint.mem_unknowns_of_upper hrs hr hy)

theorem mem_reduced_of_same_sides (h : system b order fs = .ok s) (h' : system b order' fs' = .ok s')
    (hfs : ∀ f ∈ fs, f.IsSwapFree) (hsame : ∀ p, p ∈ sidesOn k fs → p ∈ sidesOn k fs')
    (hk : x.component = k) (hx : r.lower = .var x) (hr : r ∈ s.reduced) : r ∈ s'.reduced := by
  subst hk
  obtain ⟨⟨p, hp, rs, hrs, hr⟩, _⟩ := exists_sidesOn_of_mem_reduced h hfs hr hx
  exact mem_reduced_of_sidesOn h' (hsame p hp) hrs hr

theorem exists_system_onlyOn (h : system b order fs = .ok s) (k : Label.Component) :
    ∃ half, system b order (onlyOn k fs) = .ok half := by
  refine exists_system_iff.mpr fun f hf k' hk' => ?_
  obtain ⟨g, hg, hk, rfl⟩ := mem_onlyOn.mp hf
  obtain rfl := List.mem_singleton.mp hk'
  obtain ⟨c, hc⟩ := exists_system_iff.mp ⟨s, h⟩ g hg k' hk
  exact ⟨c, hc⟩

variable [Imply γ] [ChainBound γ] [DecidableEq γ] [LawfulHeyting γ] [LawfulChainBound γ]

-- Two runs: what is inferred on a component depends on the terms that are compared on it.
theorem component_candidate_eq (h : system b order fs = .ok s) (h' : system b order' fs' = .ok s')
    (hfs : ∀ f ∈ fs, f.IsSwapFree) (hfs' : ∀ f ∈ fs', f.IsSwapFree)
    (hsame : ∀ p, p ∈ sidesOn k fs ↔ p ∈ sidesOn k fs') (x : ν) :
    (s.labelCandidate.get x).component k = (s'.labelCandidate.get x).component k := by
  have htop : s.bounds.top = s'.bounds.top := by
    rw [bounds_of_system h, bounds_of_system h']
  have hcandidate : ∀ y : ComponentVariable ν, y.component = k →
      s.candidate.get y = s'.candidate.get y := by
    intro y hy
    refine ConstraintSystem.get_candidate_eq_of_confined htop
      (ConstraintSystem.outcome_settled s) (ConstraintSystem.outcome_settled s')
      (P := fun y => y.component = k) (fun r x hk hx => ⟨?_, ?_⟩) (fun r hr x hk hx z hz => ?_) hy
    · exact mem_reduced_of_same_sides h h' hfs (fun p => (hsame p).mp) hk hx
    · exact mem_reduced_of_same_sides h' h hfs' (fun p => (hsame p).mpr) hk hx
    · exact ((exists_sidesOn_of_mem_reduced h hfs hr hx).2 z hz).trans hk
  cases k with
  | confidentiality => exact hcandidate (.confidentiality x) rfl
  | integrity => exact hcandidate (.integrity x) rfl

-- Each half is inferred as if the other were not there, and flows that agree on one component get the
-- same values on it whatever they ask of the other one.
theorem candidate_noninterfering (b : Bounds γ) (order : γ → γ → Bool)
    (fs : List (LabelFlow γ ν ρ)) (hfs : ∀ f ∈ fs, f.IsSwapFree) (s : LabelSystem γ ν ρ)
    (h : system b order fs = .ok s) (k : Label.Component) :
    (∃ half, system b order (onlyOn k fs) = .ok half ∧
        ∀ x, (s.labelCandidate.get x).component k = (half.labelCandidate.get x).component k) ∧
      ∀ (order' : γ → γ → Bool) (fs' : List (LabelFlow γ ν ρ')) (s' : LabelSystem γ ν ρ'),
        (∀ f ∈ fs', f.IsSwapFree) → system b order' fs' = .ok s' →
          (∀ p, p ∈ sidesOn k fs ↔ p ∈ sidesOn k fs') →
            ∀ x, (s.labelCandidate.get x).component k = (s'.labelCandidate.get x).component k := by
  constructor
  · obtain ⟨half, hhalf⟩ := exists_system_onlyOn h k
    refine ⟨half, hhalf, ?_⟩
    exact component_candidate_eq h hhalf hfs (IsSwapFree.onlyOn hfs) fun p => mem_sidesOn_onlyOn.symm
  · intro order' fs' s' hfs' h' hsame
    exact component_candidate_eq h h' hfs hfs' hsame

-- The second list has another way to ask for the same confidentiality, and asks for another integrity.
theorem candidate_noninterfering_shared_confidentiality :
    let source : LabelTerm (FreeLattice Int) Nat := join (.ofLabel ⟨.atom 0, .atom 1⟩) (.ofVariable 0)
    let fs : List (LabelFlow (FreeLattice Int) Nat Unit) :=
      [⟨.both, source, .ofVariable 1, fun _ _ => ()⟩,
        ⟨.only .integrity, .ofVariable 1, .ofLabel (.uniform (.atom 2)), fun _ _ => ()⟩]
    let fs' : List (LabelFlow (FreeLattice Int) Nat Unit) :=
      [⟨.only .integrity, .ofVariable 0, .ofLabel (.uniform (.atom 0)), fun _ _ => ()⟩,
        ⟨.only .confidentiality, source, .ofVariable 1, fun _ _ => ()⟩]
    ∃ s half s', system FreeLattice.bounds isBelow fs = .ok s ∧
      system FreeLattice.bounds isBelow (onlyOn .confidentiality fs) = .ok half ∧
      system FreeLattice.bounds isBelow fs' = .ok s' ∧ ∀ x,
        (s.labelCandidate.get x).confidentiality = (half.labelCandidate.get x).confidentiality ∧
        (s.labelCandidate.get x).confidentiality = (s'.labelCandidate.get x).confidentiality := by
  intro source fs fs'
  have hsource : source.IsSwapFree := .join (.ofLabel _) (.ofVariable 0)
  have hfs : ∀ f ∈ fs, f.IsSwapFree :=
    List.forall_mem_cons.mpr ⟨⟨hsource, .ofVariable 1⟩,
      List.forall_mem_singleton.mpr ⟨.ofVariable 1, .ofLabel _⟩⟩
  have hfs' : ∀ f ∈ fs', f.IsSwapFree :=
    List.forall_mem_cons.mpr ⟨⟨.ofVariable 0, .ofLabel _⟩,
      List.forall_mem_singleton.mpr ⟨hsource, .ofVariable 1⟩⟩
  obtain ⟨s, hs⟩ : ∃ s, system FreeLattice.bounds isBelow fs = .ok s := ⟨_, rfl⟩
  obtain ⟨s', hs'⟩ : ∃ s', system FreeLattice.bounds isBelow fs' = .ok s' := ⟨_, rfl⟩
  obtain ⟨⟨half, hhalf, heq⟩, hagree⟩ :=
    candidate_noninterfering FreeLattice.bounds isBelow fs hfs s hs .confidentiality
  have hsame := hagree isBelow fs' s' hfs' hs' fun p => Iff.rfl
  exact ⟨s, half, s', hs, hhalf, hs', fun x => ⟨heq x, hsame x⟩⟩

end LabelFlow

end LabelInference

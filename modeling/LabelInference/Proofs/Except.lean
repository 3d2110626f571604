import Mathlib.Data.List.Forall2
import Mathlib.Data.Set.List

namespace LabelInference

universe u v w

theorem bind_ok {ε : Type u} {α β : Type v} {r : Except ε α} {f : α → Except ε β} {b : β}
    (h : (r >>= f) = .ok b) : ∃ a, r = .ok a ∧ f a = .ok b := by
  cases r with
  | error e => cases h
  | ok a => exact ⟨a, rfl, h⟩

theorem exists_bind_ok_iff {ε : Type u} {α β : Type v} {r : Except ε α} {f : α → Except ε β} :
    (∃ b, (r >>= f) = .ok b) ↔ ∃ a, r = .ok a ∧ ∃ b, f a = .ok b := by
  constructor
  · rintro ⟨b, h⟩
    obtain ⟨a, ha, hb⟩ := bind_ok h
    exact ⟨a, ha, b, hb⟩
  · rintro ⟨a, rfl, b, hb⟩
    exact ⟨b, hb⟩

theorem bind_error {ε : Type u} {α β : Type v} {r : Except ε α} {f : α → Except ε β} {e : ε}
    (h : (r >>= f) = .error e) : r = .error e ∨ ∃ a, r = .ok a ∧ f a = .error e := by
  cases r with
  | error e' =>
    cases h
    exact .inl rfl
  | ok a => exact .inr ⟨a, rfl, h⟩

theorem exists_error_iff {ε : Type u} {α : Type v} {r : Except ε α} :
    (∃ e, r = .error e) ↔ ¬∃ a, r = .ok a := by
  cases r <;> simp

theorem mapError_ok {ε : Type u} {ε' : Type v} {α : Type w} {f : ε → ε'} {r : Except ε α} {a : α}
    (h : r.mapError f = .ok a) : r = .ok a := by
  cases r with
  | error e => cases h
  | ok a' =>
    cases h
    rfl

theorem mapError_of_ok {ε : Type u} {ε' : Type v} {α : Type w} {f : ε → ε'} {r : Except ε α} {a : α}
    (h : r = .ok a) : r.mapError f = .ok a := by
  rw [h]
  rfl

theorem mapError_error {ε : Type u} {ε' : Type v} {α : Type w} {f : ε → ε'} {r : Except ε α} {e : ε'}
    (h : r.mapError f = .error e) : ∃ e', r = .error e' ∧ e = f e' := by
  cases r with
  | error e' =>
    cases h
    exact ⟨e', rfl, rfl⟩
  | ok a => cases h

-- A list is mapped without a failure if each of its members is.
theorem mapM_ok_iff {ε : Type u} {α : Type v} {β : Type w} {f : α → Except ε β} {as : List α}
    {bs : List β} : as.mapM f = .ok bs ↔ as.map f = bs.map .ok := by
  induction as generalizing bs with
  | nil => cases bs <;> simp [pure, Except.pure]
  | cons a as ih =>
    rw [List.mapM_cons, List.map_cons]
    constructor
    · intro h
      obtain ⟨b, hb, h⟩ := bind_ok h
      obtain ⟨bs', hbs, h⟩ := bind_ok h
      cases h
      rw [List.map_cons, hb, ih.mp hbs]
    · intro h
      cases bs with
      | nil => cases h
      | cons b bs =>
        obtain ⟨hb, hbs⟩ := List.cons.inj h
        rw [hb, ih.mpr hbs]
        rfl

theorem mem_of_mapM_ok {ε : Type u} {α : Type v} {β : Type w} {f : α → Except ε β} {as : List α}
    {bs : List β} (h : as.mapM f = .ok bs) {b : β} : b ∈ bs ↔ ∃ a ∈ as, f a = .ok b := by
  have hmem : b ∈ bs ↔ (.ok b : Except ε β) ∈ bs.map .ok := by simp
  rw [hmem, ← mapM_ok_iff.mp h, List.mem_map]

theorem mapM_ok_iff_forall₂ {ε : Type u} {α : Type v} {β : Type w} {f : α → Except ε β} {as : List α}
    {bs : List β} : as.mapM f = .ok bs ↔ List.Forall₂ (fun a b => f a = .ok b) as bs := by
  rw [mapM_ok_iff, ← List.forall₂_eq_eq_eq, List.forall₂_map_left_iff, List.forall₂_map_right_iff]

theorem mapM_ok_mono {ε ε' : Type u} {α : Type v} {β : Type w} {f : α → Except ε β}
    {g : α → Except ε' β} (hfg : ∀ a b, f a = .ok b → g a = .ok b) {as : List α} {bs : List β}
    (h : as.mapM f = .ok bs) : as.mapM g = .ok bs :=
  mapM_ok_iff_forall₂.mpr ((mapM_ok_iff_forall₂.mp h).imp hfg)

-- What each result tells of the member that it comes from is told of all members in their order.
theorem map_of_mapM_ok {ε : Type u} {α : Type v} {β : Type w} {δ : Type*} {f : α → Except ε β}
    {g : β → δ} {k : α → δ} (hgk : ∀ a b, f a = .ok b → g b = k a) {as : List α} {bs : List β}
    (h : as.mapM f = .ok bs) : bs.map g = as.map k := by
  refine Eq.symm ?_
  rw [← List.forall₂_eq_eq_eq, List.forall₂_map_left_iff, List.forall₂_map_right_iff]
  exact (mapM_ok_iff_forall₂.mp h).imp fun a b hab => (hgk a b hab).symm

theorem filterMap_of_mapM_ok {ε : Type u} {α : Type v} {β : Type w} {δ : Type*} {f : α → Except ε β}
    {g : β → Option δ} {k : α → Option δ} (hgk : ∀ a b, f a = .ok b → g b = k a) {as : List α}
    {bs : List β} (h : as.mapM f = .ok bs) : bs.filterMap g = as.filterMap k := by
  calc bs.filterMap g
      = (bs.map g).filterMap id := by rw [List.filterMap_map, Function.id_comp]
    _ = (as.map k).filterMap id := by rw [map_of_mapM_ok hgk h]
    _ = as.filterMap k := by rw [List.filterMap_map, Function.id_comp]

theorem exists_mapM_ok_iff {ε : Type u} {α : Type v} {β : Type w} {f : α → Except ε β}
    {as : List α} : (∃ bs, as.mapM f = .ok bs) ↔ ∀ a ∈ as, ∃ b, f a = .ok b := by
  have hrange : (∃ bs : List β, bs.map .ok = as.map f) ↔ ∀ r ∈ as.map f, ∃ b, .ok b = r :=
    Set.ext_iff.mp (Set.range_list_map (Except.ok : β → Except ε β)) (as.map f)
  rw [List.forall_mem_map] at hrange
  have hok : (∃ bs, as.mapM f = .ok bs) ↔ ∃ bs : List β, bs.map .ok = as.map f :=
    exists_congr fun bs => mapM_ok_iff.trans eq_comm
  rw [hok, hrange]
  exact forall₂_congr fun a _ => exists_congr fun b => eq_comm

-- The first member that fails is the one that is reported.
theorem exists_index_of_mapM_error {ε : Type u} {α : Type v} {β : Type w} {f : α → Except ε β}
    {as : List α} {e : ε} (h : as.mapM f = .error e) :
    ∃ i, ∃ hi : i < as.length, f as[i] = .error e ∧
      ∀ j (hj : j < as.length), j < i → ∃ b, f as[j] = .ok b := by
  induction as with
  | nil => cases h
  | cons a as ih =>
    rw [List.mapM_cons] at h
    rcases bind_error h with ha | ⟨b, hb, h⟩
    · exact ⟨0, Nat.zero_lt_succ _, ha, fun j _ hj => absurd hj (Nat.not_lt_zero j)⟩
    · rcases bind_error h with has | ⟨_, _, h⟩
      · obtain ⟨i, hi, hfail, hbefore⟩ := ih has
        refine ⟨i + 1, Nat.succ_lt_succ hi, hfail, fun j hj hji => ?_⟩
        cases j with
        | zero => exact ⟨b, hb⟩
        | succ j => exact hbefore j (Nat.lt_of_succ_lt_succ hj) (Nat.lt_of_succ_lt_succ hji)
      · cases h

end LabelInference

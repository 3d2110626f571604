import LabelInference.Proofs.Lattice.Laws

namespace LabelInference

universe u

variable {α : Type u}

-- A list need not have a join as a value of its own, so a join is known by what is above it.
def IsJoinOf [Meet α] (vs : List α) (a : α) : Prop := ∀ b, Below a b ↔ ∀ v ∈ vs, Below v b

def IsMeetOf [Meet α] (vs : List α) (a : α) : Prop := ∀ b, Below b a ↔ ∀ v ∈ vs, Below b v

theorem isJoinOf_singleton [Meet α] (a : α) : IsJoinOf [a] a := by
  intro b
  simp

theorem isMeetOf_singleton [Meet α] (a : α) : IsMeetOf [a] a := by
  intro b
  simp

theorem IsJoinOf.of_mem_iff [Meet α] {vs ws : List α} {a : α} (h : IsJoinOf vs a)
    (hmem : ∀ v, v ∈ ws ↔ v ∈ vs) : IsJoinOf ws a := by
  intro b
  simp only [h b, hmem]

theorem IsMeetOf.of_mem_iff [Meet α] {vs ws : List α} {a : α} (h : IsMeetOf vs a)
    (hmem : ∀ v, v ∈ ws ↔ v ∈ vs) : IsMeetOf ws a := by
  intro b
  simp only [h b, hmem]

-- Every pair of a member of each list, combined.
def pairs (op : α → α → α) (vs ws : List α) : List α := vs.flatMap fun v => ws.map (op v)

theorem forall_mem_pairs {op : α → α → α} {vs ws : List α} {p : α → Prop} :
    (∀ u ∈ pairs op vs ws, p u) ↔ ∀ v ∈ vs, ∀ w ∈ ws, p (op v w) := by
  simp only [pairs, List.mem_flatMap, List.mem_map]
  constructor
  · intro h v hv w hw
    exact h _ ⟨v, hv, w, hw, rfl⟩
  · rintro h _ ⟨v, hv, w, hw, rfl⟩
    exact h v hv w hw

section Meet

variable [Meet α] [LawfulMeet α]

theorem IsMeetOf.append {vs ws : List α} {a b : α} (ha : IsMeetOf vs a) (hb : IsMeetOf ws b) :
    IsMeetOf (vs ++ ws) (meet a b) := by
  intro c
  rw [below_meet_iff, ha, hb, List.forall_mem_append]

theorem IsMeetOf.below {vs : List α} {a : α} (ha : IsMeetOf vs a) {v : α} (hv : v ∈ vs) :
    Below a v :=
  (ha a).mp (Below.refl a) v hv

end Meet

theorem IsJoinOf.append [Join α] [Meet α] [LawfulLattice α] {vs ws : List α} {a b : α}
    (ha : IsJoinOf vs a) (hb : IsJoinOf ws b) : IsJoinOf (vs ++ ws) (join a b) := by
  intro c
  rw [join_below_iff, ha, hb, List.forall_mem_append]

section Heyting

variable [Join α] [Meet α] [Imply α] [LawfulHeyting α]

theorem IsJoinOf.meet_below_iff {vs : List α} {a b c : α} (ha : IsJoinOf vs a) :
    Below (meet a b) c ↔ ∀ v ∈ vs, Below (meet v b) c := by
  rw [meet_comm, ← below_imply_iff, ha]
  simp only [below_imply_iff, meet_comm b]

theorem IsJoinOf.pairs {vs ws : List α} {a b : α} (ha : IsJoinOf vs a) (hb : IsJoinOf ws b) :
    IsJoinOf (pairs meet vs ws) (meet a b) := by
  intro c
  rw [forall_mem_pairs, ha.meet_below_iff]
  refine forall₂_congr fun v _ => ?_
  rw [meet_comm, hb.meet_below_iff]
  simp only [meet_comm v]

-- One member at a time: below `v` joined with `b`, an element splits into its meets with `v` and
-- with `b`. The part below `v` goes on to the other members.
theorem below_join_of_forall {vs : List α} {b c d : α}
    (hd : ∀ x, Below x c → (∀ v ∈ vs, Below x v) → Below x d) (hbd : Below b d)
    (h : ∀ v ∈ vs, Below c (join v b)) : Below c d := by
  induction vs generalizing c with
  | nil => exact hd c (Below.refl c) (by simp)
  | cons v vs ih =>
    rw [List.forall_mem_cons] at h
    have hsplit : Below (meet c (join v b)) d := by
      rw [meet_join_below_iff]
      refine ⟨ih (fun x hx hvs => ?_) (fun w hw => ?_), (meet_below_right c b).trans hbd⟩
      · exact hd x (hx.trans (meet_below_left c v))
          (List.forall_mem_cons.mpr ⟨hx.trans (meet_below_right c v), hvs⟩)
      · exact (meet_below_left c v).trans (h.2 w hw)
    exact (below_meet_iff.mpr ⟨Below.refl c, h.1⟩).trans hsplit

theorem IsMeetOf.below_join_iff {vs : List α} {a b c : α} (ha : IsMeetOf vs a) :
    Below c (join a b) ↔ ∀ v ∈ vs, Below c (join v b) := by
  constructor
  · intro h v hv
    exact h.trans ((ha.below hv).join (Below.refl b))
  · intro h
    refine below_join_of_forall (fun x _ hx => ?_) (below_join_right a b) h
    exact ((ha x).mpr hx).trans (below_join_left a b)

theorem IsMeetOf.pairs {vs ws : List α} {a b : α} (ha : IsMeetOf vs a) (hb : IsMeetOf ws b) :
    IsMeetOf (LabelInference.pairs join vs ws) (join a b) := by
  intro c
  rw [forall_mem_pairs, ha.below_join_iff]
  refine forall₂_congr fun v _ => ?_
  rw [join_comm, hb.below_join_iff]
  simp only [join_comm v]

end Heyting

end LabelInference

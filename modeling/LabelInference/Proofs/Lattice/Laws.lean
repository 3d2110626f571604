import LabelInference.Lattice

namespace LabelInference

universe u

def Below {α : Type u} [Meet α] (a b : α) : Prop := meet a b = a

def StrictlyBelow {α : Type u} [Meet α] (a b : α) : Prop := Below a b ∧ a ≠ b

class LawfulMeet (α : Type u) [Meet α] : Prop where
  meet_comm : ∀ a b : α, meet a b = meet b a
  meet_assoc : ∀ a b c : α, meet (meet a b) c = meet a (meet b c)
  meet_self : ∀ a : α, meet a a = a

class LawfulLattice (α : Type u) [Join α] [Meet α] : Prop extends LawfulMeet α where
  join_below_iff : ∀ {a b c : α}, Below (join a b) c ↔ Below a c ∧ Below b c

class LawfulHeyting (α : Type u) [Join α] [Meet α] [Imply α] : Prop extends LawfulLattice α where
  below_imply_iff : ∀ {a b x : α}, Below x (imply a b) ↔ Below (meet a x) b

export LawfulMeet (meet_comm meet_assoc meet_self)
export LawfulLattice (join_below_iff)
export LawfulHeyting (below_imply_iff)

theorem isBelow_iff {α : Type u} [Meet α] [DecidableEq α] {a b : α} :
    isBelow a b = true ↔ Below a b := by
  simp [isBelow, Below]

section Meet

variable {α : Type u} [Meet α] [LawfulMeet α] {a b c d : α}

theorem Below.refl (a : α) : Below a a := meet_self a

theorem Below.trans (hab : Below a b) (hbc : Below b c) : Below a c := by
  unfold Below at *
  rw [← hab, meet_assoc, hbc]

theorem Below.antisymm (hab : Below a b) (hba : Below b a) : a = b := by
  unfold Below at *
  rw [← hab, meet_comm, hba]

theorem meet_below_left (a b : α) : Below (meet a b) a := by
  unfold Below
  rw [meet_comm a b, meet_assoc, meet_self]

theorem meet_below_right (a b : α) : Below (meet a b) b := by
  unfold Below
  rw [meet_assoc, meet_self]

-- The meet is the greatest lower bound.
theorem below_meet_iff : Below a (meet b c) ↔ Below a b ∧ Below a c := by
  constructor
  · intro h
    exact ⟨h.trans (meet_below_left b c), h.trans (meet_below_right b c)⟩
  · rintro ⟨hab, hac⟩
    unfold Below at *
    rw [← meet_assoc, hab, hac]

theorem Below.meet (hab : Below a b) (hcd : Below c d) :
    Below (LabelInference.meet a c) (LabelInference.meet b d) :=
  below_meet_iff.mpr
    ⟨(meet_below_left a c).trans hab, (meet_below_right a c).trans hcd⟩

-- Greatest lower bounds of the same elements are equal.
theorem eq_of_forall_below_iff (h : ∀ c, Below c a ↔ Below c b) : a = b :=
  Below.antisymm ((h a).mp (Below.refl a)) ((h b).mpr (Below.refl b))

instance : Std.Associative (LabelInference.meet : α → α → α) := ⟨meet_assoc⟩

instance : Std.Commutative (LabelInference.meet : α → α → α) := ⟨meet_comm⟩

instance : Std.IdempotentOp (LabelInference.meet : α → α → α) := ⟨meet_self⟩

end Meet

section Lattice

variable {α : Type u} [Join α] [Meet α] [LawfulLattice α] {a b c d : α}

theorem below_join_left (a b : α) : Below a (join a b) :=
  (join_below_iff.mp (Below.refl _)).1

theorem below_join_right (a b : α) : Below b (join a b) :=
  (join_below_iff.mp (Below.refl _)).2

theorem Below.join (hab : Below a b) (hcd : Below c d) :
    Below (LabelInference.join a c) (LabelInference.join b d) :=
  join_below_iff.mpr
    ⟨hab.trans (below_join_left b d), hcd.trans (below_join_right b d)⟩

-- Least upper bounds of the same elements are equal.
theorem eq_of_below_iff (h : ∀ c, Below a c ↔ Below b c) : a = b :=
  Below.antisymm ((h b).mpr (Below.refl b)) ((h a).mp (Below.refl a))

theorem join_comm (a b : α) : join a b = join b a :=
  eq_of_below_iff fun c => by rw [join_below_iff, join_below_iff, and_comm]

theorem join_assoc (a b c : α) : join (join a b) c = join a (join b c) :=
  eq_of_below_iff fun d => by simp only [join_below_iff, and_assoc]

theorem join_self (a : α) : join a a = a :=
  eq_of_below_iff fun c => by rw [join_below_iff, and_self]

theorem meet_join_self (a b : α) : meet a (join a b) = a := below_join_left a b

theorem join_meet_self (a b : α) : join a (meet a b) = a :=
  Below.antisymm (join_below_iff.mpr ⟨Below.refl a, meet_below_left a b⟩) (below_join_left a _)

-- The order could as well be read off the join.
theorem below_iff_join_eq : Below a b ↔ join a b = b := by
  constructor
  · intro h
    exact Below.antisymm (join_below_iff.mpr ⟨h, Below.refl b⟩) (below_join_right a b)
  · intro h
    rw [← h]
    exact below_join_left a b

instance : Std.Associative (LabelInference.join : α → α → α) := ⟨join_assoc⟩

instance : Std.Commutative (LabelInference.join : α → α → α) := ⟨join_comm⟩

instance : Std.IdempotentOp (LabelInference.join : α → α → α) := ⟨join_self⟩

end Lattice

-- All laws of a distributive lattice with a greatest and a least element, as equations between the
-- elements. The order is the one that the meet decides.
structure IsBoundedDistributive {α : Type u} [Join α] [Meet α] [DecidableEq α]
    (bounds : Bounds α) : Prop where
  join_comm : ∀ a b : α, join a b = join b a
  join_assoc : ∀ a b c : α, join (join a b) c = join a (join b c)
  join_self : ∀ a : α, join a a = a
  meet_comm : ∀ a b : α, meet a b = meet b a
  meet_assoc : ∀ a b c : α, meet (meet a b) c = meet a (meet b c)
  meet_self : ∀ a : α, meet a a = a
  join_meet_self : ∀ a b : α, join a (meet a b) = a
  meet_join_self : ∀ a b : α, meet a (join a b) = a
  meet_join_left : ∀ a b c : α, meet a (join b c) = join (meet a b) (meet a c)
  join_meet_left : ∀ a b c : α, join a (meet b c) = meet (join a b) (join a c)
  join_bottom : ∀ a : α, join a bounds.bottom = a
  meet_top : ∀ a : α, meet a bounds.top = a
  isBelow_iff : ∀ a b : α, isBelow a b = true ↔ meet a b = a
  isBelow_trans : ∀ a b c : α, isBelow a b = true → isBelow b c = true → isBelow a c = true
  isBelow_antisymm : ∀ a b : α, isBelow a b = true → isBelow b a = true → a = b
  meet_lower : ∀ a b : α, isBelow (meet a b) a = true ∧ isBelow (meet a b) b = true
  meet_greatest : ∀ a b c : α, isBelow c a = true → isBelow c b = true → isBelow c (meet a b) = true
  join_upper : ∀ a b : α, isBelow a (join a b) = true ∧ isBelow b (join a b) = true
  join_least : ∀ a b c : α, isBelow a c = true → isBelow b c = true → isBelow (join a b) c = true

section Heyting

variable {α : Type u} [Join α] [Meet α] [Imply α] [LawfulHeyting α] {a b c : α}

-- A bound of both parts of a join bounds the join, also after a meet: the adjunction turns the meet
-- into a bound on the join itself.
theorem meet_join_below_iff {d : α} :
    Below (meet a (join b c)) d ↔ Below (meet a b) d ∧ Below (meet a c) d := by
  rw [← below_imply_iff, join_below_iff, below_imply_iff, below_imply_iff]

theorem meet_join_left (a b c : α) : meet a (join b c) = join (meet a b) (meet a c) :=
  eq_of_below_iff fun d => by rw [meet_join_below_iff, join_below_iff]

-- By absorption, the one distributive law yields the other.
theorem join_meet_left (a b c : α) : join a (meet b c) = meet (join a b) (join a c) := by
  symm
  calc meet (join a b) (join a c)
      = join (meet a (join a b)) (meet c (join a b)) := by
        rw [meet_join_left, meet_comm a, meet_comm c]
    _ = join a (join (meet c a) (meet c b)) := by rw [meet_join_self, meet_join_left]
    _ = join (join a (meet a c)) (meet b c) := by rw [join_assoc, meet_comm a, meet_comm b]
    _ = join a (meet b c) := by rw [join_meet_self]

theorem Below.imply (a : α) (h : Below b c) :
    Below (LabelInference.imply a b) (LabelInference.imply a c) :=
  below_imply_iff.mpr ((below_imply_iff.mp (Below.refl _)).trans h)

theorem isBoundedDistributive [DecidableEq α] {bounds : Bounds α} (htop : ∀ a, Below a bounds.top)
    (hbottom : ∀ a, Below bounds.bottom a) : IsBoundedDistributive bounds where
  join_comm := join_comm
  join_assoc := join_assoc
  join_self := join_self
  meet_comm := meet_comm
  meet_assoc := meet_assoc
  meet_self := meet_self
  join_meet_self := join_meet_self
  meet_join_self := meet_join_self
  meet_join_left := meet_join_left
  join_meet_left := join_meet_left
  join_bottom a := Below.antisymm (join_below_iff.mpr ⟨Below.refl a, hbottom a⟩) (below_join_left a _)
  meet_top := htop
  isBelow_iff _ _ := isBelow_iff
  isBelow_trans _ _ _ hab hbc := isBelow_iff.mpr ((isBelow_iff.mp hab).trans (isBelow_iff.mp hbc))
  isBelow_antisymm _ _ hab hba := Below.antisymm (isBelow_iff.mp hab) (isBelow_iff.mp hba)
  meet_lower a b := ⟨isBelow_iff.mpr (meet_below_left a b), isBelow_iff.mpr (meet_below_right a b)⟩
  meet_greatest _ _ _ hca hcb :=
    isBelow_iff.mpr (below_meet_iff.mpr ⟨isBelow_iff.mp hca, isBelow_iff.mp hcb⟩)
  join_upper a b := ⟨isBelow_iff.mpr (below_join_left a b), isBelow_iff.mpr (below_join_right a b)⟩
  join_least _ _ _ hac hbc :=
    isBelow_iff.mpr (join_below_iff.mpr ⟨isBelow_iff.mp hac, isBelow_iff.mp hbc⟩)

end Heyting

end LabelInference

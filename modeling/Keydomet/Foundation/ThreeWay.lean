import Mathlib.Order.Defs.LinearOrder
import Mathlib.Order.Lattice
import Mathlib.Data.Int.Order.Basic

/-!
# Three-way comparison results

A C comparison function answers with an integer of which only the sign is
specified. `ComparesAs r a b` says that this sign is the order of `a` and `b`.
-/

namespace Foundation

/-- The sign of `r` is the order of `a` and `b`. -/
structure ComparesAs {α : Type} [LinearOrder α] (r : Int) (a b : α) : Prop where
  neg_iff : r < 0 ↔ a < b
  pos_iff : 0 < r ↔ b < a

namespace ComparesAs

variable {α β : Type} [LinearOrder α] [LinearOrder β] {r r' : Int} {a b : α} {c d : β}

theorem of_lt (hr : r < 0) (h : a < b) : ComparesAs r a b :=
  ⟨⟨fun _ => h, fun _ => hr⟩, ⟨fun hp => absurd hp (by omega), fun hb => absurd hb h.asymm⟩⟩

theorem of_gt (hr : 0 < r) (h : b < a) : ComparesAs r a b :=
  ⟨⟨fun hn => absurd hn (by omega), fun ha => absurd ha h.asymm⟩, ⟨fun _ => h, fun _ => hr⟩⟩

theorem refl (a : α) : ComparesAs 0 a a :=
  ⟨⟨fun h => absurd h (by omega), fun h => absurd h (lt_irrefl a)⟩,
    ⟨fun h => absurd h (by omega), fun h => absurd h (lt_irrefl a)⟩⟩

theorem eq_zero_iff (h : ComparesAs r a b) : r = 0 ↔ a = b := by
  have hn := h.neg_iff
  have hp := h.pos_iff
  constructor
  · rintro rfl
    exact le_antisymm (not_lt.mp fun hba => by simpa using hp.mpr hba)
      (not_lt.mp fun hab => by simpa using hn.mpr hab)
  · rintro rfl
    have notNeg : ¬ r < 0 := fun hr => lt_irrefl a (hn.mp hr)
    have notPos : ¬ 0 < r := fun hr => lt_irrefl a (hp.mp hr)
    omega

theorem congr (h : ComparesAs r a b) (lt : a < b ↔ c < d) (gt : b < a ↔ d < c) :
    ComparesAs r c d :=
  ⟨h.neg_iff.trans lt, h.pos_iff.trans gt⟩

theorem sign_eq (h : ComparesAs r a b) (h' : ComparesAs r' a b) : r.sign = r'.sign := by
  have hneg : r < 0 ↔ r' < 0 := h.neg_iff.trans h'.neg_iff.symm
  have hpos : 0 < r ↔ 0 < r' := h.pos_iff.trans h'.pos_iff.symm
  rcases lt_trichotomy r 0 with hr | rfl | hr
  · rw [Int.sign_eq_neg_one_of_neg hr, Int.sign_eq_neg_one_of_neg (hneg.mp hr)]
  · obtain rfl : r' = 0 := by omega
    rfl
  · rw [Int.sign_eq_one_of_pos hr, Int.sign_eq_one_of_pos (hpos.mp hr)]

end ComparesAs

end Foundation

import Mathlib.Data.Nat.Count
import Mathlib.Data.List.Dedup

/-!
# Going through a list in circles

A loop that takes the element at position `i % length` in its i-th step goes through the
list again and again. Over `q` passes an element that satisfies a predicate is met `q` times
(`count_cyclic`).
-/

namespace Foundation

variable {α : Type}

theorem count_getElem? (p : α → Bool) (l : List α) :
    Nat.count (fun i => (l[i]?).any p) l.length = l.countP p := by
  induction l with
  | nil => rfl
  | cons a l ih =>
      rw [List.length_cons, Nat.count_succ', List.countP_cons]
      simp only [List.getElem?_cons_succ, List.getElem?_cons_zero, Option.any_some]
      rw [ih]

theorem count_cyclic (p : α → Bool) (l : List α) (q : Nat) :
    Nat.count (fun i => (l[i % l.length]?).any p) (q * l.length) = q * l.countP p := by
  induction q with
  | zero => simp
  | succ q ih =>
      have pass : Nat.count (fun i => (l[(q * l.length + i) % l.length]?).any p) l.length =
          l.countP p := by
        rw [← count_getElem?, Nat.count_eq_card_filter_range, Nat.count_eq_card_filter_range]
        congr 1
        apply Finset.filter_congr
        intro i hi
        rw [Nat.add_comm, Nat.add_mul_mod_self_right, Nat.mod_eq_of_lt (Finset.mem_range.mp hi)]
      rw [Nat.succ_mul, Nat.count_add, ih, pass, Nat.succ_mul]

/-- The members of a list without duplicates that belong to a smaller one. -/
theorem countP_mem_of_subset [DecidableEq α] {small large : List α} (nodup : small.Nodup)
    (nodup' : large.Nodup) (subset : small ⊆ large) :
    large.countP (fun a => a ∈ small) = small.length := by
  rw [List.countP_eq_length_filter]
  apply List.Perm.length_eq
  refine (List.perm_ext_iff_of_nodup (nodup'.filter _) nodup).mpr ?_
  intro a
  rw [List.mem_filter, decide_eq_true_eq]
  exact and_iff_right_of_imp fun h => subset h

end Foundation

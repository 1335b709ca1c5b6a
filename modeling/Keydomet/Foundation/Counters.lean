import Mathlib.Algebra.BigOperators.Group.Finset.Piecewise
import Mathlib.Data.List.Count

/-!
# Families of machine counters

A family of unsigned 64-bit counters, any of which may be incremented at any time. A
`tally` performs the increments of a log; `tally_apply` reads a counter after it, modulo
`2^64`. When the counters come in groups, the increments of a group are counted by
`sum_count_pair`.
-/

namespace Foundation

variable {ι γ : Type} [DecidableEq ι] [DecidableEq γ]

/-- A family of counters, which wrap around at 64 bits. -/
abbrev Counters (ι : Type) := ι → UInt64

namespace Counters

def increment (c : Counters ι) (i : ι) : Counters ι := Function.update c i (c i + 1)

/-- Perform the increments of a log. -/
def tally (c : Counters ι) (log : List ι) : Counters ι := log.foldl increment c

@[simp] theorem tally_nil (c : Counters ι) : c.tally [] = c := rfl

@[simp] theorem tally_cons (c : Counters ι) (i : ι) (log : List ι) :
    c.tally (i :: log) = (c.increment i).tally log := rfl

theorem tally_apply [BEq ι] [LawfulBEq ι] (c : Counters ι) (log : List ι) (i : ι) :
    c.tally log i = c i + UInt64.ofNat (log.count i) := by
  induction log generalizing c with
  | nil => simp
  | cons j log ih =>
      rw [tally_cons, ih, increment]
      by_cases h : j = i
      · subst j
        rw [Function.update_self, List.count_cons_self, UInt64.ofNat_add, UInt64.add_assoc,
          UInt64.add_comm 1]
        rfl
      · rw [Function.update_of_ne (Ne.symm h), List.count_cons_of_ne h]

end Counters

/-- The increments of one member of each group, in a log of groups and members. -/
theorem sum_count_pair {groups : Finset ι} {log : List (ι × γ)} (g : γ)
    (covered : ∀ x ∈ log, x.1 ∈ groups) :
    ∑ i ∈ groups, log.count (i, g) = log.countP fun x => x.2 = g := by
  induction log with
  | nil => simp
  | cons x log ih =>
      obtain ⟨j, h⟩ := x
      obtain ⟨inGroups, rest⟩ := List.forall_mem_cons.mp covered
      simp only [List.count_cons, List.countP_cons, Finset.sum_add_distrib, ih rest]
      congr 1
      by_cases same : h = g
      · subst h
        simp [inGroups]
      · simp [same]

end Foundation

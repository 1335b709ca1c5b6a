import Keydomet.Foundation.Traced
import Mathlib.Data.List.Sort

/-!
# Sorting with a comparator that may fault and log

A sorting routine of a standard library is known by its contract: given a
comparator that answers with a strict weak order, it returns a permutation of its
input in which no later element precedes an earlier one. `StdSort` is a routine
with this contract, of which nothing else is assumed; it need not be stable.

`StdSort.sort_map_eq` is the rule for comparing two sorts: if both comparators
order their elements by keys in one linear order, and the keys of one input are a
permutation of those of the other, then the sorted lists have the same keys.
-/

namespace Foundation

variable {ρ ε : Type} {α β κ : Type}

/-- A strict weak order on the elements of a list. -/
structure StrictWeakOrderOn (r : α → α → Prop) (l : List α) : Prop where
  irrefl : ∀ a ∈ l, ¬ r a a
  trans : ∀ a ∈ l, ∀ b ∈ l, ∀ c ∈ l, r a b → r b c → r a c
  /-- Incomparability is transitive, in its positive form. -/
  cotrans : ∀ a ∈ l, ∀ b ∈ l, ∀ c ∈ l, r a c → r a b ∨ r b c

/-- No later element precedes an earlier one. -/
def SortedBy (r : α → α → Prop) (l : List α) : Prop := l.Pairwise fun a b => ¬ r b a

/-- On the elements of a list, a comparator answers with a relation. -/
def AnswersOn (comp : α → α → Traced ρ ε Bool) (r : α → α → Prop) (l : List α) : Prop :=
  ∀ a ∈ l, ∀ b ∈ l, (comp a b).Answers (r a b)

/-- A sorting routine and its contract. -/
structure StdSort (ρ ε : Type) where
  sort : {α : Type} → (α → α → Traced ρ ε Bool) → List α → Traced ρ ε (List α)
  contract : ∀ {α : Type} (comp : α → α → Traced ρ ε Bool) (r : α → α → Prop) (l : List α),
    AnswersOn comp r l → StrictWeakOrderOn r l →
      ∃ sorted, (sort comp l).value = .ok sorted ∧ sorted.Perm l ∧ SortedBy r sorted

theorem strictWeakOrderOn_key [LinearOrder κ] (key : α → κ) (l : List α) :
    StrictWeakOrderOn (fun a b => key a < key b) l where
  irrefl a _ := lt_irrefl (key a)
  trans _ _ _ _ _ _ := lt_trans
  cotrans a _ b _ _ _ less :=
    (lt_or_ge (key a) (key b)).imp_right fun above => above.trans_lt less

namespace StdSort

theorem sort_by_key [LinearOrder κ] (S : StdSort ρ ε) {comp : α → α → Traced ρ ε Bool}
    (key : α → κ) {l : List α}
    (answers : AnswersOn comp (fun a b => key a < key b) l) :
    ∃ sorted, (S.sort comp l).value = .ok sorted ∧ sorted.Perm l ∧
      (sorted.map key).Pairwise (· ≤ ·) := by
  obtain ⟨sorted, run, perm, ordered⟩ :=
    S.contract comp _ l answers (strictWeakOrderOn_key key l)
  refine ⟨sorted, run, perm, ?_⟩
  rw [List.pairwise_map]
  exact ordered.imp not_lt.mp

/-- Sorts of two lists whose keys are permutations of each other, with comparators
that order by these keys, return lists with the same keys. -/
theorem sort_map_eq [LinearOrder κ] (S S' : StdSort ρ ε)
    {comp : α → α → Traced ρ ε Bool} {comp' : β → β → Traced ρ ε Bool}
    {key : α → κ} {key' : β → κ} {l : List α} {l' : List β}
    (answers : AnswersOn comp (fun a b => key a < key b) l)
    (answers' : AnswersOn comp' (fun a b => key' a < key' b) l')
    (perm : (l.map key).Perm (l'.map key')) :
    ∃ sorted sorted', (S.sort comp l).value = .ok sorted ∧ sorted.Perm l ∧
      (S'.sort comp' l').value = .ok sorted' ∧ sorted'.Perm l' ∧
      sorted.map key = sorted'.map key' := by
  obtain ⟨sorted, run, rearranged, ordered⟩ := S.sort_by_key key answers
  obtain ⟨sorted', run', rearranged', ordered'⟩ := S'.sort_by_key key' answers'
  refine ⟨sorted, sorted', run, rearranged, run', rearranged', ?_⟩
  have same : (sorted.map key).Perm (sorted'.map key') :=
    ((rearranged.map key).trans perm).trans (rearranged'.map key').symm
  exact same.eq_of_pairwise' ordered ordered'

end StdSort

/-! ## Insertion sort meets the contract -/

section InsertionSort

variable {comp : α → α → Traced ρ ε Bool} {r : α → α → Prop} {l : List α}

/-- Insert an element in front of the first one that it precedes. -/
def insertSorted (comp : α → α → Traced ρ ε Bool) (x : α) : List α → Traced ρ ε (List α)
  | [] => pure [x]
  | y :: ys => do
      if ← comp x y then
        return x :: y :: ys
      else
        return y :: (← insertSorted comp x ys)

/-- Insertion sort. -/
def insertionSortTraced (comp : α → α → Traced ρ ε Bool) : List α → Traced ρ ε (List α)
  | [] => pure []
  | x :: xs => do insertSorted comp x (← insertionSortTraced comp xs)

theorem insertSorted_spec (answers : AnswersOn comp r l) (order : StrictWeakOrderOn r l)
    {x : α} (hx : x ∈ l) {ys : List α} (hys : ∀ y ∈ ys, y ∈ l) (ordered : SortedBy r ys) :
    ∃ zs, (insertSorted comp x ys).value = .ok zs ∧ zs.Perm (x :: ys) ∧ SortedBy r zs := by
  induction ys with
  | nil => exact ⟨[x], rfl, .refl _, List.pairwise_singleton _ _⟩
  | cons y ys ih =>
      have hy := hys y List.mem_cons_self
      have hrest : ∀ z ∈ ys, z ∈ l := fun z hz => hys z (List.mem_cons_of_mem y hz)
      obtain ⟨first, rest⟩ := List.pairwise_cons.mp ordered
      obtain ⟨smaller, answer, meaning⟩ := answers x hx y hy
      rw [insertSorted, Traced.value_bind_of_eq answer]
      cases smaller with
      | true =>
          have less : r x y := meaning.mp rfl
          refine ⟨x :: y :: ys, rfl, .refl _, List.pairwise_cons.mpr ⟨fun z hz => ?_, ordered⟩⟩
          -- An element before `x` would be before `y` as well.
          intro before
          rcases List.mem_cons.mp hz with rfl | hz
          · exact order.irrefl x hx (order.trans x hx z hy x hx less before)
          · exact first z hz (order.trans z (hrest z hz) x hx y hy before less)
      | false =>
          have notLess : ¬ r x y := fun h => Bool.false_ne_true (meaning.mpr h)
          obtain ⟨zs, run, perm, sorted⟩ := ih hrest rest
          refine ⟨y :: zs, ?_, (perm.cons y).trans (.swap x y ys), ?_⟩
          · rw [if_neg Bool.false_ne_true, Traced.value_bind_of_eq run]
            rfl
          · refine List.pairwise_cons.mpr ⟨fun z hz => ?_, sorted⟩
            rcases List.mem_cons.mp (perm.mem_iff.mp hz) with rfl | hz
            · exact notLess
            · exact first z hz

theorem insertionSortTraced_spec (answers : AnswersOn comp r l) (order : StrictWeakOrderOn r l)
    {xs : List α} (hxs : ∀ x ∈ xs, x ∈ l) :
    ∃ sorted, (insertionSortTraced comp xs).value = .ok sorted ∧ sorted.Perm xs ∧
      SortedBy r sorted := by
  induction xs with
  | nil => exact ⟨[], rfl, .refl _, List.Pairwise.nil⟩
  | cons x xs ih =>
      obtain ⟨sorted, run, perm, ordered⟩ := ih fun y hy => hxs y (List.mem_cons_of_mem x hy)
      have inside : ∀ y ∈ sorted, y ∈ l := fun y hy =>
        hxs y (List.mem_cons_of_mem x (perm.mem_iff.mp hy))
      obtain ⟨zs, inserted, perm', ordered'⟩ :=
        insertSorted_spec answers order (hxs x List.mem_cons_self) inside ordered
      refine ⟨zs, ?_, perm'.trans (perm.cons x), ordered'⟩
      rw [insertionSortTraced, Traced.value_bind_of_eq run, inserted]

def StdSort.insertion (ρ ε : Type) : StdSort ρ ε where
  sort := insertionSortTraced
  contract _ _ _ answers order := insertionSortTraced_spec answers order fun _ hx => hx

end InsertionSort

end Foundation

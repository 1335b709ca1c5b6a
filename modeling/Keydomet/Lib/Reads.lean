import Keydomet.Lib.Order

/-!
# Which bytes a comparison inspects

The log of `compare` records every byte read from either string. In the fallback
these are the positions from 1 up to the deciding one: `sizeof(PrefixSize)` is the
size of the enumeration type, not the number of bytes the prefix covers, so only
the first byte is skipped.
-/

namespace Kdmt

open Foundation

/-- The position of a read from the given operand. -/
def Effect.position? (operand : Operand) : Effect → Option Nat
  | .read op position => if op = operand then some position else none
  | .increment _ _ => none

def readPositions (operand : Operand) (log : List Effect) : List Nat :=
  log.filterMap (Effect.position? operand)

theorem readPositions_compareReads {operand : Operand} (h : operand ≠ .source) (k d : Nat) :
    readPositions operand (compareReads (.read .left) (.read .right) k k d) =
      List.range' k (d + 1) := by
  have pair : ∀ i : Nat, List.filterMap (Effect.position? operand)
      [Effect.read .left i, Effect.read .right i] = [i] := by
    cases operand with
    | source => exact absurd rfl h
    | left => intro; rfl
    | right => intro; rfl
  simp only [readPositions, compareReads, List.filterMap_flatMap, pair]
  rw [← List.map_eq_flatMap, List.range'_eq_map_range]

namespace Keydomet

variable {σ τ : Type} [StrImp σ] [StrImp τ] {N : PrefixSize}
variable {a : Keydomet σ N} {b : Keydomet τ N}

/-- Two keydomets for which `compare` has to look at the strings: equal prefixes,
and both strings fill them. -/
structure PrefixCollision (a : Keydomet σ N) (b : Keydomet τ N) : Prop where
  validLeft : a.Valid
  validRight : b.Valid
  terminatedLeft : Terminated a.str
  terminatedRight : Terminated b.str
  samePrefix : a.prefixRep = b.prefixRep
  filledLeft : N.toNat ≤ (cstr a.str).length
  filledRight : N.toNat ≤ (cstr b.str).length

/-- The first position at which the two strings differ or both end. -/
def firstDifference (a : Keydomet σ N) (b : Keydomet τ N) : Nat :=
  agreement (rawBytes a.str) (rawBytes b.str)

theorem PrefixCollision.le_firstDifference (h : PrefixCollision a b) :
    N.toNat ≤ firstDifference a b := by
  have same := h.samePrefix
  rw [h.validLeft, h.validRight,
    PrefixRep.encode_inj (zero_notMem_cstr _) (zero_notMem_cstr _)] at same
  exact le_agreement_iff.mpr ⟨h.filledLeft, h.filledRight, same⟩

/-- The positions inspected in either string are exactly those from 1 to the
first difference. -/
theorem PrefixCollision.readPositions_compare (h : PrefixCollision a b) :
    ∃ r log, a.compare b = .ok r log ∧
      ∀ operand, operand ≠ .source →
        readPositions operand log = List.range' 1 (firstDifference a b) := by
  have long : a.prefixRep.stringShorterThanPrefix = false := by
    rw [h.validLeft, ← Bool.not_eq_true, PrefixRep.encode_short_iff (zero_notMem_cstr _)]
    exact Nat.not_lt.mpr h.filledLeft
  obtain ⟨r, run, -⟩ := compare_fallback h.validLeft h.validRight h.samePrefix long
    (decides_of_terminated h.terminatedLeft h.terminatedRight)
  refine ⟨r, _, run, fun operand ne => ?_⟩
  have pos : 0 < firstDifference a b :=
    Nat.lt_of_lt_of_le N.toNat_pos h.le_firstDifference
  have count : agreement (rawBytes a.str) (rawBytes b.str) - 1 + 1 = firstDifference a b :=
    Nat.sub_add_cancel pos
  have unread : Effect.position? operand
      (.increment ⟨StrImp.id σ, N⟩ .usedString) = none := rfl
  rw [readPositions, List.filterMap_cons_none unread, ← readPositions,
    readPositions_compareReads ne, count]

/-- The documented deduplication: the fallback inspects no position the prefix
covers, and in either string exactly those from the first uncovered one to the
first difference. -/
structure Deduplicated (a : Keydomet σ N) (b : Keydomet τ N) (log : List Effect) : Prop where
  skipsPrefix : ∀ operand, operand ≠ .source → ∀ i ∈ readPositions operand log, N.toNat ≤ i
  count : ∀ operand, operand ≠ .source →
    (readPositions operand log).length = firstDifference a b - N.toNat + 1

/-- On every prefix collision `compare` runs, and both halves of the deduplication
fail in either string: it inspects a position the prefix covers, and it inspects
more positions than the uncovered ones. -/
theorem fallback_never_deduplicates (h : PrefixCollision a b) :
    ∃ r log, a.compare b = .ok r log ∧ ¬ Deduplicated a b log ∧
      ∀ operand, operand ≠ .source →
        (∃ i ∈ readPositions operand log, i < N.toNat) ∧
        (readPositions operand log).length ≠ firstDifference a b - N.toNat + 1 := by
  obtain ⟨r, log, run, positions⟩ := h.readPositions_compare
  have wide := N.two_le_toNat
  have far := h.le_firstDifference
  have fails : ∀ operand, operand ≠ .source →
      (∃ i ∈ readPositions operand log, i < N.toNat) ∧
      (readPositions operand log).length ≠ firstDifference a b - N.toNat + 1 := by
    intro operand ne
    rw [positions operand ne, List.length_range']
    exact ⟨⟨1, List.mem_range'_1.mpr (by omega), by omega⟩, by omega⟩
  refine ⟨r, log, run, fun dedup => ?_, fails⟩
  exact (fails .left (by decide)).2 (dedup.count .left (by decide))

/-- "abc" against "abd" with the two-byte prefix "ab": byte 1 is compared again. -/
theorem fallback_reads_byte_one :
    ∃ r log,
      (mkValid .size16bit (StdString.mk [97, 98, 99])).compare
        (mkValid .size16bit (StdString.mk [97, 98, 100])) = .ok r log ∧
      ¬ Deduplicated (mkValid .size16bit (StdString.mk [97, 98, 99]))
        (mkValid .size16bit (StdString.mk [97, 98, 100])) log := by
  refine ⟨_, _, rfl, fun dedup => ?_⟩
  exact absurd (dedup.skipsPrefix .left (by decide) 1 (by decide)) (by decide)

theorem abc_abd_collide :
    PrefixCollision (mkValid .size16bit (StdString.mk [97, 98, 99]))
      (mkValid .size16bit (StdString.mk [97, 98, 100])) where
  validLeft := rfl
  validRight := rfl
  terminatedLeft := by decide
  terminatedRight := by decide
  samePrefix := by decide
  filledLeft := by decide
  filledRight := by decide

/-- The collision of "abc" and "abd" is one of the inputs covered above. -/
theorem fallback_never_deduplicates_abc_abd :
    ∃ r log,
      (mkValid .size16bit (StdString.mk [97, 98, 99])).compare
        (mkValid .size16bit (StdString.mk [97, 98, 100])) = .ok r log ∧
      ¬ Deduplicated (mkValid .size16bit (StdString.mk [97, 98, 99]))
        (mkValid .size16bit (StdString.mk [97, 98, 100])) log := by
  obtain ⟨r, log, run, notDeduplicated, -⟩ := fallback_never_deduplicates abc_abd_collide
  exact ⟨r, log, run, notDeduplicated⟩

end Keydomet

end Kdmt

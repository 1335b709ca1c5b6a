import Mathlib.Data.List.Lex
import Mathlib.Data.Nat.Digits.Defs
import Mathlib.Order.Basic
import Mathlib.Tactic.Ring

/-!
# Bytes, their order and the numbers they spell

`UInt8` is ordered by its unsigned value, and `List UInt8` lexicographically with
a proper prefix first. `littleEndian` is the number an object representation
denotes on a little-endian host, `bigEndian` the number whose most significant
digit is the first byte, and `littleEndianBytes` the object representation of a
number of a given width.

The main result is `bigEndian_lt_iff`: on byte strings of one length the
big-endian number is an order embedding, so one integer comparison decides the
lexicographic order.
-/

namespace Foundation

/-- Bytes are compared as unsigned numbers. -/
instance instLinearOrderUInt8 : LinearOrder UInt8 where
  le_refl _ := UInt8.le_refl _
  le_trans _ _ _ := UInt8.le_trans
  lt_iff_le_not_ge a b := by
    rw [UInt8.lt_iff_toNat_lt, UInt8.le_iff_toNat_le, UInt8.le_iff_toNat_le]
    omega
  le_antisymm _ _ := UInt8.le_antisymm
  le_total _ _ := UInt8.le_total _ _
  toDecidableLE := inferInstance
  toDecidableLT := inferInstance
  toDecidableEq := inferInstance

/-- The number stored as the given bytes, least significant byte first. -/
def littleEndian (bytes : List UInt8) : Nat :=
  Nat.ofDigits 256 (bytes.map UInt8.toNat)

/-- The number written as the given bytes, most significant byte first. -/
def bigEndian (bytes : List UInt8) : Nat :=
  littleEndian bytes.reverse

/-- The `n` low bytes of a number, least significant byte first. -/
def littleEndianBytes : Nat → Nat → List UInt8
  | 0, _ => []
  | n + 1, x => UInt8.ofNat x :: littleEndianBytes n (x / 256)

@[simp] theorem littleEndian_nil : littleEndian [] = 0 := rfl

@[simp] theorem littleEndian_cons (b : UInt8) (bytes : List UInt8) :
    littleEndian (b :: bytes) = b.toNat + 256 * littleEndian bytes := by
  rw [littleEndian, List.map_cons, Nat.ofDigits_cons, littleEndian]

theorem littleEndian_append (low high : List UInt8) :
    littleEndian (low ++ high) = littleEndian low + 256 ^ low.length * littleEndian high := by
  rw [littleEndian, List.map_append, Nat.ofDigits_append, List.length_map]
  rfl

theorem littleEndian_lt (bytes : List UInt8) : littleEndian bytes < 256 ^ bytes.length := by
  rw [← List.length_map (f := UInt8.toNat)]
  apply Nat.ofDigits_lt_base_pow_length (by decide)
  intro d hd
  obtain ⟨b, -, rfl⟩ := List.mem_map.mp hd
  exact b.toNat_lt

theorem littleEndianBytes_littleEndian (bytes : List UInt8) :
    littleEndianBytes bytes.length (littleEndian bytes) = bytes := by
  induction bytes with
  | nil => rfl
  | cons b bytes ih =>
      have digit : UInt8.ofNat (littleEndian (b :: bytes)) = b := by
        apply UInt8.toNat_inj.mp
        have := b.toNat_lt
        rw [UInt8.toNat_ofNat', littleEndian_cons]
        omega
      have rest : littleEndian (b :: bytes) / 256 = littleEndian bytes := by
        have := b.toNat_lt
        rw [littleEndian_cons]
        omega
      rw [List.length_cons, littleEndianBytes, digit, rest, ih]

@[simp] theorem bigEndian_nil : bigEndian [] = 0 := rfl

theorem bigEndian_append (high low : List UInt8) :
    bigEndian (high ++ low) = bigEndian high * 256 ^ low.length + bigEndian low := by
  rw [bigEndian, List.reverse_append, littleEndian_append, List.length_reverse]
  unfold bigEndian
  ring

theorem bigEndian_cons (b : UInt8) (bytes : List UInt8) :
    bigEndian (b :: bytes) = b.toNat * 256 ^ bytes.length + bigEndian bytes := by
  have single : bigEndian [b] = b.toNat := by simp [bigEndian]
  rw [← List.singleton_append, bigEndian_append, single]

theorem bigEndian_lt (bytes : List UInt8) : bigEndian bytes < 256 ^ bytes.length := by
  rw [← List.length_reverse]
  exact littleEndian_lt bytes.reverse

theorem bigEndian_concat_mod (bytes : List UInt8) (b : UInt8) :
    bigEndian (bytes ++ [b]) % 256 = b.toNat := by
  have := b.toNat_lt
  rw [bigEndian_append, bigEndian_cons]
  simp only [List.length_cons, List.length_nil, bigEndian_nil]
  omega

/-- Big-endian numbers of one width are ordered as the bytes they spell. -/
theorem bigEndian_lt_iff {xs ys : List UInt8} (same : xs.length = ys.length) :
    bigEndian xs < bigEndian ys ↔ xs < ys := by
  induction xs generalizing ys with
  | nil =>
      obtain rfl := List.length_eq_zero_iff.mp same.symm
      simp
  | cons x xs ih =>
      cases ys with
      | nil => cases same
      | cons y ys =>
          have tails : xs.length = ys.length := Nat.succ.inj same
          have hx := bigEndian_lt xs
          have hy := bigEndian_lt ys
          rw [tails] at hx
          rw [bigEndian_cons, bigEndian_cons, List.cons_lt_cons_iff, tails, ← ih tails]
          rcases lt_trichotomy x y with less | rfl | greater
          · -- A smaller leading digit outweighs everything below it.
            have leading : (x.toNat + 1) * 256 ^ ys.length ≤ y.toNat * 256 ^ ys.length :=
              Nat.mul_le_mul_right _ (UInt8.lt_iff_toNat_lt.mp less)
            rw [Nat.succ_mul] at leading
            simp only [less, true_or, iff_true]
            omega
          · simp
          · have leading : (y.toNat + 1) * 256 ^ ys.length ≤ x.toNat * 256 ^ ys.length :=
              Nat.mul_le_mul_right _ (UInt8.lt_iff_toNat_lt.mp greater)
            rw [Nat.succ_mul] at leading
            simp only [not_lt_of_gt greater, ne_of_gt greater, false_and, or_self, iff_false]
            omega

theorem bigEndian_inj {xs ys : List UInt8} (same : xs.length = ys.length) :
    bigEndian xs = bigEndian ys ↔ xs = ys := by
  constructor
  · intro h
    apply le_antisymm <;> rw [← not_lt]
    · rw [← bigEndian_lt_iff same.symm, h]
      exact Nat.lt_irrefl _
    · rw [← bigEndian_lt_iff same, h]
      exact Nat.lt_irrefl _
  · rintro rfl
    rfl

end Foundation

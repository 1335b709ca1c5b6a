import Keydomet.Foundation.PrefixNumber
import Keydomet.Lib.Prefix

/-!
# The prefix is an order-preserving encoding

A storage type is lawful when its operators compute on the number it stands for
and byte swapping turns memory order into a big-endian number. All four storage
types are. `PrefixRep.ofStr_eq` is the specification of `str_to_prefix`; the
`prefix_rep` operators and the short-string test are then statements about
`prefixNumber`.
-/

namespace Kdmt

open Foundation

/-! ## `strcmp` on raw strings -/

section Strcmp

variable {σ τ : Type} [StrImp σ] [StrImp τ] {a : σ} {b : τ} {k : Nat}

theorem strcmpAt_reads (p q k d : Nat) :
    compareReads (fun i => Effect.read .left (i - p)) (fun i => Effect.read .right (i - q))
      (p + k) (q + k) d = compareReads (.read .left) (.read .right) k k d := by
  have shift : ∀ p i : Nat, p + k + i - p = k + i := by omega
  simp only [compareReads, shift]

/-- A comparison decided inside both arrays: its reads and the sign of its result. -/
theorem strcmpAt_eq (decided : Decides ((rawBytes a).drop k) ((rawBytes b).drop k)) :
    ∃ r, strcmpAt k a b =
        .ok r (compareReads (.read .left) (.read .right) k k
          (agreement ((rawBytes a).drop k) ((rawBytes b).drop k))) ∧
      ComparesAs r (cString ((rawBytes a).drop k)) (cString ((rawBytes b).drop k)) := by
  obtain ⟨r, run, ordered⟩ := strcmpFrom_eq
    (fun i => Effect.read .left (i - (getRawStr a).offset))
    (fun i => Effect.read .right (i - (getRawStr b).offset)) decided
    ((getRawStr a).offset + k) ((getRawStr b).offset + k)
  refine ⟨r, ?_, ordered⟩
  rw [strcmpAt_reads] at run
  rw [strcmpAt, strcmp, CharPtr.rest_add, CharPtr.rest_add]
  exact run

/-- A comparison that no position decides leaves one of the arrays. -/
theorem strcmpAt_fault (undecided : ¬ Decides ((rawBytes a).drop k) ((rawBytes b).drop k)) :
    strcmpAt k a b = .fault .outOfBounds := by
  rw [strcmpAt, strcmp, CharPtr.rest_add, CharPtr.rest_add]
  exact strcmpFrom_fault _ _ undecided _ _

theorem strcmpAt_zero_comparesAs (ha : Terminated a) (hb : Terminated b) :
    ∃ r, (strcmpAt 0 a b).value = .ok r ∧ ComparesAs r (cstr a) (cstr b) := by
  obtain ⟨r, run, ordered⟩ := strcmpAt_eq (k := 0) (decides_of_terminated ha hb)
  exact ⟨r, by rw [run, Traced.value_ok], ordered⟩

end Strcmp

/-! ## Lawful storage types -/

/-- The operators of a storage type compute on the numbers of its values. -/
class LawfulPrefixType (τ : Type) [PrefixType τ] : Prop where
  toNat_flipBytes_ofMemory (bytes : List UInt8) :
    bytes.length = PrefixType.sizeof τ →
      PrefixType.toNat (PrefixType.flipBytes (PrefixType.ofMemory bytes : τ)) = bigEndian bytes
  lt_iff (a b : τ) : PrefixType.lt a b = true ↔ PrefixType.toNat a < PrefixType.toNat b
  eq_iff (a b : τ) : PrefixType.eq a b = true ↔ PrefixType.toNat a = PrefixType.toNat b
  ne_eq_not_eq (a b : τ) : PrefixType.ne a b = !PrefixType.eq a b
  toNat_inj (a b : τ) : PrefixType.toNat a = PrefixType.toNat b → a = b
  lowByte_eq_zero_iff (a : τ) :
    PrefixType.eq (PrefixType.land a (PrefixType.ofUlong 0xFF)) (PrefixType.ofUlong 0) = true ↔
      PrefixType.toNat a % 256 = 0

/-- Byte swapping an integer read from memory gives the number in reading order. -/
theorem toNat_builtinBswap_ofMemory {n : Nat} {bytes : List UInt8} (h : bytes.length = n) :
    (builtinBswap (BitVec.ofNat (8 * n) (littleEndian bytes))).toNat = bigEndian bytes := by
  subst h
  have width : 2 ^ (8 * bytes.length) = 256 ^ bytes.length := Nat.pow_mul 2 8 bytes.length
  have stored : (BitVec.ofNat (8 * bytes.length) (littleEndian bytes)).toNat =
      littleEndian bytes := by
    rw [BitVec.toNat_ofNat, width, Nat.mod_eq_of_lt (littleEndian_lt bytes)]
  rw [builtinBswap, stored, littleEndianBytes_littleEndian, BitVec.toNat_ofNat, width]
  exact Nat.mod_eq_of_lt (bigEndian_lt bytes)

theorem toNat_and_lowByteMask {n : Nat} (pos : 0 < n) (x : Uint n) :
    (x &&& BitVec.ofNat (8 * n) 0xFF).toNat = x.toNat % 256 := by
  have small : 0xFF < 2 ^ (8 * n) :=
    Nat.lt_of_lt_of_le (by decide : 0xFF < 2 ^ 8) (Nat.pow_le_pow_right (by decide) (by omega))
  rw [BitVec.toNat_and, BitVec.toNat_ofNat, Nat.mod_eq_of_lt small]
  exact Nat.and_two_pow_sub_one_eq_mod x.toNat 8

theorem lawful_uint {n : Nat} (pos : 0 < n) : LawfulPrefixType (Uint n) where
  toNat_flipBytes_ofMemory _ h := toNat_builtinBswap_ofMemory h
  lt_iff _ _ := by simp [PrefixType.lt, PrefixType.toNat, BitVec.ult]
  eq_iff _ _ := by simp [PrefixType.eq, PrefixType.toNat, BitVec.toNat_inj]
  ne_eq_not_eq _ _ := rfl
  toNat_inj _ _ h := BitVec.toNat_inj.mp h
  lowByte_eq_zero_iff a := by
    have mask := toNat_and_lowByteMask pos a
    simp [PrefixType.eq, PrefixType.land, PrefixType.ofUlong, PrefixType.toNat,
      ← BitVec.toNat_inj, mask]

theorem lawful_kdmt128 : LawfulPrefixType Kdmt128 where
  toNat_flipBytes_ofMemory bytes h := by
    have high : (bytes.take 8).length = 8 := by
      rw [List.length_take]
      exact Nat.min_eq_left (h ▸ by decide)
    have low : (bytes.drop 8).length = 8 := by
      rw [List.length_drop, h]
      rfl
    calc (builtinBswap (BitVec.ofNat (8 * 8) (littleEndian (bytes.take 8)))).toNat * 2 ^ 64 +
          (builtinBswap (BitVec.ofNat (8 * 8) (littleEndian (bytes.drop 8)))).toNat
        = bigEndian (bytes.take 8) * 256 ^ (bytes.drop 8).length + bigEndian (bytes.drop 8) := by
          rw [toNat_builtinBswap_ofMemory high, toNat_builtinBswap_ofMemory low, low,
            Nat.pow_mul 2 8 8]
      _ = bigEndian bytes := by rw [← bigEndian_append, List.take_append_drop]
  lt_iff a b := by
    have := a.lsbs.isLt
    have := b.lsbs.isLt
    simp only [PrefixType.lt, PrefixType.toNat, Kdmt128.lt, BitVec.ult, Bool.or_eq_true,
      Bool.and_eq_true, decide_eq_true_eq, beq_iff_eq, ← BitVec.toNat_inj]
    omega
  eq_iff a b := by
    have := a.lsbs.isLt
    have := b.lsbs.isLt
    simp only [PrefixType.eq, PrefixType.toNat, Kdmt128.eq, Bool.and_eq_true, beq_iff_eq,
      ← BitVec.toNat_inj]
    omega
  ne_eq_not_eq a b := by simp [PrefixType.ne, PrefixType.eq, Kdmt128.ne, Kdmt128.eq, bne]
  toNat_inj a b h := by
    have := a.lsbs.isLt
    have := b.lsbs.isLt
    cases a
    cases b
    simp only [PrefixType.toNat, Kdmt128.mk.injEq, ← BitVec.toNat_inj] at *
    omega
  lowByte_eq_zero_iff a := by
    have mask := toNat_and_lowByteMask (by decide : 0 < 8) a.lsbs
    simp only [PrefixType.eq, PrefixType.land, PrefixType.ofUlong, PrefixType.toNat,
      Kdmt128.eq, Kdmt128.land, Kdmt128.ofHalf, Bool.and_eq_true, beq_iff_eq,
      ← BitVec.toNat_inj, mask]
    simp
    omega

instance : (N : PrefixSize) → LawfulPrefixType (PrefixStorage N)
  | .size16bit => lawful_uint (n := 2) (by decide)
  | .size32bit => lawful_uint (n := 4) (by decide)
  | .size64bit => lawful_uint (n := 8) (by decide)
  | .size128bit => lawful_kdmt128

@[simp] theorem sizeof_prefixStorage (N : PrefixSize) :
    PrefixType.sizeof (PrefixStorage N) = N.toNat := by
  cases N <;> rfl

namespace PrefixRep

variable {N : PrefixSize}

def encode (N : PrefixSize) (s : List UInt8) : PrefixRep N :=
  ⟨PrefixType.flipBytes (PrefixType.ofMemory (zeroPadded N.toNat s))⟩

/-- The number a prefix stands for; for 16 bytes, `msbs * 2^64 + lsbs`. -/
def number (p : PrefixRep N) : Nat := PrefixType.toNat p.val

theorem number_inj {p q : PrefixRep N} : p.number = q.number ↔ p = q := by
  constructor
  · intro h
    cases p
    cases q
    exact congrArg PrefixRep.mk (LawfulPrefixType.toNat_inj _ _ h)
  · rintro rfl
    rfl

@[simp] theorem number_encode (N : PrefixSize) (s : List UInt8) :
    (encode N s).number = prefixNumber N.toNat s :=
  LawfulPrefixType.toNat_flipBytes_ofMemory _ (by simp)

@[simp] theorem lt_eq_true_iff (p q : PrefixRep N) : p.lt q = true ↔ p.number < q.number :=
  LawfulPrefixType.lt_iff p.val q.val

@[simp] theorem eq_eq_true_iff (p q : PrefixRep N) : p.eq q = true ↔ p = q := by
  rw [← number_inj]
  exact LawfulPrefixType.eq_iff p.val q.val

@[simp] theorem ne_eq_true_iff (p q : PrefixRep N) : p.ne q = true ↔ p ≠ q := by
  rw [ne, LawfulPrefixType.ne_eq_not_eq, Bool.not_eq_true', Ne, ← eq_eq_true_iff, eq,
    Bool.not_eq_true]

@[simp] theorem stringShorterThanPrefix_eq_true_iff (p : PrefixRep N) :
    p.stringShorterThanPrefix = true ↔ p.number % 256 = 0 :=
  LawfulPrefixType.lowByte_eq_zero_iff p.val

/-- `str_to_prefix` on a raw string that is terminated, or long enough to fill
the prefix: the encoded C string, reading no byte behind the terminator. -/
theorem ofStr_eq {σ : Type} [StrImp σ] {str : σ}
    (covered : Terminated str ∨ N.toNat ≤ (rawBytes str).length) :
    ofStr N str = .ok (encode N (cstr str))
      ((List.range (copyReads N.toNat (rawBytes str))).map fun i => .read .source i) := by
  have copied : strncpy (fun i => Effect.read .source (i - (getRawStr str).offset))
      (getRawStr str) N.toNat = _ := strncpy_eq _ covered
  have positions : ∀ m k : Nat,
      (List.range' k m).map (fun i => Effect.read .source (i - k)) =
        (List.range m).map fun i => .read .source i := by
    intro m k
    rw [List.range'_eq_map_range, List.map_map]
    apply List.map_congr_left
    intro i _
    simp
  rw [positions] at copied
  rw [ofStr, strToPrefix, sizeof_prefixStorage, copied]
  simp only [Traced.ok_bind, Traced.pure_eq, Traced.after_ok, List.append_nil]
  rfl

theorem value_ofStr {σ : Type} [StrImp σ] {str : σ}
    (covered : Terminated str ∨ N.toNat ≤ (rawBytes str).length) :
    (ofStr N str).value = .ok (encode N (cstr str)) := by
  rw [ofStr_eq covered, Traced.value_ok]

/-- A raw string that ends inside the prefix without a terminator is overrun. -/
theorem ofStr_fault {σ : Type} [StrImp σ] {str : σ}
    (uncovered : ¬ (Terminated str ∨ N.toNat ≤ (rawBytes str).length)) :
    ofStr N str = .fault .outOfBounds := by
  rw [not_or, Nat.not_le] at uncovered
  have overrun := strncpyFrom_fault (fun i => Effect.read .source (i - (getRawStr str).offset))
    uncovered.1 uncovered.2 (getRawStr str).offset
  rw [rawBytes] at overrun
  rw [ofStr, strToPrefix, sizeof_prefixStorage, strncpy, overrun]
  rfl

/-! ## The encoding and the order of strings -/

section Order

variable {s t : List UInt8}

theorem lt_of_encode_lt (hs : 0 ∉ s) (ht : 0 ∉ t) (h : (encode N s).lt (encode N t) = true) :
    s < t := by
  rw [lt_eq_true_iff, number_encode, number_encode] at h
  exact lt_of_prefixNumber_lt hs ht h

theorem encode_inj (hs : 0 ∉ s) (ht : 0 ∉ t) :
    encode N s = encode N t ↔ s.take N.toNat = t.take N.toNat := by
  rw [← number_inj, number_encode, number_encode, prefixNumber_inj hs ht]

theorem encode_short_iff (hs : 0 ∉ s) :
    (encode N s).stringShorterThanPrefix = true ↔ s.length < N.toNat := by
  rw [stringShorterThanPrefix_eq_true_iff, number_encode,
    prefixNumber_mod_eq_zero_iff N.toNat_pos hs]

theorem eq_of_encode_eq_of_short (hs : 0 ∉ s) (ht : 0 ∉ t) (same : encode N s = encode N t)
    (short : (encode N s).stringShorterThanPrefix = true) : s = t := by
  rw [stringShorterThanPrefix_eq_true_iff, number_encode] at short
  rw [← number_inj, number_encode, number_encode] at same
  exact eq_of_prefixNumber_eq N.toNat_pos hs ht same short

end Order

/-- What the prefixes of two strings say about the strings themselves, in terms of
the `strcmp` of the strings and of their first `N` bytes. -/
structure EncodesOrder (N : PrefixSize) {σ τ : Type} [StrImp σ] [StrImp τ] (a : σ) (b : τ)
    (pa pb : PrefixRep N) (r : Int) : Prop where
  builtLeft : (ofStr N a).value = .ok pa
  builtRight : (ofStr N b).value = .ok pb
  compared : (strcmpAt 0 a b).value = .ok r
  digits : pa.number = bigEndian (zeroPadded N.toNat (cstr a))
  lt_sound : pa.lt pb = true → r < 0
  lt_complete : r ≤ 0 → pb.lt pa = false
  eq_iff : pa.eq pb = true ↔ (cstr a).take N.toNat = (cstr b).take N.toNat
  ne_iff : pa.ne pb = true ↔ (cstr a).take N.toNat ≠ (cstr b).take N.toNat

/-- The prefix is an order-preserving encoding of terminated strings. -/
theorem prefix_encodes_order (N : PrefixSize) {σ τ : Type} [StrImp σ] [StrImp τ] (a : σ) (b : τ)
    (ha : Terminated a) (hb : Terminated b) :
    ∃ pa pb r, EncodesOrder N a b pa pb r := by
  obtain ⟨r, compared, ordered⟩ := strcmpAt_zero_comparesAs ha hb
  refine ⟨encode N (cstr a), encode N (cstr b), r, ?_⟩
  have hs := zero_notMem_cstr a
  have ht := zero_notMem_cstr b
  exact {
    builtLeft := value_ofStr (.inl ha)
    builtRight := value_ofStr (.inl hb)
    compared
    digits := number_encode N (cstr a)
    lt_sound := fun h => ordered.neg_iff.mpr (lt_of_encode_lt hs ht h)
    lt_complete := by
      intro h
      rw [← Bool.not_eq_true]
      exact fun smaller => absurd (ordered.pos_iff.mpr (lt_of_encode_lt ht hs smaller)) (by omega)
    eq_iff := by rw [eq_eq_true_iff, encode_inj hs ht]
    ne_iff := by rw [ne_eq_true_iff, Ne, encode_inj hs ht] }

/-- "ab" against "b", with the two-byte prefix. -/
theorem prefix_encodes_order_ab_b :
    ∃ pa pb r, EncodesOrder .size16bit (ConstCharPtr.mk [97, 98, 0]) (StdString.mk [98]) pa pb r :=
  prefix_encodes_order .size16bit _ _ (by decide) (by decide)

/-- The short-string test is exact on terminated strings, whatever their bytes: it
succeeds exactly when the string does not fill the prefix, and a prefix that passes it
is not shared by two different strings. -/
theorem short_string_test_exact (N : PrefixSize) {σ τ : Type} [StrImp σ] [StrImp τ] (a : σ)
    (b : τ) (ha : Terminated a) (hb : Terminated b) :
    ∃ pa pb, (ofStr N a).value = .ok pa ∧ (ofStr N b).value = .ok pb ∧
      (pa.stringShorterThanPrefix = true ↔ (cstr a).length < N.toNat) ∧
      (pa.eq pb = true →
        pa.stringShorterThanPrefix = true ∨ pb.stringShorterThanPrefix = true →
        cstr a = cstr b) := by
  have hs := zero_notMem_cstr a
  have ht := zero_notMem_cstr b
  refine ⟨_, _, value_ofStr (.inl ha), value_ofStr (.inl hb), encode_short_iff hs, ?_⟩
  intro equal short
  have same := (eq_eq_true_iff _ _).mp equal
  rw [← same, or_self] at short
  exact eq_of_encode_eq_of_short hs ht same short

/-- "aé" in UTF-8, whose last character is cut by the two-byte prefix, against "é". -/
theorem short_string_test_exact_utf8 :
    ∃ pa pb : PrefixRep .size16bit,
      (ofStr .size16bit (ConstCharPtr.mk [0x61, 0xC3, 0xA9, 0])).value = .ok pa ∧
      (ofStr .size16bit (StdString.mk [0xC3, 0xA9])).value = .ok pb ∧
      (pa.stringShorterThanPrefix = true ↔
        (cstr (ConstCharPtr.mk [0x61, 0xC3, 0xA9, 0])).length < PrefixSize.size16bit.toNat) ∧
      (pa.eq pb = true →
        pa.stringShorterThanPrefix = true ∨ pb.stringShorterThanPrefix = true →
        cstr (ConstCharPtr.mk [0x61, 0xC3, 0xA9, 0]) = cstr (StdString.mk [0xC3, 0xA9])) :=
  short_string_test_exact .size16bit _ _ (by decide) (by decide)

end PrefixRep

end Kdmt

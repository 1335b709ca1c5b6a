import Keydomet.Lib.Strings

/-!
# The prefix of a string, stored as an integer

The storage types of the four prefix sizes, `flip_bytes`, `str_to_prefix` and
`prefix_rep`. The three unsigned types are the bit vectors of their width;
`kdmt128_t` is the struct of two 64-bit halves with its own operators.

`PrefixType` collects what the templates use of a storage type: the value of an
object whose memory was written byte by byte on a little-endian host, the byte
swap, the mask operation and the comparison operators.
-/

namespace Kdmt

open Foundation

/-- The enumeration `prefix_size`. -/
inductive PrefixSize where
  | size16bit
  | size32bit
  | size64bit
  | size128bit
deriving DecidableEq, Repr

namespace PrefixSize

def toNat : PrefixSize → Nat
  | size16bit => 2
  | size32bit => 4
  | size64bit => 8
  | size128bit => 16

/-- `sizeof(PrefixSize)` of a template argument of type `prefix_size`. It is the
size of the enumeration's underlying type `uint8_t`, whatever the enumerator. -/
def sizeof (_ : PrefixSize) : Nat := 1

theorem toNat_pos (N : PrefixSize) : 0 < N.toNat := by cases N <;> decide

theorem two_le_toNat (N : PrefixSize) : 2 ≤ N.toNat := by cases N <;> decide

end PrefixSize

/-! ## Effects -/

/-- Whose string a byte is read from: the one a prefix is built from, or the left
or right operand of a comparison. -/
inductive Operand where
  | source
  | left
  | right
deriving DecidableEq, Repr

/-- The two static counters of a keydomet class. -/
inductive Counter where
  | usedPrefix
  | usedString
deriving DecidableEq, Repr

/-- A keydomet class: an instantiation of the template. -/
structure KeydometClass where
  str : StrId
  size : PrefixSize
deriving DecidableEq, Repr

/-- What the library does besides computing values: it reads the byte at a
position of a string, counted from the start of that string, and it increments a
static counter. -/
inductive Effect where
  | read (operand : Operand) (position : Nat)
  | increment (cls : KeydometClass) (counter : Counter)
deriving DecidableEq, Repr

/-- Library code: it may fault, and its effects are logged. -/
abbrev Code := Traced Fault Effect

/-- `operator<` of `std::string`. It is not library code, and has none of its effects. -/
def StdString.less (a b : StdString) : Code Bool := return decide (a < b)

/-- `strcmp` on two raw strings, both from the given offset on. -/
def strcmpAt {σ τ : Type} [StrImp σ] [StrImp τ] (offset : Nat) (a : σ) (b : τ) : Code Int :=
  strcmp (fun i => .read .left (i - (getRawStr a).offset))
    (fun i => .read .right (i - (getRawStr b).offset))
    ((getRawStr a).add offset) ((getRawStr b).add offset)

/-! ## Storage types -/

/-- The operations the templates use of a prefix storage type. -/
class PrefixType (τ : Type) where
  /-- `sizeof` the type. -/
  sizeof : Nat
  /-- The value of an object with these bytes in memory. -/
  ofMemory : List UInt8 → τ
  /-- `flip_bytes`. -/
  flipBytes : τ → τ
  /-- `τ{n}` for an unsigned literal. -/
  ofUlong : Nat → τ
  /-- `operator&`. -/
  land : τ → τ → τ
  /-- `operator<`. -/
  lt : τ → τ → Bool
  /-- `operator==`. -/
  eq : τ → τ → Bool
  /-- `operator!=`. -/
  ne : τ → τ → Bool
  /-- The number the value stands for. It is used in specifications only. -/
  toNat : τ → Nat

/-- The unsigned integer of `n` bytes. -/
abbrev Uint (n : Nat) := BitVec (8 * n)

/-- `__builtin_bswap`: the same bytes in the opposite order. -/
def builtinBswap {n : Nat} (x : Uint n) : Uint n :=
  BitVec.ofNat (8 * n) (littleEndian (littleEndianBytes n x.toNat).reverse)

instance (n : Nat) : PrefixType (Uint n) where
  sizeof := n
  ofMemory bytes := BitVec.ofNat (8 * n) (littleEndian bytes)
  flipBytes := builtinBswap
  ofUlong l := BitVec.ofNat (8 * n) l
  land a b := a &&& b
  lt a b := a.ult b
  eq a b := a == b
  ne a b := a != b
  toNat := BitVec.toNat

/-- The 128-bit storage type: two halves, the more significant one first. -/
structure Kdmt128 where
  msbs : Uint 8
  lsbs : Uint 8
deriving DecidableEq, Repr

namespace Kdmt128

/-- The constructor from one half: it is the less significant one. -/
def ofHalf (l : Uint 8) : Kdmt128 := ⟨0, l⟩

def land (self other : Kdmt128) : Kdmt128 := ⟨self.msbs &&& other.msbs, self.lsbs &&& other.lsbs⟩

def lt (self other : Kdmt128) : Bool :=
  self.msbs.ult other.msbs || (self.msbs == other.msbs && self.lsbs.ult other.lsbs)

def eq (self other : Kdmt128) : Bool := self.msbs == other.msbs && self.lsbs == other.lsbs

def ne (self other : Kdmt128) : Bool := self.msbs != other.msbs || self.lsbs != other.lsbs

/-- The overload of `flip_bytes`: each half is swapped by itself. -/
def flipBytes (val : Kdmt128) : Kdmt128 := ⟨builtinBswap val.msbs, builtinBswap val.lsbs⟩

instance : PrefixType Kdmt128 where
  sizeof := 16
  -- The members are laid out in declaration order, without padding.
  ofMemory bytes :=
    ⟨PrefixType.ofMemory (bytes.take 8), PrefixType.ofMemory (bytes.drop 8)⟩
  flipBytes := flipBytes
  ofUlong l := ofHalf (BitVec.ofNat _ l)
  land := land
  lt := lt
  eq := eq
  ne := ne
  toNat x := x.msbs.toNat * 2 ^ 64 + x.lsbs.toNat

end Kdmt128

/-- `prefix_storage<N>::type`. -/
def PrefixStorage : PrefixSize → Type
  | .size16bit => Uint 2
  | .size32bit => Uint 4
  | .size64bit => Uint 8
  | .size128bit => Kdmt128

instance : (N : PrefixSize) → PrefixType (PrefixStorage N)
  | .size16bit => inferInstanceAs (PrefixType (Uint 2))
  | .size32bit => inferInstanceAs (PrefixType (Uint 4))
  | .size64bit => inferInstanceAs (PrefixType (Uint 8))
  | .size128bit => inferInstanceAs (PrefixType Kdmt128)

instance : (N : PrefixSize) → DecidableEq (PrefixStorage N)
  | .size16bit => inferInstanceAs (DecidableEq (Uint 2))
  | .size32bit => inferInstanceAs (DecidableEq (Uint 4))
  | .size64bit => inferInstanceAs (DecidableEq (Uint 8))
  | .size128bit => inferInstanceAs (DecidableEq Kdmt128)

/-! ## Building a prefix -/

/-- `str_to_prefix`: copy the string over the bytes of an integer, padded with
zeros, and turn the bytes around. -/
def strToPrefix (τ : Type) [PrefixType τ] {σ : Type} [StrImp σ] (str : σ) : Code τ := do
  let cstr := getRawStr str
  let trg ← strncpy (fun i => .read .source (i - cstr.offset)) cstr (PrefixType.sizeof τ)
  return PrefixType.flipBytes (PrefixType.ofMemory trg)

/-- The class `prefix_rep`. -/
structure PrefixRep (N : PrefixSize) where
  val : PrefixStorage N
deriving DecidableEq

namespace PrefixRep

variable {N : PrefixSize}

/-- The constructor from a string. -/
def ofStr (N : PrefixSize) {σ : Type} [StrImp σ] (str : σ) : Code (PrefixRep N) :=
  return ⟨← strToPrefix (PrefixStorage N) str⟩

def lt (self other : PrefixRep N) : Bool := PrefixType.lt self.val other.val

def eq (self other : PrefixRep N) : Bool := PrefixType.eq self.val other.val

def ne (self other : PrefixRep N) : Bool := PrefixType.ne self.val other.val

/-- Whether the last byte of the prefix is zero, so that the string must have
been shorter than the prefix. -/
def stringShorterThanPrefix (self : PrefixRep N) : Bool :=
  PrefixType.eq (PrefixType.land self.val (PrefixType.ofUlong 0xFF)) (PrefixType.ofUlong 0)

end PrefixRep

end Kdmt

import Keydomet.Foundation.CString

/-!
# String types and their raw strings

A keydomet wraps any type with a `get_raw_str` overload: a `const char*`, or a
type whose `data()` is one. Only the pointer is taken from the string; a length
the type may store is not. The class `StrImp` is that overload set, together
with the identity of the C++ type, which selects the static counters of a
keydomet class.
-/

namespace Kdmt

open Foundation

/-- The string types a keydomet class can be instantiated with. User code may
add its own by overloading `get_raw_str`. -/
inductive StrId where
  | constCharPtr
  | stdString
  | constStdStringRef
  | stringView
  | custom (n : Nat)
deriving DecidableEq, Repr

/-- A string type with its `get_raw_str` overload. -/
class StrImp (σ : Type) where
  id : StrId
  getRawStr : σ → CharPtr

export StrImp (getRawStr)

def rawBytes {σ : Type} [StrImp σ] (s : σ) : List UInt8 := (getRawStr s).rest

def Terminated {σ : Type} [StrImp σ] (s : σ) : Prop := 0 ∈ rawBytes s

instance {σ : Type} [StrImp σ] (s : σ) : Decidable (Terminated s) :=
  inferInstanceAs (Decidable (0 ∈ rawBytes s))

/-- The C string a value denotes. -/
def cstr {σ : Type} [StrImp σ] (s : σ) : List UInt8 := cString (rawBytes s)

theorem zero_notMem_cstr {σ : Type} [StrImp σ] (s : σ) : 0 ∉ cstr s :=
  zero_notMem_cString (rawBytes s)

/-- A `const char*`, with the array it points to. -/
structure ConstCharPtr where
  buffer : List UInt8
deriving DecidableEq, Repr

instance : StrImp ConstCharPtr where
  id := .constCharPtr
  getRawStr str := .start str.buffer

/-- A `std::string` value. Its characters may include NUL. -/
structure StdString where
  chars : List UInt8
deriving DecidableEq, Repr

theorem StdString.chars_injective : Function.Injective StdString.chars := fun s t same => by
  cases s
  cases t
  exact congrArg StdString.mk same

/-- The order of `std::string`: that of all its characters, as unsigned bytes. -/
instance : LinearOrder StdString where
  __ := PartialOrder.lift StdString.chars StdString.chars_injective
  le_total a b := le_total a.chars b.chars
  toDecidableLE a b := inferInstanceAs (Decidable (a.chars ≤ b.chars))
  toDecidableEq := inferInstance

/-- `std::string::data()`: the characters, followed by a terminator. -/
instance : StrImp StdString where
  id := .stdString
  getRawStr str := .start (str.chars ++ [0])

/-- A `const std::string&`, the string type of a lookup key. -/
structure StdStringRef where
  referent : StdString
deriving DecidableEq, Repr

instance : StrImp StdStringRef where
  id := .constStdStringRef
  getRawStr str := getRawStr str.referent

/-- A `std::string_view`: a range of characters of a larger array. -/
structure StringView where
  backing : List UInt8
  start : Nat
  length : Nat
  inBounds : start + length ≤ backing.length
deriving DecidableEq

def StringView.chars (v : StringView) : List UInt8 := (v.backing.drop v.start).take v.length

/-- `std::string_view::data()` does not carry the length of the view. -/
instance : StrImp StringView where
  id := .stringView
  getRawStr str := ⟨str.backing, str.start⟩

@[simp] theorem rawBytes_constCharPtr (s : ConstCharPtr) : rawBytes s = s.buffer := rfl

@[simp] theorem rawBytes_stdString (s : StdString) : rawBytes s = s.chars ++ [0] := rfl

@[simp] theorem rawBytes_stdStringRef (s : StdStringRef) :
    rawBytes s = s.referent.chars ++ [0] := rfl

@[simp] theorem terminated_stdString (s : StdString) : Terminated s := by simp [Terminated]

@[simp] theorem terminated_stdStringRef (s : StdStringRef) : Terminated s := by simp [Terminated]

@[simp] theorem cstr_stdString (s : StdString) : cstr s = cString s.chars :=
  cString_append_zero s.chars

@[simp] theorem cstr_stdStringRef (s : StdStringRef) : cstr s = cString s.referent.chars :=
  cString_append_zero s.referent.chars

/-- The part of a string before the first NUL, as a string of its own. -/
def cPart {σ : Type} [StrImp σ] (s : σ) : StdString := ⟨cstr s⟩

@[simp] theorem cPart_stdStringRef (s : StdStringRef) : cPart s = cPart s.referent := by
  rw [cPart, cPart, cstr_stdStringRef, cstr_stdString]

theorem cPart_of_nulFree {s : StdString} (nulFree : 0 ∉ s.chars) : cPart s = s := by
  rw [cPart, cstr_stdString, cString_of_notMem nulFree]

/-- A view's characters come first in the bytes behind its pointer; what follows
them belongs to the backing array. -/
theorem StringView.rawBytes_eq (v : StringView) :
    rawBytes v = v.chars ++ v.backing.drop (v.start + v.length) := by
  rw [StringView.chars, ← List.drop_drop, List.take_append_drop]
  rfl

/-- Any characters can be viewed with any bytes behind them. -/
def StringView.ofChars (chars rest : List UInt8) : StringView where
  backing := chars ++ rest
  start := 0
  length := chars.length
  inBounds := by simp

@[simp] theorem StringView.chars_ofChars (chars rest : List UInt8) :
    (StringView.ofChars chars rest).chars = chars := by
  simp [StringView.chars, StringView.ofChars]

@[simp] theorem StringView.rawBytes_ofChars (chars rest : List UInt8) :
    rawBytes (StringView.ofChars chars rest) = chars ++ rest := rfl

end Kdmt

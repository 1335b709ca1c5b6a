import Keydomet.Lib.Encoding

/-!
# The class `keydomet`

A keydomet stores the prefix of a string next to the string. `compare` looks at
the prefixes first and falls back to `strcmp`; each call increments one of the
two static counters of the class of its left operand.

The constructors, `compare` and the two operators are translated from the
source. `Valid` says that the stored prefix is the one of the stored string, which
every constructor establishes. The three exits of `compare` are
`compare_of_prefix_ne`, `compare_of_short` and `compare_of_long`.
-/

namespace Kdmt

open Foundation

/-- The class `keydomet<StrImp, PrefixSize>`. -/
structure Keydomet (σ : Type) (N : PrefixSize) where
  prefixRep : PrefixRep N
  str : σ
deriving DecidableEq

/-- `++used_prefix()` or `++used_string()` of the class of a keydomet. -/
def incrementCounter (σ : Type) [StrImp σ] (N : PrefixSize) (counter : Counter) : Code Unit :=
  .emit (.increment ⟨StrImp.id σ, N⟩ counter)

namespace Keydomet

variable {σ τ : Type} [StrImp σ] [StrImp τ] {N : PrefixSize}

/-- The constructor from a string: the prefix is built from the argument, and the
string is a copy of it. -/
def ofStr (N : PrefixSize) (s : σ) : Code (Keydomet σ N) := do
  let prefixRep ← PrefixRep.ofStr N s
  return { prefixRep, str := s }

/-- The constructor from a temporary. The parameter has a name, so the string
member is copied from it all the same. -/
def ofTemporary (N : PrefixSize) (s : σ) : Code (Keydomet σ N) := do
  let prefixRep ← PrefixRep.ofStr N s
  return { prefixRep, str := s }

/-- -1 if the first prefix is smaller and 1 otherwise, without a branch. -/
def diffAsOneOrMinusOne (v1 v2 : PrefixRep N) : Int :=
  ((((!(v1.lt v2)).toNat <<< 1 : Nat) : Int)) - 1

/-- `compare`. The fallback skips `sizeof(PrefixSize)` bytes of both strings. -/
def compare (self : Keydomet σ N) (other : Keydomet τ N) : Code Int :=
  if self.prefixRep.ne other.prefixRep then do
    incrementCounter σ N .usedPrefix
    return diffAsOneOrMinusOne self.prefixRep other.prefixRep
  else if self.prefixRep.stringShorterThanPrefix then do
    incrementCounter σ N .usedPrefix
    return 0
  else do
    incrementCounter σ N .usedString
    strcmpAt N.sizeof self.str other.str

/-- `operator<`. -/
def lt (self : Keydomet σ N) (other : Keydomet τ N) : Code Bool :=
  return decide ((← self.compare other) < 0)

/-- `operator==`. -/
def eq (self : Keydomet σ N) (other : Keydomet τ N) : Code Bool :=
  return decide ((← self.compare other) = 0)

def getStr (self : Keydomet σ N) : σ := self.str

/-- The prefix describes the string it is stored next to. -/
def Valid (k : Keydomet σ N) : Prop := k.prefixRep = PrefixRep.encode N (cstr k.str)

def mkValid (N : PrefixSize) (s : σ) : Keydomet σ N := ⟨PrefixRep.encode N (cstr s), s⟩

@[simp] theorem mkValid_str (N : PrefixSize) (s : σ) : (mkValid N s).str = s := rfl

theorem mkValid_valid (N : PrefixSize) (s : σ) : (mkValid N s).Valid := rfl

/-- The position of each read of a prefix construction. -/
def constructionReads (N : PrefixSize) (s : σ) : List Effect :=
  (List.range (copyReads N.toNat (rawBytes s))).map fun i => .read .source i

/-- The constructor on a raw string that is terminated, or fills the prefix. -/
theorem ofStr_eq {s : σ} (covered : Terminated s ∨ N.toNat ≤ (rawBytes s).length) :
    ofStr N s = .ok (mkValid N s) (constructionReads N s) := by
  rw [ofStr, PrefixRep.ofStr_eq covered]
  simp only [Traced.ok_bind, Traced.pure_eq, Traced.after_ok, List.append_nil]
  rfl

theorem value_ofStr {s : σ} (h : Terminated s) : (ofStr N s).value = .ok (mkValid N s) := by
  rw [ofStr_eq (.inl h), Traced.value_ok]

theorem ofTemporary_eq_ofStr (s : σ) : ofTemporary N s = ofStr N s := rfl

/-! ## The three exits of `compare` -/

section Exits

variable {a : Keydomet σ N} {b : Keydomet τ N}

theorem diffAsOneOrMinusOne_of_lt {p q : PrefixRep N} (h : p.lt q = true) :
    diffAsOneOrMinusOne p q = -1 := by
  simp [diffAsOneOrMinusOne, h]

theorem diffAsOneOrMinusOne_of_not_lt {p q : PrefixRep N} (h : p.lt q = false) :
    diffAsOneOrMinusOne p q = 1 := by
  simp [diffAsOneOrMinusOne, h]

/-- Different prefixes: their order is the result, and no string is read. -/
theorem compare_of_prefix_ne (h : a.prefixRep ≠ b.prefixRep) :
    a.compare b = .ok (diffAsOneOrMinusOne a.prefixRep b.prefixRep)
      [.increment ⟨StrImp.id σ, N⟩ .usedPrefix] := by
  rw [compare, if_pos ((PrefixRep.ne_eq_true_iff _ _).mpr h)]
  rfl

/-- Equal prefixes of short strings: the strings are taken to be equal. -/
theorem compare_of_short (h : a.prefixRep = b.prefixRep)
    (short : a.prefixRep.stringShorterThanPrefix = true) :
    a.compare b = .ok 0 [.increment ⟨StrImp.id σ, N⟩ .usedPrefix] := by
  rw [compare, if_neg (by simpa using h), if_pos short]
  rfl

/-- Equal prefixes of long strings: `strcmp` decides. -/
theorem compare_of_long (h : a.prefixRep = b.prefixRep)
    (long : a.prefixRep.stringShorterThanPrefix = false) :
    a.compare b = Traced.after [.increment ⟨StrImp.id σ, N⟩ .usedString]
      (strcmpAt N.sizeof a.str b.str) := by
  rw [compare, if_neg (by simpa using h), if_neg (by simp [long])]
  rfl

end Exits

end Keydomet

end Kdmt

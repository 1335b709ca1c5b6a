import Keydomet.Bench.KeyType
import Keydomet.Bench.SeqKeys

/-!
# Input providers

A `keys_provider` produces lists of keys and caches them; an `input_provider` fills
containers with these keys and caches the containers. Both caches are hash maps from
64-bit numbers into which sizes and lengths are packed, and `operator[]` makes an absent
entry an empty one.

An `Environment` fixes what the source leaves open: whether assertions are compiled in,
the outcome of each shuffle, and how `std::set` balances its trees.
-/

namespace Kdmt.Bench

open Foundation

/-- Build settings and the behaviour of the standard library. -/
structure Environment where
  /-- `NDEBUG` is defined, and `assert` does nothing. -/
  ndebug : Bool
  /-- The outcome of the n-th call of `shuffle`. -/
  shuffle : Nat → List StdString → List StdString
  shuffle_perm : ∀ n l, (shuffle n l).Perm l
  balance : Balance

/-- Assertions enabled, shuffles that change nothing, and trees that are never balanced. -/
def Environment.plain : Environment where
  ndebug := false
  shuffle _ l := l
  shuffle_perm _ l := .refl l
  balance := .unbalanced

/-- A computation that may fail but makes no comparison. -/
abbrev Checked := Except Fault

def Environment.assert (env : Environment) (condition : Bool) : Checked Unit :=
  if env.ndebug || condition then return () else throw .assertion

theorem assert_of_true (env : Environment) {condition : Bool} (h : condition = true) :
    env.assert condition = .ok () := by
  rw [Environment.assert, h, Bool.or_true, if_pos rfl]
  rfl

/-- The enumeration `keys_use`. -/
inductive KeysUse where
  | buildContainer
  | benchOps
deriving DecidableEq, Repr

/-- A hash map from 64-bit keys, with empty entries for absent ones. -/
abbrev Cache (α : Type) := UInt64 → α

/-- The two key caches of a provider. -/
structure KeyCaches where
  buildCache : Cache (List StdString) := fun _ => []
  opsCache : Cache (List StdString) := fun _ => []

namespace KeyCaches

/-- `use == BUILD_CONTAINER ? build_cache[cache_key] : ops_cache[cache_key]`. -/
def entry (self : KeyCaches) (use : KeysUse) (cacheKey : UInt64) : List StdString :=
  match use with
  | .buildContainer => self.buildCache cacheKey
  | .benchOps => self.opsCache cacheKey

def assign (self : KeyCaches) (use : KeysUse) (cacheKey : UInt64) (keys : List StdString) :
    KeyCaches :=
  match use with
  | .buildContainer => { self with buildCache := Function.update self.buildCache cacheKey keys }
  | .benchOps => { self with opsCache := Function.update self.opsCache cacheKey keys }

@[simp] theorem entry_new (use : KeysUse) (cacheKey : UInt64) :
    ({} : KeyCaches).entry use cacheKey = [] := by
  cases use <;> rfl

theorem entry_assign (self : KeyCaches) (use use' : KeysUse) (cacheKey cacheKey' : UInt64)
    (keys : List StdString) :
    (self.assign use cacheKey keys).entry use' cacheKey' =
      if use' = use ∧ cacheKey' = cacheKey then keys else self.entry use' cacheKey' := by
  cases use <;> cases use' <;> simp [assign, entry, Function.update_apply]

end KeyCaches

/-! ## Packed keys -/

def packed (size len : UInt32) : UInt64 := (size.toUInt64 <<< 32) ||| len.toUInt64

theorem toNat_packed (size len : UInt32) :
    (packed size len).toNat = size.toNat * 2 ^ 32 + len.toNat := by
  have hs := size.toNat_lt
  have hl := len.toNat_lt
  have shifted : size.toNat <<< 32 % 2 ^ 64 = size.toNat <<< 32 := by
    rw [Nat.shiftLeft_eq]
    omega
  rw [packed, UInt64.toNat_or, UInt64.toNat_shiftLeft, UInt32.toNat_toUInt64,
    UInt32.toNat_toUInt64]
  change size.toNat <<< 32 % 2 ^ 64 ||| len.toNat = _
  rw [shifted, ← Nat.shiftLeft_add_eq_or_of_lt hl, Nat.shiftLeft_eq]

/-- Sizes and lengths of 32 bits can be told apart in a packed key. -/
theorem packed_inj {size size' len len' : UInt32} :
    packed size len = packed size' len' ↔ size = size' ∧ len = len' := by
  rw [← UInt64.toNat_inj, toNat_packed, toNat_packed, ← UInt32.toNat_inj, ← UInt32.toNat_inj]
  have hl := len.toNat_lt
  have hl' := len'.toNat_lt
  omega

/-! ## Providers -/

/-- The abstract class `keys_provider`. The virtual functions thread the number of
shuffles made so far. -/
class KeysProvider (π : Type) where
  getKeys : Environment → π → Nat → UInt32 → KeysUse → Checked (List StdString × π × Nat)
  getKeyLen : π → UInt32

/-! ### Random keys -/

/-- The class `rand_keys_provider`. -/
structure RandKeysProvider extends KeyCaches where
  keyLen : UInt32
  extraLen : UInt32

namespace RandKeysProvider

/-- `get_keys`: sequential keys in random order, generated once for each size. -/
def getKeys (env : Environment) (self : RandKeysProvider) (draws : Nat) (keysNum : UInt32)
    (use : KeysUse) : Checked (List StdString × RandKeysProvider × Nat) := do
  let cacheKey := (keysNum.toUInt64 <<< 32) ||| (self.keyLen + self.extraLen).toUInt64
  let cached := self.entry use cacheKey
  if cached.length ≠ keysNum.toNat then
    let generated :=
      (List.range keysNum.toNat).map (getSeqStr self.keyLen.toNat self.extraLen.toNat)
    let cached := env.shuffle draws generated
    env.assert (cached.length = keysNum.toNat)
    return (cached, { self with toKeyCaches := self.assign use cacheKey cached }, draws + 1)
  else
    return (cached, self, draws)

def getKeyLen (self : RandKeysProvider) : UInt32 := self.keyLen + self.extraLen

instance : KeysProvider RandKeysProvider := ⟨getKeys, getKeyLen⟩

end RandKeysProvider

/-! ### Keys from a file -/

/-- The class `dataset_keys_provider`, with the lines of its file. -/
structure DatasetKeysProvider extends KeyCaches where
  rawContent : List StdString

namespace DatasetKeysProvider

/-- `get_keys`: the first lines of the file, in random order. -/
def getKeys (env : Environment) (self : DatasetKeysProvider) (draws : Nat) (keysNum : UInt32)
    (use : KeysUse) : Checked (List StdString × DatasetKeysProvider × Nat) := do
  let cacheKey := keysNum.toUInt64
  let cached := self.entry use cacheKey
  if cached.length ≠ keysNum.toNat then
    env.assert (keysNum.toNat ≤ self.rawContent.length)
    if self.rawContent.length < keysNum.toNat then throw .outOfBounds
    let cached := env.shuffle draws (self.rawContent.take keysNum.toNat)
    env.assert (cached.length = keysNum.toNat)
    return (cached, { self with toKeyCaches := self.assign use cacheKey cached }, draws + 1)
  else
    return (cached, self, draws)

def getKeyLen (_ : DatasetKeysProvider) : UInt32 := 0

instance : KeysProvider DatasetKeysProvider := ⟨getKeys, getKeyLen⟩

end DatasetKeysProvider

/-! ## Containers -/

/-- The class `input_provider<StrT>`: a keys provider and a cache of containers. -/
structure InputProvider (κ π : Type) where
  keyProvider : π
  containerCache : Cache (SearchTree κ)

namespace InputProvider

variable {κ π : Type} [KeyType κ] [KeysProvider π]

/-- `get_keys`. -/
def getKeys (env : Environment) (self : InputProvider κ π) (draws : Nat) (keysNum : UInt32)
    (use : KeysUse) : Checked (List StdString × InputProvider κ π × Nat) := do
  let (keys, keyProvider, draws) ← KeysProvider.getKeys env self.keyProvider draws keysNum use
  return (keys, { self with keyProvider }, draws)

omit [KeyType κ] in
theorem getKeys_of_ok {env : Environment} {self : InputProvider κ π} {draws draws' : Nat}
    {keysNum : UInt32} {use : KeysUse} {keys : List StdString} {keyProvider : π}
    (run : KeysProvider.getKeys env self.keyProvider draws keysNum use =
      .ok (keys, keyProvider, draws')) :
    self.getKeys env draws keysNum use =
      .ok (keys, ⟨keyProvider, self.containerCache⟩, draws') := by
  rw [InputProvider.getKeys, run]
  rfl

/-- The key of a container in the cache. -/
def containerKey (self : InputProvider κ π) (containerSize : UInt64) : UInt64 :=
  (containerSize <<< 32) ||| (KeysProvider.getKeyLen self.keyProvider).toUInt64

/-- `get_container`. The size is converted to 32 bits for `get_keys`, and taken at 64 bits
for the range that is copied. -/
def getContainer (env : Environment) (self : InputProvider κ π) (draws : Nat)
    (containerSize : UInt64) : Code (SearchTree κ × InputProvider κ π × Nat) := do
  let cacheKey := self.containerKey containerSize
  let cached := self.containerCache cacheKey
  if cached.size ≠ containerSize.toNat then
    .ofExcept (env.assert (cached.size = 0))
    let (input, self, draws) ←
      .ofExcept (self.getKeys env draws containerSize.toUInt32 .buildContainer)
    if input.length < containerSize.toNat then .fault .outOfBounds
    let cached ← insertThrough env.balance cached 0 (input.take containerSize.toNat)
    .ofExcept (env.assert (cached.size = containerSize.toNat))
    return (cached,
      { self with containerCache := Function.update self.containerCache cacheKey cached }, draws)
  else
    return (cached, self, draws)

end InputProvider

end Kdmt.Bench

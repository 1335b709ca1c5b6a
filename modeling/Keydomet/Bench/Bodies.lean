import Keydomet.Bench.Inputs
import Keydomet.Bench.StringBench

/-!
# A benchmark body on a shared input

An input refers to a provider and to a cache of containers that other benchmarks use as well.
A body leaves both changed: the entry of its container is filled, and the two key lists it asked
for are stored. What it reports is decided by the keys in its container and by the list of
operation keys that the provider has stored at the end (`Ran`).

The bodies are the three instances of the templates: `string_bench` with containers of strings
and of views, and `keydomet_bench`.
-/

namespace Kdmt.Bench

open Foundation KeyType ListedKeys

variable {κ π : Type} [KeyType κ] [KeysProvider π]

/-! ## The bodies -/

/-- `string_bench<StrT>`, with the number of keys found, and the input it leaves. -/
def stringBody (κ : Type) [KeyType κ] (env : Environment) (opsMix : Ops) (iterations : Nat)
    (containerSize opKeysNum : Int64) (input : InputProvider StdString π) (draws : Nat) :
    Code (UInt64 × InputProvider StdString π × Nat) := do
  let (strContainer, input, draws) ← input.getContainer env draws containerSize.toUInt64
  let container : SearchTree κ ← KeySet.ofRange env.balance .nil strContainer.toList
  let (opKeys, input, draws) ←
    .ofExcept (input.getKeys env draws opKeysNum.toUInt64.toUInt32 .benchOps)
  let final ← keyLoop env.balance opsMix opKeys iterations { container, ops := 0, found := 0 }
  return (final.found, input, draws)

/-- `keydomet_bench`, with the number of keys found, and the input it leaves. -/
def keydometBody {N : PrefixSize} (env : Environment) (opsMix : Ops) (iterations : Nat)
    (containerSize opKeysNum : Int64) (input : InputProvider (Keydomet StdString N) π)
    (draws : Nat) : Code (UInt64 × InputProvider (Keydomet StdString N) π × Nat) := do
  let (container, opKeys, input, draws) ← prepare env containerSize opKeysNum input draws
  let final ← timedLoop env.balance opsMix opKeys iterations { container, ops := 0, found := 0 }
  return (final.found, input, draws)

/-- The body of `keydomet_bench`, without the input. -/
theorem found_keydometBody {N : PrefixSize} (env : Environment) (opsMix : Ops)
    (iterations : Nat) (containerSize opKeysNum : Int64)
    (input : InputProvider (Keydomet StdString N) π) (draws : Nat) :
    Prod.fst <$> keydometBody env opsMix iterations containerSize opKeysNum input draws =
      LoopState.found <$>
        keydometBench env opsMix iterations containerSize opKeysNum input draws := by
  rw [keydometBody, keydometBench, map_bind, map_bind]
  congr 1
  funext prepared
  obtain ⟨container, opKeys, input, draws⟩ := prepared
  rw [map_bind, map_eq_pure_bind]
  rfl

theorem found_stringBody (env : Environment) (opsMix : Ops) (iterations : Nat)
    (containerSize opKeysNum : Int64) (input : InputProvider StdString π) (draws : Nat) :
    Prod.fst <$> stringBody StdString env opsMix iterations containerSize opKeysNum input draws =
      StringLoopState.found <$>
        stringBench env opsMix iterations containerSize opKeysNum input draws := by
  rw [stringBody, stringBench, map_bind, map_bind]
  congr 1
  funext fetched
  obtain ⟨strContainer, input, draws⟩ := fetched
  dsimp only
  rw [KeySet.ofRange_stdString, map_bind, map_bind]
  congr 1
  funext container
  rw [map_bind, map_bind]
  congr 1
  funext opKeysRead
  obtain ⟨opKeys, input, draws⟩ := opKeysRead
  have loop := keyLoop_stdString env.balance opsMix opKeys iterations ⟨container, 0, 0⟩
  dsimp only [StringLoopState.toKeyLoopState] at loop ⊢
  rw [loop, bind_map_left, map_bind, map_eq_pure_bind]
  rfl

/-! ## What is stored -/

section Stored

variable [ListedKeys π]

/-- Lists that a provider has stored are kept by another. -/
def Keeps (p q : π) : Prop :=
  ∀ r, (stored p r).length = r.keysNum.toNat → stored q r = stored p r

theorem Keeps.refl (p : π) : Keeps p p := fun _ _ => rfl

theorem Keeps.trans {p q r : π} (first : Keeps p q) (second : Keeps q r) : Keeps p r := by
  intro request complete
  have same := first request complete
  rw [second request (by rwa [same]), same]

omit [KeyType κ] in
theorem getKeys_stored {p q : π} {draws : Nat} (sound : (keyTable p).Sound (q, draws))
    (env : Environment) (cache : Cache (SearchTree κ)) {r : Request}
    (served : Supplies p r.keysNum) :
    ∃ q' draws',
      InputProvider.getKeys env ⟨q, cache⟩ draws r.keysNum r.use =
        .ok (stored q' r, ⟨q', cache⟩, draws') ∧
      (keyTable p).Sound (q', draws') ∧ (stored q' r).length = r.keysNum.toNat ∧ Keeps q q' := by
  obtain ⟨⟨q', draws'⟩, run, answered⟩ :=
    request_implements env p (q, draws) r sound.inv served
  rw [request, Traced.value_ofExcept] at run
  exact ⟨q', draws', InputProvider.getKeys_of_ok run, answered.sound sound, answered.complete,
    fun _ complete => answered.keeps complete⟩

theorem stored_perm {p q : π} {draws : Nat} (sound : (keyTable p).Sound (q, draws)) {r : Request}
    (served : Supplies p r.keysNum) (complete : (stored q r).length = r.keysNum.toNat) :
    (stored q r).Perm (pool p r.keysNum.toNat) :=
  sound.correct r complete served

/-- The container that a request for `n` keys is served: the one in the cache, whatever
provider it came from, or one of the provider's own first keys. -/
def ServesKeys (p : π) (cache : Cache (SearchTree κ)) (n : UInt32) (keys : List StdString) :
    Prop :=
  HoldsKeys (cache (packed n (KeysProvider.getKeyLen p))) keys ∨
    cache (packed n (KeysProvider.getKeyLen p)) = .nil ∧ keys = pool p n.toNat

theorem OwnContainers.servesKeys {p : π} {s : InputProvider κ π × Nat} (h : OwnContainers p s)
    {n : UInt32} (served : Supplies p n) :
    ServesKeys p s.1.containerCache n (pool p n.toNat) :=
  (h.containers n served).symm.imp_right fun empty => ⟨empty, rfl⟩

/-- `get_container` returns a container of these keys, and changes only its entry. -/
theorem value_getContainer_serves {p q : π} {draws : Nat} (clean : CleanPool p)
    (sound : (keyTable p).Sound (q, draws)) (env : Environment) {cache : Cache (SearchTree κ)}
    {n : UInt32} {keys : List StdString} (served : Supplies p n) (nodup : keys.Nodup)
    (length : keys.length = n.toNat) (serves : ServesKeys p cache n keys) :
    ∃ t q' draws',
      (InputProvider.getContainer env ⟨q, cache⟩ draws n.toUInt64).value =
        .ok (t, ⟨q', Function.update cache (packed n (KeysProvider.getKeyLen p)) t⟩, draws') ∧
      HoldsKeys t keys ∧ (keyTable p).Sound (q', draws') ∧ Keeps q q' := by
  have wide : n.toUInt64.toNat = n.toNat := UInt32.toNat_toUInt64 n
  have key : InputProvider.containerKey (κ := κ) ⟨q, cache⟩ n.toUInt64 =
      packed n (KeysProvider.getKeyLen p) := by
    rw [containerKey_eq, UInt32.toUInt32_toUInt64]
    exact congrArg _ sound.inv.getKeyLen_eq
  by_cases hit : (cache (packed n (KeysProvider.getKeyLen p))).size = n.toNat
  · have holds : HoldsKeys (cache (packed n (KeysProvider.getKeyLen p))) keys := by
      rcases serves with holds | ⟨empty, -⟩
      · exact holds
      · rw [empty] at hit ⊢
        have none : keys = [] := List.length_eq_zero_iff.mp (length.trans hit.symm)
        rw [none]
        exact holdsKeys_nil
    refine ⟨_, q, draws, ?_, holds, sound, .refl q⟩
    rw [Function.update_eq_self, ← key]
    rw [← key] at hit
    rw [getContainer_hit env draws (hit.trans wide.symm), Traced.value_ok]
  · -- An entry that was filled would have the requested size.
    obtain ⟨empty, rfl⟩ : cache (packed n (KeysProvider.getKeyLen p)) = .nil ∧
        keys = pool p n.toNat := by
      rcases serves with holds | unfilled
      · exact absurd ((holds.size_eq nodup).trans length) hit
      · exact unfilled
    obtain ⟨q', draws', gotten, sound', complete, keeps⟩ :=
      getKeys_stored (κ := κ) sound env cache (r := ⟨n, .buildContainer⟩) served
    have perm := stored_perm sound' (r := ⟨n, .buildContainer⟩) served complete
    obtain ⟨t, inserted, holds⟩ := value_insertThrough_nil (κ := κ) env.balance
      fun s hs => clean.nulFree _ s (perm.mem_iff.mp hs)
    have holds' := holds.perm perm
    have fetched : InputProvider.getKeys env ⟨q, cache⟩ draws n.toUInt64.toUInt32 .buildContainer =
        .ok (stored q' ⟨n, .buildContainer⟩, ⟨q', cache⟩, draws') := by
      rwa [UInt32.toUInt32_toUInt64]
    refine ⟨t, q', draws', ?_, holds', sound', keeps⟩
    rw [← key]
    rw [← key] at empty hit
    apply value_getContainer_miss env ?miss ?empty fetched
    case miss => rwa [wide]
    case empty =>
      dsimp only
      rw [empty, SearchTree.size]
    case enough => rw [wide, complete]
    case inserted =>
      dsimp only
      rw [empty, wide, ← complete, List.take_length, inserted]
    case size => rw [holds'.size_eq nodup, wide, length]

/-! ## What a body does -/

/-- A run of a body: it reports the hits of its operations in a set of these keys, where the
operation keys are the list that is stored at the end; it keeps the lists that were stored
before, and changes one entry of the cache. -/
structure Ran (p q : π) (cache : Cache (SearchTree κ)) (opsMix : Ops) (iterations : Nat)
    (n m : UInt32) (keys : List StdString) (found : UInt64) (input : InputProvider κ π)
    (draws : Nat) : Prop where
  lists : (keyTable p).Sound (input.keyProvider, draws)
  keeps : Keeps q input.keyProvider
  complete : (stored input.keyProvider ⟨m, .benchOps⟩).length = m.toNat
  entry : HoldsKeys (input.containerCache (packed n (KeysProvider.getKeyLen p))) keys
  elsewhere : ∀ cacheKey, cacheKey ≠ packed n (KeysProvider.getKeyLen p) →
    input.containerCache cacheKey = cache cacheKey
  found_eq : found = hits (Traced.modelRun SetModel.step keys.toFinset
    (loopOperations opsMix (stored input.keyProvider ⟨m, .benchOps⟩) iterations 0)).1

theorem opKeys_spec {p q : π} {draws : Nat} (clean : CleanPool p)
    (sound : (keyTable p).Sound (q, draws)) {m : UInt32} (served : Supplies p m) (pos : m ≠ 0)
    (complete : (stored q ⟨m, .benchOps⟩).length = m.toNat) :
    stored q ⟨m, .benchOps⟩ ≠ [] ∧ ∀ k ∈ stored q ⟨m, .benchOps⟩, 0 ∉ k.chars := by
  constructor
  · intro none
    rw [none, List.length_nil] at complete
    exact pos (UInt32.toNat_inj.mp complete.symm)
  · intro k hk
    have perm := stored_perm sound (r := ⟨m, .benchOps⟩) served complete
    exact clean.nulFree _ k (perm.mem_iff.mp hk)

section Run

variable {p q : π} {draws : Nat} {n m : UInt32} {keys : List StdString}
  {containerSize opKeysNum : Int64}

/-- Both templates fetch a container and operation keys. -/
theorem value_fetch {cache : Cache (SearchTree κ)} (clean : CleanPool p)
    (sound : (keyTable p).Sound (q, draws)) (env : Environment) (served : Supplies p n)
    (served' : Supplies p m) (nodup : keys.Nodup) (length : keys.length = n.toNat)
    (serves : ServesKeys p cache n keys) :
    ∃ t draws' q' input draws'',
      (InputProvider.getContainer env ⟨q, cache⟩ draws n.toUInt64).value =
        .ok (t, ⟨q', Function.update cache (packed n (KeysProvider.getKeyLen p)) t⟩, draws') ∧
      InputProvider.getKeys env
          ⟨q', Function.update cache (packed n (KeysProvider.getKeyLen p)) t⟩ draws' m .benchOps =
        .ok (stored input.keyProvider ⟨m, .benchOps⟩, input, draws'') ∧
      HoldsKeys t keys ∧
      ∀ opsMix iterations, Ran p q cache opsMix iterations n m keys
        (hits (Traced.modelRun SetModel.step keys.toFinset (loopOperations opsMix
          (stored input.keyProvider ⟨m, .benchOps⟩) iterations 0)).1) input draws'' := by
  obtain ⟨t, q', draws', fetched, holds, sound', keeps⟩ :=
    value_getContainer_serves clean sound env served nodup length serves
  obtain ⟨q'', draws'', gotten, sound'', complete, keeps'⟩ :=
    getKeys_stored sound' env (Function.update cache (packed n (KeysProvider.getKeyLen p)) t)
      (r := ⟨m, .benchOps⟩) served'
  refine ⟨t, draws', q', ⟨q'', _⟩, draws'', fetched, gotten, holds, fun opsMix iterations => ?_⟩
  refine ⟨sound'', keeps.trans keeps', complete, ?_, ?_, rfl⟩
  · dsimp only
    rwa [Function.update_self]
  · exact fun _ other => Function.update_of_ne other _ _

theorem value_prepare {N : PrefixSize} {cache : Cache (KeydometSet N)} (clean : CleanPool p)
    (sound : (keyTable p).Sound (q, draws)) (env : Environment)
    (size : containerSize.toUInt64 = n.toUInt64) (number : opKeysNum.toUInt64.toUInt32 = m)
    (served : Supplies p n) (served' : Supplies p m) (nodup : keys.Nodup)
    (length : keys.length = n.toNat) (serves : ServesKeys p cache n keys) :
    ∃ t input draws',
      (prepare env containerSize opKeysNum ⟨q, cache⟩ draws).value =
        .ok (t, stored input.keyProvider ⟨m, .benchOps⟩, input, draws') ∧
      HoldsKeys t keys ∧
      ∀ opsMix iterations, Ran p q cache opsMix iterations n m keys
        (hits (Traced.modelRun SetModel.step keys.toFinset (loopOperations opsMix
          (stored input.keyProvider ⟨m, .benchOps⟩) iterations 0)).1) input draws' := by
  obtain ⟨t, draws', q', input, draws'', fetched, gotten, holds, ran⟩ :=
    value_fetch clean sound env served served' nodup length serves
  refine ⟨t, input, draws'', ?_, holds, ran⟩
  rw [prepare, size, number, Traced.value_bind_of_eq fetched]
  dsimp only
  rw [gotten]
  rfl

/-- `keydomet_bench` reports the hits of its operations in the set of its keys. -/
theorem value_keydometBody {N : PrefixSize} {cache : Cache (KeydometSet N)} (clean : CleanPool p)
    (sound : (keyTable p).Sound (q, draws)) (env : Environment)
    (size : containerSize.toUInt64 = n.toUInt64) (number : opKeysNum.toUInt64.toUInt32 = m)
    (pos : m ≠ 0) (served : Supplies p n) (served' : Supplies p m) (nodup : keys.Nodup)
    (length : keys.length = n.toNat) (serves : ServesKeys p cache n keys) (opsMix : Ops)
    (iterations : Nat) :
    ∃ found input draws',
      (keydometBody env opsMix iterations containerSize opKeysNum ⟨q, cache⟩ draws).value =
        .ok (found, input, draws') ∧
      Ran p q cache opsMix iterations n m keys found input draws' := by
  obtain ⟨t, input, draws', prepared, holds, ran⟩ :=
    value_prepare clean sound env size number served served' nodup length serves
  have done := ran opsMix iterations
  obtain ⟨nonempty, nulFree⟩ := opKeys_spec clean done.lists served' pos done.complete
  have h : KeydometSet.NulFree t keys.toFinset :=
    ⟨⟨holds.holds.represents, holds.holds.wellBuilt⟩, holds.nulFree⟩
  obtain ⟨last, -, loop, -⟩ := value_timedLoop env.balance opsMix iterations nonempty nulFree h
  refine ⟨_, input, draws', ?_, done⟩
  rw [keydometBody, Traced.value_bind_of_eq prepared, Traced.value_bind_of_eq loop]
  rfl

/-- So does `string_bench`, with elements of any key type in its own container. -/
theorem value_stringBody (κ : Type) [KeyType κ] {cache : Cache StringSet} (clean : CleanPool p)
    (sound : (keyTable p).Sound (q, draws)) (env : Environment)
    (size : containerSize.toUInt64 = n.toUInt64) (number : opKeysNum.toUInt64.toUInt32 = m)
    (pos : m ≠ 0) (served : Supplies p n) (served' : Supplies p m) (nodup : keys.Nodup)
    (length : keys.length = n.toNat) (serves : ServesKeys p cache n keys) (opsMix : Ops)
    (iterations : Nat) :
    ∃ found input draws',
      (stringBody κ env opsMix iterations containerSize opKeysNum ⟨q, cache⟩ draws).value =
        .ok (found, input, draws') ∧
      Ran p q cache opsMix iterations n m keys found input draws' := by
  obtain ⟨t, draws', q', input, draws'', fetched, gotten, holds, ran⟩ :=
    value_fetch clean sound env served served' nodup length serves
  have done := ran opsMix iterations
  obtain ⟨nonempty, nulFree⟩ := opKeys_spec clean done.lists served' pos done.complete
  have h : KeySet.NulFree t keys.toFinset := ⟨holds.holds, holds.nulFree⟩
  obtain ⟨copy, copied, h'⟩ := KeySet.value_ofRange_copy (κ := κ) env.balance h
  obtain ⟨last, -, loop, -⟩ := value_keyLoop env.balance opsMix iterations nonempty nulFree h'
  refine ⟨_, input, draws'', ?_, done⟩
  rw [stringBody, size, number, Traced.value_bind_of_eq fetched]
  dsimp only
  rw [Traced.value_bind_of_eq copied, gotten, Traced.ofExcept, Traced.ok_bind, Traced.after_nil,
    Traced.value_bind_of_eq loop]
  rfl

end Run

end Stored

end Kdmt.Bench

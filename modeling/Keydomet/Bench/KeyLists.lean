import Keydomet.Foundation.Memo
import Keydomet.Bench.Dataset

/-!
# The key lists of a provider

Both providers answer `get_keys` from a memo table. A request is a size and a use, a stored
list passes if it has the requested size, and a list is computed by shuffling the first keys
of a pool that does not change: sequential keys, or the lines of a file. `ListedKeys` says
this of a provider.

Over every run of requests the answers are therefore entries of one table, and each is a
permutation of the pool's first keys. Whether these keys have the length that a random
provider reports is decided at the end.
-/

namespace Kdmt.Bench

open Foundation

structure Request where
  keysNum : UInt32
  use : KeysUse
deriving DecidableEq, Repr

/-- A call of `get_keys`, on a provider and the number of shuffles made so far. -/
def request {π : Type} [KeysProvider π] (env : Environment) (s : π × Nat) (r : Request) :
    Code (List StdString × π × Nat) :=
  .ofExcept (KeysProvider.getKeys env s.1 s.2 r.keysNum r.use)

/-- A provider of lists of keys from a pool. -/
class ListedKeys (π : Type) [KeysProvider π] where
  /-- The list stored for a request, empty if there is none. -/
  stored : π → Request → List StdString
  store : π → Request → List StdString → π
  /-- The keys that a list of some size is made of. -/
  pool : π → Nat → List StdString
  /-- The pool has so many keys. -/
  Supplies : π → UInt32 → Prop
  stored_store : ∀ p r keys r',
    stored (store p r keys) r' = if r' = r then keys else stored p r'
  pool_store : ∀ p r keys, pool (store p r keys) = pool p
  supplies_store : ∀ p r keys, Supplies (store p r keys) = Supplies p
  getKeyLen_store : ∀ p r keys,
    KeysProvider.getKeyLen (store p r keys) = KeysProvider.getKeyLen p
  getKeys_hit : ∀ env p draws r, (stored p r).length = r.keysNum.toNat →
    KeysProvider.getKeys env p draws r.keysNum r.use = .ok (stored p r, p, draws)
  getKeys_miss : ∀ env p draws r, (stored p r).length ≠ r.keysNum.toNat → Supplies p r.keysNum →
    KeysProvider.getKeys env p draws r.keysNum r.use =
      .ok (env.shuffle draws (pool p r.keysNum.toNat),
        store p r (env.shuffle draws (pool p r.keysNum.toNat)), draws + 1)
  getKeys_fails : ∀ env p draws r, (stored p r).length ≠ r.keysNum.toNat →
    ¬ Supplies p r.keysNum → ∃ reason,
      KeysProvider.getKeys env p draws r.keysNum r.use = .error reason
  length_pool : ∀ p n, Supplies p n → (pool p n.toNat).length = n.toNat
  pool_subset : ∀ p {n m}, n ≤ m → pool p n ⊆ pool p m

/-! ## The two providers -/

theorem KeyCaches.entry_assign_request (self : KeyCaches) {key : UInt32 → UInt64}
    (inj : Function.Injective key) (r r' : Request) (keys : List StdString) :
    (self.assign r.use (key r.keysNum) keys).entry r'.use (key r'.keysNum) =
      if r' = r then keys else self.entry r'.use (key r'.keysNum) := by
  rw [entry_assign]
  refine if_congr ?_ rfl rfl
  rw [inj.eq_iff]
  cases r
  cases r'
  simp [and_comm]

namespace RandKeysProvider

def cacheKey (self : RandKeysProvider) (keysNum : UInt32) : UInt64 :=
  packed keysNum self.getKeyLen

theorem cacheKey_injective (self : RandKeysProvider) : Function.Injective self.cacheKey :=
  fun _ _ same => (packed_inj.mp same).1

/-- The keys that a list of some size is made of. -/
def sequentialKeys (self : RandKeysProvider) (n : Nat) : List StdString :=
  (List.range n).map (getSeqStr self.keyLen.toNat self.extraLen.toNat)

@[simp] theorem length_sequentialKeys (self : RandKeysProvider) (n : Nat) :
    (self.sequentialKeys n).length = n := by
  rw [sequentialKeys, List.length_map, List.length_range]

def store (self : RandKeysProvider) (r : Request) (keys : List StdString) : RandKeysProvider :=
  { self with toKeyCaches := self.assign r.use (self.cacheKey r.keysNum) keys }

theorem getKeys_hit (env : Environment) (self : RandKeysProvider) (draws : Nat) (r : Request)
    (hit : (self.entry r.use (self.cacheKey r.keysNum)).length = r.keysNum.toNat) :
    self.getKeys env draws r.keysNum r.use =
      .ok (self.entry r.use (self.cacheKey r.keysNum), self, draws) :=
  if_neg (not_not.mpr hit)

/-- A list that is missing is generated and shuffled; the assertion holds. -/
theorem getKeys_miss (env : Environment) (self : RandKeysProvider) (draws : Nat) (r : Request)
    (miss : (self.entry r.use (self.cacheKey r.keysNum)).length ≠ r.keysNum.toNat) :
    self.getKeys env draws r.keysNum r.use =
      .ok (env.shuffle draws (self.sequentialKeys r.keysNum.toNat),
        self.store r (env.shuffle draws (self.sequentialKeys r.keysNum.toNat)), draws + 1) := by
  have complete : (env.shuffle draws (self.sequentialKeys r.keysNum.toNat)).length =
      r.keysNum.toNat := by
    rw [(env.shuffle_perm _ _).length_eq, length_sequentialKeys]
  refine (if_pos miss).trans ?_
  change (env.assert (decide ((env.shuffle draws (self.sequentialKeys _)).length = _)) >>= _) = _
  rw [assert_of_true env (decide_eq_true complete)]
  rfl

instance : ListedKeys RandKeysProvider where
  stored p r := p.entry r.use (p.cacheKey r.keysNum)
  store := store
  pool := sequentialKeys
  Supplies _ _ := True
  stored_store p r keys r' := p.entry_assign_request p.cacheKey_injective r r' keys
  pool_store _ _ _ := rfl
  supplies_store _ _ _ := rfl
  getKeyLen_store _ _ _ := rfl
  getKeys_hit env p := p.getKeys_hit env
  getKeys_miss env p draws r miss _ := p.getKeys_miss env draws r miss
  getKeys_fails _ _ _ _ _ unserved := absurd trivial unserved
  length_pool p n _ := p.length_sequentialKeys n.toNat
  pool_subset _ _ _ le := List.map_subset _ (List.range_subset.mpr le)

end RandKeysProvider

namespace DatasetKeysProvider

def store (self : DatasetKeysProvider) (r : Request) (keys : List StdString) :
    DatasetKeysProvider :=
  { self with toKeyCaches := self.assign r.use r.keysNum.toUInt64 keys }

theorem getKeys_hit (env : Environment) (self : DatasetKeysProvider) (draws : Nat) (r : Request)
    (hit : (self.entry r.use r.keysNum.toUInt64).length = r.keysNum.toNat) :
    self.getKeys env draws r.keysNum r.use =
      .ok (self.entry r.use r.keysNum.toUInt64, self, draws) :=
  if_neg (not_not.mpr hit)

/-- A list that is missing is copied and shuffled; the assertions hold. -/
theorem getKeys_miss (env : Environment) (self : DatasetKeysProvider) (draws : Nat) (r : Request)
    (miss : (self.entry r.use r.keysNum.toUInt64).length ≠ r.keysNum.toNat)
    (served : r.keysNum.toNat ≤ self.rawContent.length) :
    self.getKeys env draws r.keysNum r.use =
      .ok (env.shuffle draws (self.rawContent.take r.keysNum.toNat),
        self.store r (env.shuffle draws (self.rawContent.take r.keysNum.toNat)), draws + 1) := by
  have complete : (env.shuffle draws (self.rawContent.take r.keysNum.toNat)).length =
      r.keysNum.toNat := by
    rw [(env.shuffle_perm _ _).length_eq, List.length_take_of_le served]
  refine (if_pos miss).trans ?_
  rw [assert_of_true env (decide_eq_true served), if_neg (Nat.not_lt.mpr served)]
  change (env.assert _ >>= _) = _
  rw [assert_of_true env (decide_eq_true complete)]
  rfl

/-- A request for more keys than the file has lines fails, with or without assertions. -/
theorem getKeys_fails (env : Environment) (self : DatasetKeysProvider) (draws : Nat)
    (r : Request) (miss : (self.entry r.use r.keysNum.toUInt64).length ≠ r.keysNum.toNat)
    (unserved : ¬ r.keysNum.toNat ≤ self.rawContent.length) :
    ∃ reason, self.getKeys env draws r.keysNum r.use = .error reason := by
  rw [getKeys]
  simp only [miss, ne_eq, not_false_eq_true, if_true]
  cases env.assert (decide (r.keysNum.toNat ≤ self.rawContent.length)) with
  | error reason => exact ⟨reason, rfl⟩
  | ok _ =>
      rw [if_pos (Nat.lt_of_not_le unserved)]
      exact ⟨.outOfBounds, rfl⟩

instance : ListedKeys DatasetKeysProvider where
  stored p r := p.entry r.use r.keysNum.toUInt64
  store := store
  pool p n := p.rawContent.take n
  Supplies p n := n.toNat ≤ p.rawContent.length
  stored_store p r keys r' :=
    p.entry_assign_request (fun _ _ same => UInt32.toUInt64_inj.mp same) r r' keys
  pool_store _ _ _ := rfl
  supplies_store _ _ _ := rfl
  getKeyLen_store _ _ _ := rfl
  getKeys_hit env p := p.getKeys_hit env
  getKeys_miss env p := p.getKeys_miss env
  getKeys_fails env p := p.getKeys_fails env
  length_pool _ _ served := List.length_take_of_le served
  pool_subset _ _ _ le := List.take_subset_take_left _ le

end DatasetKeysProvider

/-! ## Runs of requests -/

section Runs

open ListedKeys

variable {π : Type} [KeysProvider π] [ListedKeys π]

/-- Two providers of the same keys, which may store different lists. -/
structure SameKeys (p p' : π) : Prop where
  pool_eq : pool p' = pool p
  supplies_eq : Supplies p' = Supplies p
  getKeyLen_eq : KeysProvider.getKeyLen p' = KeysProvider.getKeyLen p

theorem SameKeys.refl (p : π) : SameKeys p p := ⟨rfl, rfl, rfl⟩

theorem SameKeys.store {p p' : π} (h : SameKeys p p') (r : Request) (keys : List StdString) :
    SameKeys p (store p' r keys) :=
  ⟨(pool_store _ _ _).trans h.pool_eq, (supplies_store _ _ _).trans h.supplies_eq,
    (getKeyLen_store _ _ _).trans h.getKeyLen_eq⟩

/-- The memo table of a provider with the keys of `p`. -/
def keyTable (p : π) : MemoTable (π × Nat) Request (List StdString) where
  entry s r := stored s.1 r
  Complete r keys := keys.length = r.keysNum.toNat
  Correct r keys := Supplies p r.keysNum → keys.Perm (pool p r.keysNum.toNat)
  Inv s := SameKeys p s.1

/-- `get_keys` is a memo table, for the sizes that the pool has keys for. -/
theorem request_implements (env : Environment) (p : π) :
    (keyTable p).Implements (request env) fun r => Supplies p r.keysNum := by
  rintro ⟨q, draws⟩ r same served
  by_cases hit : (stored q r).length = r.keysNum.toNat
  · refine ⟨(q, draws), ?_, same, fun _ => rfl, fun miss => absurd hit miss, fun _ _ => rfl⟩
    rw [request, getKeys_hit env q draws r hit]
    rfl
  · have served' : Supplies q r.keysNum := by rwa [same.supplies_eq]
    have shuffled := env.shuffle_perm draws (pool q r.keysNum.toNat)
    refine ⟨(store q r (env.shuffle draws (pool q r.keysNum.toNat)), draws + 1), ?_,
      same.store r _, fun stored => absurd stored hit, fun _ => ?_, fun r' other => ?_⟩
    · rw [request, getKeys_miss env q draws r hit served']
      simp [keyTable, Traced.ofExcept, stored_store]
    · simp only [keyTable, stored_store, if_true]
      refine ⟨?_, fun _ => ?_⟩
      · rw [shuffled.length_eq, length_pool q _ served']
      · rwa [same.pool_eq] at shuffled ⊢
    · simp only [keyTable, stored_store, if_neg other]

theorem sound_of_fresh {p : π} (fresh : ∀ r, stored p r = []) (draws : Nat) :
    (keyTable p).Sound (p, draws) := by
  refine ⟨.refl p, ?_⟩
  intro r complete served
  have complete : (stored p r).length = r.keysNum.toNat := complete
  have size := length_pool p r.keysNum served
  rw [← complete, fresh, List.length_nil, List.length_eq_zero_iff] at size
  change (stored p r).Perm _
  rw [fresh, ← complete, fresh, List.length_nil, size]

/-- What holds of the answers to a series of requests. -/
structure Consistent (answers : List (Request × List StdString)) : Prop where
  /-- Each answer has so many keys as were requested, and they are different. -/
  distinct : ∀ a ∈ answers, a.2.length = a.1.keysNum.toNat ∧ a.2.Nodup
  repeated : ∀ a ∈ answers, ∀ b ∈ answers, a.1 = b.1 → a.2 = b.2
  /-- A list contains all smaller ones, for whatever use. -/
  nested : ∀ a ∈ answers, ∀ b ∈ answers, a.1.keysNum ≤ b.1.keysNum → a.2 ⊆ b.2
  permuted : ∀ a ∈ answers, ∀ b ∈ answers, a.1.keysNum = b.1.keysNum → a.2.Perm b.2

theorem run_consistent (env : Environment) {p : π} (fresh : ∀ r, stored p r = []) (draws : Nat)
    (requests : List Request) (served : ∀ r ∈ requests, Supplies p r.keysNum)
    (distinct : ∀ r ∈ requests, (pool p r.keysNum.toNat).Nodup) :
    ∃ lists last, (Traced.run (request env) (p, draws) requests).value = .ok (lists, last) ∧
      lists.length = requests.length ∧ Consistent (requests.zip lists) := by
  obtain ⟨last, run, sound, complete, -⟩ :=
    (request_implements env p).run_outputs (sound_of_fresh fresh draws) requests served
  have perm : ∀ r ∈ requests, (stored last.1 r).Perm (pool p r.keysNum.toNat) :=
    fun r hr => sound.correct r (complete r hr) (served r hr)
  have answers : ∀ a ∈ requests.zip (requests.map ((keyTable p).entry last)),
      a.1 ∈ requests ∧ a.2 = stored last.1 a.1 := by
    intro a ha
    have zipped : requests.zip (requests.map ((keyTable p).entry last)) =
        requests.map fun r => (r, stored last.1 r) := by
      conv_lhs => rw [← List.map_id requests, List.map_map, List.zip_map']
      rfl
    rw [zipped] at ha
    obtain ⟨r, hr, rfl⟩ := List.mem_map.mp ha
    exact ⟨hr, rfl⟩
  refine ⟨_, last, run, List.length_map _, ?_, ?_, ?_, ?_⟩
  · intro a ha
    obtain ⟨asked, answer⟩ := answers a ha
    rw [answer]
    exact ⟨complete _ asked, (perm _ asked).nodup_iff.mpr (distinct _ asked)⟩
  · intro a ha b hb same
    rw [(answers a ha).2, (answers b hb).2, same]
  · intro a ha b hb le
    obtain ⟨asked, answer⟩ := answers a ha
    obtain ⟨asked', answer'⟩ := answers b hb
    rw [answer, answer', (perm _ asked).subset_congr_left, (perm _ asked').subset_congr_right]
    exact pool_subset p (UInt32.le_iff_toNat_le.mp le)
  · intro a ha b hb same
    obtain ⟨asked, answer⟩ := answers a ha
    obtain ⟨asked', answer'⟩ := answers b hb
    rw [answer, answer']
    exact (perm _ asked).trans (same ▸ (perm _ asked').symm)

/-- A call of `get_keys` that returns either found its list, or stored a new one. -/
theorem getKeys_cases {env : Environment} {p p' : π} {draws draws' : Nat} {r : Request}
    {keys : List StdString}
    (run : KeysProvider.getKeys env p draws r.keysNum r.use = .ok (keys, p', draws')) :
    ((stored p r).length = r.keysNum.toNat ∧ keys = stored p r ∧ p' = p ∧ draws' = draws) ∨
    ((stored p r).length ≠ r.keysNum.toNat ∧ Supplies p r.keysNum ∧
      keys = env.shuffle draws (pool p r.keysNum.toNat) ∧ p' = store p r keys ∧
      draws' = draws + 1) := by
  by_cases hit : (stored p r).length = r.keysNum.toNat
  · rw [getKeys_hit env p draws r hit] at run
    cases run
    exact .inl ⟨hit, rfl, rfl, rfl⟩
  · by_cases served : Supplies p r.keysNum
    · rw [getKeys_miss env p draws r hit served] at run
      cases run
      exact .inr ⟨hit, served, rfl, rfl, rfl⟩
    · obtain ⟨reason, fails⟩ := getKeys_fails env p draws r hit served
      rw [fails] at run
      cases run

theorem frame_of_request {env : Environment} {p p' : π} {draws draws' : Nat} {r : Request}
    {keys : List StdString} {log : List Effect}
    (run : request env (p, draws) r = .ok (keys, p', draws') log) {r' : Request} (other : r' ≠ r) :
    stored p' r' = stored p r' := by
  have returned : (request env (p, draws) r).value = .ok (keys, p', draws') := by
    rw [run, Traced.value_ok]
  rw [request, Traced.value_ofExcept] at returned
  rcases getKeys_cases returned with ⟨-, -, rfl, -⟩ | ⟨-, -, -, rfl, -⟩
  · rfl
  · rw [stored_store, if_neg other]

theorem request_after_run (env : Environment) {p : π} (fresh : ∀ r, stored p r = []) (draws : Nat)
    (earlier : List Request) (served : ∀ r ∈ earlier, Supplies p r.keysNum) (r : Request)
    (served' : Supplies p r.keysNum) :
    ∃ lists last keys next,
      (Traced.run (request env) (p, draws) earlier).value = .ok (lists, last) ∧
      (request env last r).value = .ok (keys, next) ∧
      SameKeys p last.1 ∧ keys.Perm (pool p r.keysNum.toNat) := by
  obtain ⟨last, run, sound, -, -⟩ :=
    (request_implements env p).run_outputs (sound_of_fresh fresh draws) earlier served
  obtain ⟨next, answer, answered⟩ := request_implements env p last r sound.inv served'
  exact ⟨_, last, _, next, run, answer, sound.inv,
    (answered.sound sound).correct r answered.complete served'⟩

end Runs

/-- Key lists over any run of requests, of a new random provider, and of a new provider of a
file that is not asked for more keys than the file has different lines: the answers are
consistent with one another. In no state does a call change the list of another request. -/
theorem key_lists_consistent (env : Environment) (requests : List Request) (draws : Nat) :
    (∀ keyLen extraLen : UInt32, ∃ lists last,
      (Traced.run (request env) (({ keyLen, extraLen } : RandKeysProvider), draws) requests).value =
        .ok (lists, last) ∧
      lists.length = requests.length ∧ Consistent (requests.zip lists)) ∧
    (∀ policy file input, (∀ r ∈ requests, r.keysNum.toNat ≤ input.toFinset.card) →
      ∃ provider draws' lists last,
        DatasetKeysProvider.ofFile env policy file (.ok input) draws = .ok (provider, draws') ∧
        (Traced.run (request env) (provider, draws') requests).value = .ok (lists, last) ∧
        lists.length = requests.length ∧ Consistent (requests.zip lists)) ∧
    (∀ (p p' : RandKeysProvider) draws draws' r keys log,
      request env (p, draws) r = .ok (keys, p', draws') log →
      ∀ r', r' ≠ r → ListedKeys.stored p' r' = ListedKeys.stored p r') ∧
    (∀ (p p' : DatasetKeysProvider) draws draws' r keys log,
      request env (p, draws) r = .ok (keys, p', draws') log →
      ∀ r', r' ≠ r → ListedKeys.stored p' r' = ListedKeys.stored p r') := by
  refine ⟨?_, ?_, fun _ _ _ _ _ _ _ run _ => frame_of_request run,
    fun _ _ _ _ _ _ _ run _ => frame_of_request run⟩
  · intro keyLen extraLen
    exact run_consistent env (fun r => KeyCaches.entry_new r.use _) draws requests
      (fun _ _ => trivial)
      fun _ _ => List.nodup_range.map (getSeqStr_injective keyLen.toNat extraLen.toNat)
  · intro policy file input bounded
    obtain ⟨rawContent, opened, nodup, lines, -⟩ :=
      DatasetKeysProvider.ofFile_ok env policy file input draws
    obtain ⟨lists, last, run, length, consistent⟩ :=
      run_consistent env (p := ({ rawContent } : DatasetKeysProvider))
        (fun r => KeyCaches.entry_new r.use _) (draws + 1) requests
        (fun r hr => (bounded r hr).trans_eq lines.symm)
        fun r _ => nodup.sublist (List.take_sublist _ _)
    exact ⟨_, _, lists, last, opened, run, length, consistent⟩

/-! ## The length of the keys -/

/-- The first keys all have `len` letters only if there are no keys, or no letters: the loop of
`get_seq_str` does not consult `len`. -/
theorem forall_length_seqDigits_iff {len n : Nat} (few : n ≤ charRange ^ len) :
    (∀ seq, seq < n → (seqDigits seq).length = len) ↔ n = 0 ∨ len = 0 := by
  have first : (seqDigits 0).length = 0 := by simp [seqDigits_eq]
  constructor
  · intro exact
    by_cases none : n = 0
    · exact .inl none
    · exact .inr ((exact 0 (Nat.pos_of_ne_zero none)).symm.trans first)
  · rintro (rfl | rfl) seq small
    · exact absurd small (Nat.not_lt_zero seq)
    · rw [Nat.pow_zero] at few
      obtain rfl : seq = 0 := by omega
      exact first

/-- The keys that a random provider returns, after any earlier requests, have the length it
reports exactly if none were requested or its keys have no letters. -/
theorem key_length_reported_iff (env : Environment) (keyLen extraLen : UInt32) (draws : Nat)
    (earlier : List Request) (r : Request) (fits : keyLen.toNat + extraLen.toNat < 2 ^ 32)
    (few : r.keysNum.toNat ≤ charRange ^ keyLen.toNat) :
    ∃ lists last keys next,
      (Traced.run (request env) (({ keyLen, extraLen } : RandKeysProvider), draws) earlier).value =
        .ok (lists, last) ∧
      (request env last r).value = .ok (keys, next) ∧
      last.1.getKeyLen.toNat = keyLen.toNat + extraLen.toNat ∧
      ((∀ key ∈ keys, key.chars.length = last.1.getKeyLen.toNat) ↔
        r.keysNum = 0 ∨ keyLen = 0) := by
  obtain ⟨lists, last, keys, next, run, answer, same, perm⟩ :=
    request_after_run env (p := ({ keyLen, extraLen } : RandKeysProvider))
      (fun r => KeyCaches.entry_new r.use _) draws earlier (fun _ _ => trivial) r trivial
  have reported : last.1.getKeyLen.toNat = keyLen.toNat + extraLen.toNat := by
    have sum : last.1.getKeyLen = keyLen + extraLen := same.getKeyLen_eq
    rw [sum, UInt32.toNat_add, Nat.mod_eq_of_lt fits]
  refine ⟨lists, last, keys, next, run, answer, reported, ?_⟩
  have lengths : (∀ key ∈ keys, key.chars.length = keyLen.toNat + extraLen.toNat) ↔
      ∀ seq, seq < r.keysNum.toNat → (seqDigits seq).length = keyLen.toNat := by
    simp only [perm.mem_iff]
    change (∀ key ∈ (List.range _).map _, _) ↔ _
    simp
  rw [reported, lengths, forall_length_seqDigits_iff few, ← UInt32.toNat_inj, ← UInt32.toNat_inj]
  rfl

/-- A provider of keys of length 1, asked for two keys: the first one is empty. -/
theorem key_length_reported_wrong :
    ∃ keys last, (request .plain (({ keyLen := 1, extraLen := 0 } : RandKeysProvider), 0)
        ⟨2, .buildContainer⟩).value = .ok (keys, last) ∧
      (UInt32.toNat 2) ≤ charRange ^ UInt32.toNat 1 ∧
      keys = [⟨[]⟩, ⟨[66]⟩] ∧
      ¬ ∀ key ∈ keys,
        key.chars.length = ({ keyLen := 1, extraLen := 0 } : RandKeysProvider).getKeyLen.toNat := by
  have twoKeys : ({ keyLen := 1, extraLen := 0 } : RandKeysProvider).sequentialKeys 2 =
      [⟨[]⟩, ⟨[66]⟩] := by
    simp [RandKeysProvider.sequentialKeys, List.range_succ, getSeqStr, seqDigits, digitChar,
      firstChar, lastChar, charRange]
  have run := RandKeysProvider.getKeys_miss .plain { keyLen := 1, extraLen := 0 } 0
    ⟨2, .buildContainer⟩ (by decide)
  refine ⟨_, _, congrArg (fun x => (Traced.ofExcept x : Code _).value) run, by decide,
    twoKeys, ?_⟩
  change ¬ ∀ key ∈ RandKeysProvider.sequentialKeys _ 2, _
  rw [twoKeys]
  decide

/-- The same request is one of those characterized above. -/
theorem key_length_reported_iff_two_keys :
    ∃ lists last keys next,
      (Traced.run (request .plain) (({ keyLen := 1, extraLen := 0 } : RandKeysProvider), 0)
        []).value = .ok (lists, last) ∧
      (request .plain last ⟨2, .buildContainer⟩).value = .ok (keys, next) ∧
      last.1.getKeyLen.toNat = 1 ∧
      ((∀ key ∈ keys, key.chars.length = last.1.getKeyLen.toNat) ↔
        (2 : UInt32) = 0 ∨ (1 : UInt32) = 0) :=
  key_length_reported_iff .plain 1 0 0 [] ⟨2, .buildContainer⟩ (by decide) (by decide)

end Kdmt.Bench

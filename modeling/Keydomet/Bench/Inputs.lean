import Keydomet.Bench.KeyLists

/-!
# The containers of one input

An input fetches keys from its provider and fills containers with them, each stored under
its size. Over any history of calls that returned, an entry of the cache is empty or holds
exactly the first keys of the pool (`OwnContainers`). A call whose size fits into 32 bits and
is served by the provider returns in every such state.

`get_container` takes a size of 64 bits, converts it to 32 bits for `get_keys`, and shifts it
out of the cache key. The histories in which nothing is lost are characterized at the end.
-/

namespace Kdmt.Bench

open Foundation KeyType ListedKeys

variable {κ π : Type} [KeyType κ] [KeysProvider π]

/-! ## Containers of keys -/

/-- A container of these keys, which have no NUL. -/
structure HoldsKeys (t : SearchTree κ) (keys : List StdString) : Prop where
  holds : Holds t keys.toFinset
  nulFree : ∀ x ∈ t.toList, 0 ∉ (getStr x).chars

theorem holdsKeys_nil : HoldsKeys (.nil : SearchTree κ) [] where
  holds := holds_nil
  nulFree x hx := by simp [SearchTree.toList] at hx

theorem HoldsKeys.perm {t : SearchTree κ} {keys keys' : List StdString} (h : HoldsKeys t keys)
    (perm : keys.Perm keys') : HoldsKeys t keys' where
  holds := List.toFinset_eq_of_perm _ _ perm ▸ h.holds
  nulFree := h.nulFree

theorem HoldsKeys.size_eq {t : SearchTree κ} {keys : List StdString} (h : HoldsKeys t keys)
    (nodup : keys.Nodup) : t.size = keys.length := by
  rw [h.holds.represents.size_eq, List.toFinset_card_of_nodup nodup]

theorem value_insertThrough_nil (B : Balance) {keys : List StdString}
    (nulFree : ∀ s ∈ keys, 0 ∉ s.chars) :
    ∃ t, (insertThrough B (.nil : SearchTree κ) 0 keys).value = .ok t ∧ HoldsKeys t keys := by
  obtain ⟨t, run, holds, members⟩ := value_insertThrough B (holds_nil (κ := κ)) 0 keys
  have same : keys.map (compared κ) = keys := by
    conv_rhs => rw [← List.map_id keys]
    exact List.map_congr_left fun s hs => compared_of_nulFree s (nulFree s hs)
  rw [same, Finset.empty_union] at holds
  refine ⟨t, run, holds, ?_⟩
  intro x hx
  rcases members x hx with old | new
  · simp [SearchTree.toList] at old
  · exact nulFree _ new

/-! ## The widths of a size -/

theorem toNat_toUInt32_of_lt {n : UInt64} (small : n.toNat < 2 ^ 32) :
    n.toUInt32.toNat = n.toNat := by
  rw [UInt64.toNat_toUInt32, Nat.mod_eq_of_lt small]

omit [KeyType κ] in
/-- The cache key of a container keeps 32 bits of its size. -/
theorem containerKey_eq (input : InputProvider κ π) (n : UInt64) :
    input.containerKey n =
      packed n.toUInt32 (KeysProvider.getKeyLen input.keyProvider) := by
  have shifted : n <<< 32 = n.toUInt32.toUInt64 <<< 32 := by
    apply UInt64.toNat_inj.mp
    rw [UInt64.toNat_shiftLeft, UInt64.toNat_shiftLeft, UInt32.toNat_toUInt64,
      UInt64.toNat_toUInt32]
    change n.toNat <<< 32 % 2 ^ 64 = (n.toNat % 2 ^ 32) <<< 32 % 2 ^ 64
    rw [Nat.shiftLeft_eq, Nat.shiftLeft_eq]
    omega
  rw [InputProvider.containerKey, packed, shifted]

omit [KeyType κ] in
theorem injOn_containerKey (input : InputProvider κ π) :
    Set.InjOn input.containerKey {n | n.toNat < 2 ^ 32} := by
  intro n hn m hm same
  rw [containerKey_eq, containerKey_eq, packed_inj, ← UInt32.toNat_inj,
    toNat_toUInt32_of_lt hn, toNat_toUInt32_of_lt hm] at same
  exact UInt64.toNat_inj.mp same.1

/-! ## One call of `get_container` -/

/-- A size keeps its value in a call of `get_container`: if the container has to be filled,
then its entry is empty, `get_keys` returns at least so many keys, and the filled container has
this size. -/
def FullWidth (env : Environment) (input : InputProvider κ π) (draws : Nat) (n : UInt64) : Prop :=
  (input.containerCache (input.containerKey n)).size ≠ n.toNat →
    (input.containerCache (input.containerKey n)).size = 0 ∧
    ∃ keys filled draws' t,
      input.getKeys env draws n.toUInt32 .buildContainer = .ok (keys, filled, draws') ∧
      n.toNat ≤ keys.length ∧
      (insertThrough env.balance (input.containerCache (input.containerKey n)) 0
        (keys.take n.toNat)).value = .ok t ∧
      t.size = n.toNat

theorem getContainer_hit (env : Environment) {input : InputProvider κ π} (draws : Nat)
    {n : UInt64} (hit : (input.containerCache (input.containerKey n)).size = n.toNat) :
    input.getContainer env draws n =
      .ok (input.containerCache (input.containerKey n), input, draws) [] := by
  rw [InputProvider.getContainer]
  simp only [hit, ne_eq, not_true_eq_false, if_false, Traced.pure_eq]

/-- `get_container` fills an empty entry. -/
theorem value_getContainer_miss (env : Environment) {input filled : InputProvider κ π}
    {draws draws' : Nat} {n : UInt64} {keys : List StdString} {t : SearchTree κ}
    (miss : (input.containerCache (input.containerKey n)).size ≠ n.toNat)
    (empty : (input.containerCache (input.containerKey n)).size = 0)
    (gotten : input.getKeys env draws n.toUInt32 .buildContainer = .ok (keys, filled, draws'))
    (enough : n.toNat ≤ keys.length)
    (inserted : (insertThrough env.balance (input.containerCache (input.containerKey n)) 0
      (keys.take n.toNat)).value = .ok t)
    (size : t.size = n.toNat) :
    (input.getContainer env draws n).value =
      .ok (t, ⟨filled.keyProvider, Function.update filled.containerCache (input.containerKey n) t⟩,
        draws') := by
  rw [InputProvider.getContainer]
  simp only [miss, ne_eq, not_false_eq_true, if_true,
    assert_of_true env (decide_eq_true empty), gotten, Traced.ofExcept, Traced.ok_bind,
    Traced.after_nil]
  rw [if_neg (Nat.not_lt.mpr enough), Traced.value_bind_of_eq inserted,
    assert_of_true env (decide_eq_true size)]
  rfl

/-- A call of `get_container` that returns either found its container, or fetched enough keys
and filled one. -/
theorem getContainer_cases {env : Environment} {input input' : InputProvider κ π}
    {draws draws' : Nat} {n : UInt64} {t : SearchTree κ} {log : List Effect}
    (run : input.getContainer env draws n = .ok (t, input', draws') log) :
    ((input.containerCache (input.containerKey n)).size = n.toNat ∧
      t = input.containerCache (input.containerKey n) ∧ input' = input ∧ draws' = draws ∧
      log = []) ∨
    ((input.containerCache (input.containerKey n)).size ≠ n.toNat ∧
      ∃ keys filled,
        input.getKeys env draws n.toUInt32 .buildContainer = .ok (keys, filled, draws') ∧
        n.toNat ≤ keys.length ∧
        insertThrough env.balance (input.containerCache (input.containerKey n)) 0
          (keys.take n.toNat) = .ok t log ∧
        input' = ⟨filled.keyProvider,
          Function.update filled.containerCache (input.containerKey n) t⟩) := by
  rw [InputProvider.getContainer] at run
  split at run
  next miss =>
    obtain ⟨_, -, run⟩ := Traced.ofExcept_bind_eq_ok.mp run
    obtain ⟨⟨keys, filled, _⟩, gotten, run⟩ := Traced.ofExcept_bind_eq_ok.mp run
    simp only [] at run
    split at run
    next short => cases run
    next long =>
      obtain ⟨_, first, second, inserted, stored, rfl⟩ := Traced.bind_eq_ok.mp run
      obtain ⟨_, -, stored⟩ := Traced.ofExcept_bind_eq_ok.mp stored
      cases stored
      rw [List.append_nil]
      exact .inr ⟨miss, keys, filled, gotten, Nat.le_of_not_lt long, inserted, rfl⟩
  next hit =>
    cases run
    exact .inl ⟨not_not.mp hit, rfl, rfl, rfl, rfl⟩

/-! ## Histories of calls -/

inductive InputCall where
  | getKeys (r : Request)
  | getContainer (containerSize : UInt64)
deriving DecidableEq, Repr

inductive InputResult (κ : Type) where
  | keys (keys : List StdString)
  | container (container : SearchTree κ)

/-- One call, on an input and the number of shuffles made so far. -/
def inputCall (env : Environment) (s : InputProvider κ π × Nat) :
    InputCall → Code (InputResult κ × InputProvider κ π × Nat)
  | .getKeys r => do
      let (keys, input, draws) ← .ofExcept (s.1.getKeys env s.2 r.keysNum r.use)
      return (.keys keys, input, draws)
  | .getContainer containerSize => do
      let (container, input, draws) ← s.1.getContainer env s.2 containerSize
      return (.container container, input, draws)

def InputProvider.new (p : π) : InputProvider κ π := ⟨p, fun _ => .nil⟩

variable [ListedKeys π]

/-- The provider has keys for a call, and its size fits into 32 bits. -/
def Admissible (p : π) : InputCall → Prop
  | .getKeys r => Supplies p r.keysNum
  | .getContainer containerSize =>
      containerSize.toNat < 2 ^ 32 ∧ Supplies p containerSize.toUInt32

/-- The keys of the pool are different, and have no NUL. -/
structure CleanPool (p : π) : Prop where
  nodup : ∀ n, (pool p n).Nodup
  nulFree : ∀ n, ∀ s ∈ pool p n, 0 ∉ s.chars

/-- The state of an input of the provider `p`: an entry of the containers is empty, or has the
first keys of the pool. -/
structure OwnContainers (p : π) (s : InputProvider κ π × Nat) : Prop where
  lists : (keyTable p).Sound (s.1.keyProvider, s.2)
  containers : ∀ n : UInt32, Supplies p n →
    s.1.containerCache (packed n (KeysProvider.getKeyLen p)) = .nil ∨
      HoldsKeys (s.1.containerCache (packed n (KeysProvider.getKeyLen p))) (pool p n.toNat)

theorem ownContainers_new {p : π} (fresh : ∀ r, stored p r = []) (draws : Nat) :
    OwnContainers p ((.new p : InputProvider κ π), draws) where
  lists := sound_of_fresh fresh draws
  containers _ _ := .inl rfl

theorem OwnContainers.getKeys {p : π} {s : InputProvider κ π × Nat} (h : OwnContainers p s)
    (env : Environment) {r : Request} (served : Supplies p r.keysNum) :
    ∃ keys input draws,
      s.1.getKeys env s.2 r.keysNum r.use = .ok (keys, input, draws) ∧
      keys.Perm (pool p r.keysNum.toNat) ∧ OwnContainers p (input, draws) := by
  obtain ⟨⟨q, draws⟩, run, answered⟩ :=
    request_implements env p (s.1.keyProvider, s.2) r h.lists.inv served
  have sound := answered.sound h.lists
  rw [request, Traced.value_ofExcept] at run
  exact ⟨_, ⟨q, s.1.containerCache⟩, draws, InputProvider.getKeys_of_ok run,
    sound.correct r answered.complete served, sound, h.containers⟩

theorem OwnContainers.store {p q : π} {cache : Cache (SearchTree κ)} {draws : Nat}
    (h : OwnContainers p (⟨q, cache⟩, draws)) {n : UInt32} {t : SearchTree κ}
    (holds : Supplies p n → HoldsKeys t (pool p n.toNat)) :
    OwnContainers p
      (⟨q, Function.update cache (packed n (KeysProvider.getKeyLen p)) t⟩, draws) where
  lists := h.lists
  containers m served := by
    dsimp only
    by_cases same : m = n
    · subst same
      rw [Function.update_self]
      exact .inr (holds served)
    · rw [Function.update_of_ne fun equal => same (packed_inj.mp equal).1]
      exact h.containers m served

theorem OwnContainers.containerKey_eq {p : π} {s : InputProvider κ π × Nat}
    (h : OwnContainers p s) (n : UInt64) :
    s.1.containerKey n = packed n.toUInt32 (KeysProvider.getKeyLen p) := by
  have same : KeysProvider.getKeyLen s.1.keyProvider = KeysProvider.getKeyLen p :=
    h.lists.inv.getKeyLen_eq
  rw [Bench.containerKey_eq, same]

theorem OwnContainers.hit {p : π} {s : InputProvider κ π × Nat} (h : OwnContainers p s)
    {n : UInt64} (small : n.toNat < 2 ^ 32) (served : Supplies p n.toUInt32)
    (size : (s.1.containerCache (s.1.containerKey n)).size = n.toNat) :
    HoldsKeys (s.1.containerCache (s.1.containerKey n)) (pool p n.toNat) := by
  have length := length_pool p n.toUInt32 served
  rw [h.containerKey_eq] at size ⊢
  rw [toNat_toUInt32_of_lt small] at length
  rcases h.containers n.toUInt32 served with empty | holds
  · rw [empty] at size ⊢
    have none : pool p n.toNat = [] := by
      rw [← List.length_eq_zero_iff, length, ← size]
      rfl
    rw [none]
    exact holdsKeys_nil
  · rwa [toNat_toUInt32_of_lt small] at holds

/-- A size that fits into 32 bits keeps its value, and `get_container` returns a container of
the first keys. -/
theorem OwnContainers.getContainer {p : π} {s : InputProvider κ π × Nat}
    (h : OwnContainers p s) (clean : CleanPool p) (env : Environment) {n : UInt64}
    (small : n.toNat < 2 ^ 32) (served : Supplies p n.toUInt32) :
    FullWidth env s.1 s.2 n ∧
    ∃ t input draws, (s.1.getContainer env s.2 n).value = .ok (t, input, draws) ∧
      HoldsKeys t (pool p n.toNat) ∧ OwnContainers p (input, draws) := by
  by_cases size : (s.1.containerCache (s.1.containerKey n)).size = n.toNat
  · refine ⟨fun miss => absurd size miss, _, s.1, s.2, ?_, h.hit small served size, h⟩
    rw [getContainer_hit env s.2 size, Traced.value_ok]
  · have narrow := toNat_toUInt32_of_lt small
    obtain ⟨keys, filled, draws, gotten, perm, h'⟩ :=
      h.getKeys env (r := ⟨n.toUInt32, .buildContainer⟩) served
    rw [narrow] at perm
    have length : keys.length = n.toNat := by
      rw [perm.length_eq, ← narrow, length_pool p _ served]
    have nil : s.1.containerCache (s.1.containerKey n) = .nil := by
      rcases h.containers n.toUInt32 served with empty | holds
      · rwa [h.containerKey_eq]
      · rw [← h.containerKey_eq, narrow] at holds
        refine absurd ?_ size
        rw [holds.size_eq (clean.nodup _), ← narrow, length_pool p _ served]
    have empty : (s.1.containerCache (s.1.containerKey n)).size = 0 := by rw [nil]; rfl
    obtain ⟨t, inserted, holds⟩ := value_insertThrough_nil (κ := κ) env.balance
      fun s hs => clean.nulFree _ s (perm.mem_iff.mp hs)
    have stored := holds.perm perm
    have filledSize : t.size = n.toNat := by
      rw [holds.size_eq (perm.nodup_iff.mpr (clean.nodup _)), length]
    rw [← nil, ← List.take_length (l := keys), length] at inserted
    refine ⟨fun _ => ⟨empty, keys, filled, draws, t, gotten, length.ge, inserted, filledSize⟩,
      t, _, draws,
      value_getContainer_miss env size empty gotten length.ge inserted filledSize, stored, ?_⟩
    rw [h.containerKey_eq]
    exact h'.store fun _ => by rwa [narrow]

/-- Admissible calls succeed and keep the invariant, over any history. -/
theorem OwnContainers.run {p : π} {s : InputProvider κ π × Nat} (h : OwnContainers p s)
    (clean : CleanPool p) (env : Environment) (calls : List InputCall)
    (admissible : ∀ c ∈ calls, Admissible p c) :
    ∃ results last, (Traced.run (inputCall env) s calls).value = .ok (results, last) ∧
      OwnContainers p last := by
  refine Traced.run_keeps ?_ h calls admissible
  rintro s c h legal
  cases c with
  | getKeys r =>
      obtain ⟨keys, input, draws, gotten, -, h'⟩ := h.getKeys env legal
      refine ⟨.keys keys, (input, draws), ?_, h'⟩
      rw [inputCall, gotten]
      rfl
  | getContainer n =>
      obtain ⟨-, t, input, draws, run, -, h'⟩ := h.getContainer clean env legal.1 legal.2
      refine ⟨.container t, (input, draws), ?_, h'⟩
      rw [inputCall, Traced.value_bind_of_eq run]
      rfl

theorem OwnContainers.of_getKeys {p : π} {s : InputProvider κ π × Nat} (h : OwnContainers p s)
    {env : Environment} {r : Request} {keys : List StdString} {input : InputProvider κ π}
    {draws : Nat} (run : s.1.getKeys env s.2 r.keysNum r.use = .ok (keys, input, draws)) :
    OwnContainers p (input, draws) := by
  rw [InputProvider.getKeys] at run
  cases answer : KeysProvider.getKeys env s.1.keyProvider s.2 r.keysNum r.use with
  | error reason =>
      rw [answer] at run
      cases run
  | ok returned =>
      obtain ⟨keys', q, draws'⟩ := returned
      rw [answer] at run
      cases run
      rcases getKeys_cases answer with ⟨-, -, rfl, rfl⟩ | ⟨-, served, -⟩
      · exact h
      · rw [h.lists.inv.supplies_eq] at served
        obtain ⟨keys', input', draws', run, -, h'⟩ := h.getKeys env served
        rw [InputProvider.getKeys_of_ok answer] at run
        cases run
        exact h'

theorem OwnContainers.of_getContainer {p : π} {s : InputProvider κ π × Nat}
    (h : OwnContainers p s) (clean : CleanPool p) {env : Environment} {n : UInt64}
    {t : SearchTree κ} {input : InputProvider κ π} {draws : Nat} {log : List Effect}
    (run : s.1.getContainer env s.2 n = .ok (t, input, draws) log) :
    OwnContainers p (input, draws) := by
  by_cases served : Supplies p n.toUInt32
  · rcases getContainer_cases run with ⟨-, -, rfl, rfl, -⟩ | ⟨-, keys, filled, gotten, enough, -⟩
    · exact h
    · -- The list that is fetched has the size modulo `2^32`, so the size fits.
      obtain ⟨keys', input', draws', gotten', perm, -⟩ :=
        h.getKeys env (r := ⟨n.toUInt32, .buildContainer⟩) served
      rw [gotten] at gotten'
      cases gotten'
      rw [perm.length_eq, length_pool p _ served] at enough
      have small : n.toNat < 2 ^ 32 := Nat.lt_of_le_of_lt enough (UInt32.toNat_lt _)
      obtain ⟨-, t', input', draws', run', -, h'⟩ := h.getContainer clean env small served
      rw [run, Traced.value_ok] at run'
      cases run'
      exact h'
  · rcases getContainer_cases run with
      ⟨-, -, rfl, rfl, -⟩ | ⟨-, keys, filled, gotten, -, -, rfl⟩
    · exact h
    · rw [h.containerKey_eq]
      exact (h.of_getKeys (r := ⟨n.toUInt32, .buildContainer⟩) gotten).store
        fun served' => absurd served' served

/-- Over any history of calls that returned, the containers are the input's own. -/
theorem OwnContainers.of_run {p : π} {s last : InputProvider κ π × Nat} (h : OwnContainers p s)
    (clean : CleanPool p) {env : Environment} {calls : List InputCall}
    {results : List (InputResult κ)}
    (run : (Traced.run (inputCall env) s calls).value = .ok (results, last)) :
    OwnContainers p last := by
  obtain ⟨log, ran⟩ := Traced.value_eq_ok.mp run
  refine Traced.run_preserves ?_ h ran
  intro s call result next log h step
  cases call with
  | getKeys r =>
      obtain ⟨⟨keys, input, draws⟩, gotten, rest⟩ := Traced.ofExcept_bind_eq_ok.mp step
      cases rest
      exact h.of_getKeys gotten
  | getContainer n =>
      obtain ⟨⟨t, input, draws⟩, first, second, fetched, rest, -⟩ := Traced.bind_eq_ok.mp step
      cases rest
      exact h.of_getContainer clean fetched

/-! ## No width loss -/

/-- A size that keeps its value fits into 32 bits: the entry that is looked up, and the list
that is fetched, have the size modulo `2^32`. -/
theorem OwnContainers.small_of_fullWidth {p : π} {s : InputProvider κ π × Nat}
    (h : OwnContainers p s) (clean : CleanPool p) {env : Environment} {n : UInt64}
    (served : Supplies p n.toUInt32) (full : FullWidth env s.1 s.2 n) : n.toNat < 2 ^ 32 := by
  have narrow : n.toUInt32.toNat = n.toNat % 2 ^ 32 := UInt64.toNat_toUInt32 n
  by_cases size : (s.1.containerCache (s.1.containerKey n)).size = n.toNat
  · rw [h.containerKey_eq] at size
    rcases h.containers n.toUInt32 served with empty | holds
    · rw [empty, SearchTree.size] at size
      omega
    · rw [holds.size_eq (clean.nodup _), length_pool p _ served, narrow] at size
      omega
  · obtain ⟨-, keys, filled, draws, t, gotten, enough, -⟩ := full size
    obtain ⟨keys', input, draws', gotten', perm, -⟩ :=
      h.getKeys env (r := ⟨n.toUInt32, .buildContainer⟩) served
    rw [gotten] at gotten'
    cases gotten'
    rw [perm.length_eq, length_pool p _ served, narrow] at enough
    omega

theorem RandKeysProvider.cleanPool (p : RandKeysProvider) : CleanPool p where
  nodup _ := List.nodup_range.map (getSeqStr_injective p.keyLen.toNat p.extraLen.toNat)
  nulFree n s hs := by
    obtain ⟨seq, -, rfl⟩ := List.mem_map.mp hs
    exact nulFree_getSeqStr _ _ seq

/-- No width is lost in a history of calls on one random provider exactly if all containers
that are requested have sizes below `2^32`: then at each request, in the state reached by then,
the size keeps its value, and different sizes have different cache keys. -/
theorem no_width_loss_iff (κ : Type) [KeyType κ] (env : Environment) (keyLen extraLen : UInt32)
    (draws : Nat) (calls : List InputCall) :
    ((∀ before n after, calls = before ++ .getContainer n :: after →
        ∃ results input draws',
          (Traced.run (inputCall env)
            ((.new { keyLen, extraLen } : InputProvider κ RandKeysProvider), draws) before).value =
              .ok (results, input, draws') ∧
          FullWidth env input draws' n) ∧
      (∀ n m, .getContainer n ∈ calls → .getContainer m ∈ calls → n ≠ m →
        (.new { keyLen, extraLen } : InputProvider κ RandKeysProvider).containerKey n ≠
          (.new { keyLen, extraLen } : InputProvider κ RandKeysProvider).containerKey m)) ↔
      ∀ n, .getContainer n ∈ calls → n.toNat < 2 ^ 32 := by
  have clean := RandKeysProvider.cleanPool { keyLen, extraLen }
  have start : OwnContainers ({ keyLen, extraLen } : RandKeysProvider)
      ((.new { keyLen, extraLen } : InputProvider κ RandKeysProvider), draws) :=
    ownContainers_new (fun r => KeyCaches.entry_new r.use _) draws
  have reach : ∀ before : List InputCall, (∀ n, .getContainer n ∈ before → n.toNat < 2 ^ 32) →
      ∃ results last, (Traced.run (inputCall env)
        ((.new { keyLen, extraLen } : InputProvider κ RandKeysProvider), draws) before).value =
          .ok (results, last) ∧ OwnContainers ({ keyLen, extraLen } : RandKeysProvider) last := by
    intro before small
    refine start.run clean env before fun c hc => ?_
    cases c with
    | getKeys r => exact trivial
    | getContainer n => exact ⟨small n hc, trivial⟩
  constructor
  · rintro ⟨full, -⟩
    induction calls using List.reverseRecOn with
    | nil => exact fun _ h => absurd h List.not_mem_nil
    | append_singleton calls c ih =>
        have small := ih fun before n after split =>
          full before n (after ++ [c]) (by rw [split, List.append_assoc, List.cons_append])
        intro n hn
        rcases List.mem_append.mp hn with earlier | last
        · exact small n earlier
        · obtain rfl := List.mem_singleton.mp last
          obtain ⟨results, state, run, own⟩ := reach calls small
          obtain ⟨results', input, draws', run', fullWidth⟩ := full calls n [] rfl
          rw [run] at run'
          cases run'
          exact own.small_of_fullWidth clean trivial fullWidth
  · intro small
    constructor
    · rintro before n after rfl
      obtain ⟨results, ⟨input, draws'⟩, run, own⟩ :=
        reach before fun m hm => small m (List.mem_append_left _ hm)
      have bound := small n (List.mem_append_right _ List.mem_cons_self)
      exact ⟨results, input, draws', run, (own.getContainer clean env bound trivial).1⟩
    · intro n m hn hm other same
      exact other (injOn_containerKey _ (small n hn) (small m hm) same)

/-- A container of `2^32` keys: no key is fetched, the range to copy is out of bounds, and the
cache key is that of the empty container. -/
theorem width_lost_at_two_pow_32 :
    ¬ FullWidth .plain
      (.new { keyLen := 5, extraLen := 0 } :
        InputProvider (Keydomet StdString .size32bit) RandKeysProvider) 0 4294967296 ∧
    (.new { keyLen := 5, extraLen := 0 } :
      InputProvider (Keydomet StdString .size32bit) RandKeysProvider).getContainer .plain 0
        4294967296 = .fault .outOfBounds ∧
    (.new { keyLen := 5, extraLen := 0 } :
      InputProvider (Keydomet StdString .size32bit) RandKeysProvider).containerKey 4294967296 =
    (.new { keyLen := 5, extraLen := 0 } :
      InputProvider (Keydomet StdString .size32bit) RandKeysProvider).containerKey 0 := by
  refine ⟨fun full => ?_, rfl, rfl⟩
  obtain ⟨-, keys, filled, draws, t, gotten, enough, -⟩ := full (by decide)
  cases gotten
  exact absurd enough (by decide)

end Kdmt.Bench

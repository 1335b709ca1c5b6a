import Keydomet.Bench.Hits
import Keydomet.Bench.UseRate
import Keydomet.Lib.StringComparisons

/-!
# What the reported numbers leave out

The counters that `keydomet_bench` reads belong to the class of the elements. They miss one
comparison of each lookup and each deletion, the last one, unless the key is after all elements;
and they count the comparisons that build the container (`use_rate_accounting`).

In full passes of lookups over sequential keys that differ in their prefixes, each hit whose key
fills the prefix compares strings twice, once on the way, and once in that last comparison: the
counters report half of the string comparisons (`full_passes_compare_strings`).
-/

namespace Kdmt

open Foundation

variable {N : PrefixSize}

def Effect.missedBy (cls : KeydometClass) (e : Effect) : Bool :=
  e.isComparison && !e.countedBy cls

@[simp] theorem missedBy_increment (cls c : KeydometClass) (counter : Counter) :
    (Effect.increment c counter).missedBy cls = !(c == cls) := rfl

theorem missedBy_eq_false {cls : KeydometClass} {e : Effect} (silent : e.isComparison = false) :
    e.missedBy cls = false := by
  rw [Effect.missedBy, silent, Bool.false_and]

theorem OnlyCountedBy.missedBy_eq_false {cls : KeydometClass} {e : Effect}
    (only : OnlyCountedBy cls e) : e.missedBy cls = false := by
  cases comparison : e.isComparison with
  | true => rw [Effect.missedBy, only comparison, Bool.not_true, Bool.and_false]
  | false => exact Kdmt.missedBy_eq_false comparison

theorem countP_isComparison (cls : KeydometClass) (log : List Effect) :
    log.countP Effect.isComparison =
      log.countP (Effect.countedBy cls) + log.countP (Effect.missedBy cls) := by
  induction log with
  | nil => rfl
  | cons e log ih =>
      rw [List.countP_cons, List.countP_cons, List.countP_cons, ih]
      cases e with
      | read operand position => rfl
      | increment c counter =>
          have one : (Effect.increment c counter).isComparison = true := rfl
          have counted : (Effect.increment c counter).countedBy cls = (c == cls) := rfl
          rw [one, counted, missedBy_increment]
          cases c == cls <;> simp <;> omega

namespace KeydometSet

variable {t : KeydometSet N} {s : Finset StdString}

instance (s : Finset StdString) : DecidablePred (PastEnd s)
  | .insert _ => isTrue trivial
  | .find _ | .erase _ => inferInstanceAs (Decidable (∀ _ ∈ _, _))

/-- An operation misses one comparison, unless it is an insertion or its key is after all
elements. -/
theorem Implements.searchCounts_missed (h : Implements t s) (B : Balance) (op : SetOp StdString) :
    SearchCounts (Effect.missedBy (elementClass N)) B t
      (if PastEnd s (op.map cPart) then 0 else 1) op := by
  cases op with
  | insert k =>
      apply Traced.Counts.of_emits
      refine Traced.Emits.mono ?_ fun _ => OnlyCountedBy.missedBy_eq_false
      exact SearchTree.emits_insertUnique B _ (fun x _ => Keydomet.emits_lt x _)
        fun x _ => Keydomet.emits_lt _ x
  | find k | erase k =>
      have valid := Keydomet.mkValid_valid N (StdStringRef.mk k)
      refine h.represents.counts_find_right (h.probes k) (fun y hy => ?_) fun y hy => ?_
      · exact (Keydomet.counts_lt (fun _ => missedBy_eq_false) (h.valid y hy) valid).congr
          (by simp [elementClass, StrImp.id])
      · exact (Keydomet.counts_lt (fun _ => missedBy_eq_false) valid (h.valid y hy)).congr
          (by simp [elementClass, StrImp.id])

/-- Over a run of operations, one comparison of each lookup and deletion is missed, unless its
key is after all strings in the set at that time. -/
theorem Implements.run_missed (h : Implements t s) (B : Balance) (ops : List (SetOp StdString)) :
    ∃ observations last log,
      Traced.run (step B) t ops = .ok (observations, last) log ∧
      log.countP (Effect.missedBy (elementClass N)) =
        Traced.total (fun s op => if PastEnd s op then 0 else 1) SetModel.next s
          (ops.map (SetOp.map cPart)) := by
  obtain ⟨observations, last, log, run, count⟩ := h.run_counts (r := Eq) (K := Set.univ) rfl
    (fun _ _ _ _ => congrArg₂ (· + ·)) (fun _ : Unit => Effect.missedBy (elementClass N))
    (fun _ s op => if PastEnd s op then 0 else 1) (fun _ t s op h _ _ =>
      ⟨_, h.searchCounts_missed B op, by
        rw [Keydomet.countP_constructionReads fun _ => rfl, Nat.zero_add]⟩)
    (fun _ _ => trivial) ops fun _ _ => trivial
  exact ⟨observations, last, log, run, count ()⟩

end KeydometSet

namespace Bench

open KeydometSet ListedKeys

variable {π : Type} [KeysProvider π]

/-- Filling a container has the effects of building keys and of comparing them. -/
theorem emits_insertThrough {κ : Type} [KeyType κ] {P : Effect → Prop}
    (builds : ∀ s, (KeyType.ofString s : Code κ).Emits P)
    (nodeLess : ∀ x y : κ, ((KeyType.comparison y).nodeLess x).Emits P)
    (keyLess : ∀ x y : κ, ((KeyType.comparison y).keyLess x).Emits P) (B : Balance)
    (t : SearchTree κ) (hint : Nat) (strs : List StdString) :
    (insertThrough B t hint strs).Emits P := by
  induction strs generalizing t hint with
  | nil => exact .pure _
  | cons str strs ih =>
      rw [insertThrough]
      refine (builds str).bind fun item _ => ?_
      refine Traced.Emits.bind ?_ fun _ _ => ih _ _
      exact SearchTree.emits_insertHint B hint item (fun x _ => nodeLess x item)
        fun x _ => keyLess x item

theorem emits_insertThrough_keydomet (B : Balance) (t : KeydometSet N) (hint : Nat)
    (strs : List StdString) :
    (insertThrough B t hint strs).Emits (OnlyCountedBy (elementClass N)) := by
  apply emits_insertThrough
  · exact fun s => (Keydomet.emits_ofStr (terminated_stdString s)).mono fun _ => .of_silent
  · exact fun x y => Keydomet.emits_lt x y
  · exact fun x y => Keydomet.emits_lt y x

theorem emits_prepare (env : Environment) (containerSize opKeysNum : Int64)
    (input : InputProvider (Keydomet StdString N) π) (draws : Nat) :
    (prepare env containerSize opKeysNum input draws).Emits
      (OnlyCountedBy (elementClass N)) := by
  rw [prepare]
  refine Traced.Emits.bind ?_ fun _ _ => ?_
  · rintro ⟨container, input', draws'⟩ log run
    rcases getContainer_inversion run with ⟨-, -, rfl⟩ | ⟨-, -, filled⟩
    · simp
    · exact emits_insertThrough_keydomet env.balance _ 0 _ _ _ filled
  · intro result log run
    obtain ⟨_, -, rest⟩ := Traced.ofExcept_bind_eq_ok.mp run
    cases rest
    simp

/-- The comparisons of the loop that are missed, from a container of these strings: one for each
lookup and deletion whose key is not after all strings at that time. -/
def missedLookups (opsMix : Ops) (opKeys : List StdString) (iterations : Nat)
    (s : Finset StdString) : Nat :=
  Traced.total (fun s op => if PastEnd s op then 0 else 1) SetModel.next s
    ((loopOperations opsMix opKeys iterations 0).map (SetOp.map cPart))

/-- What the two counter differences count, in every run of the benchmark: the comparisons that
build the container and those of the loop, less one for each lookup and deletion whose key is
not after all strings in the container at that time. -/
theorem use_rate_accounting (env : Environment) (opsMix : Ops) (iterations : Nat)
    (containerSize opKeysNum : Int64) (input : InputProvider (Keydomet StdString N) π)
    (draws : Nat) (cached : ∃ s, Implements (cacheEntry input containerSize.toUInt64) s)
    {container : KeydometSet N} {opKeys : List StdString}
    {input' : InputProvider (Keydomet StdString N) π} {draws' : Nat} {setup : List Effect}
    (prepared : prepare env containerSize opKeysNum input draws =
      .ok (container, opKeys, input', draws') setup)
    (nonempty : opKeys ≠ []) :
    ∃ final loop,
      timedLoop env.balance opsMix opKeys iterations { container, ops := 0, found := 0 } =
        .ok final loop ∧
      keydometBench env opsMix iterations containerSize opKeysNum input draws =
        .ok final (setup ++ loop) ∧
      (countedComparisons N (setup ++ loop)).length +
          missedLookups opsMix opKeys iterations
            (startingStrings env input draws containerSize.toUInt64) =
        setup.countP Effect.isComparison + loop.countP Effect.isComparison := by
  obtain ⟨s, cached⟩ := cached
  have start : Implements container (startingStrings env input draws containerSize.toUInt64) := by
    have fetch := prepared
    rw [prepare] at fetch
    obtain ⟨⟨_, _, _⟩, first, second, fetched, rest, -⟩ := Traced.bind_eq_ok.mp fetch
    obtain ⟨⟨_, _, _⟩, -, rest⟩ := Traced.ofExcept_bind_eq_ok.mp rest
    cases rest
    exact getContainer_implements fetched cached
  obtain ⟨observations, last, loop, run, missed⟩ :=
    start.run_missed env.balance (loopOperations opsMix opKeys iterations 0)
  have performed : timedLoop env.balance opsMix opKeys iterations ⟨container, 0, 0⟩ =
      .ok (.afterRun iterations (observations, last)) loop := by
    rw [timedLoop_eq_run env.balance opsMix nonempty, run, Traced.map_ok]
  refine ⟨_, loop, performed, ?_, ?_⟩
  · rw [keydometBench, prepared, Traced.ok_bind]
    exact congrArg (Traced.after setup) performed
  · have silent : setup.countP (Effect.missedBy (elementClass N)) = 0 := by
      rw [List.countP_eq_zero]
      intro e he
      rw [(emits_prepare env containerSize opKeysNum input draws _ _ prepared
        e he).missedBy_eq_false]
      exact Bool.false_ne_true
    rw [missedLookups, ← missed, countedComparisons, ← List.countP_eq_length_filter,
      List.countP_append, countP_isComparison (elementClass N) setup, silent,
      countP_isComparison (elementClass N) loop]
    omega

/-- A single lookup of "a" in a container of two keys that has to be built: the comparison that
builds it makes up for the one that is missed. -/
theorem use_rate_accounting_cold :
    ∃ container opKeys setup final loop,
      timedLoop Environment.plain.balance .lookups opKeys 1
        { container, ops := 0, found := 0 } = .ok final loop ∧
      keydometBench .plain .lookups 1 2 1 coldInput 0 = .ok final (setup ++ loop) ∧
      (countedComparisons .size16bit (setup ++ loop)).length +
          missedLookups .lookups opKeys 1 (startingStrings .plain coldInput 0 2) =
        setup.countP Effect.isComparison + loop.countP Effect.isComparison := by
  obtain ⟨final, loop, run, bench, balance⟩ :=
    use_rate_accounting .plain .lookups 1 2 1 coldInput 0 ⟨∅, implements_nil⟩ rfl (by decide)
  exact ⟨_, _, _, final, loop, run, bench, balance⟩

/-! ## Full passes over sequential keys -/

/-- The first number whose key fills the prefix. -/
def fillFrom (N : PrefixSize) (extraLen : Nat) : Nat :=
  if N.toNat ≤ extraLen then 0 else charRange ^ (N.toNat - extraLen - 1)

theorem fillFrom_le_iff {len extraLen seq : Nat} :
    fillFrom N extraLen ≤ seq ↔ N.toNat ≤ (getSeqStr len extraLen seq).chars.length := by
  rw [chars_getSeqStr, List.length_append, List.length_replicate, fillFrom]
  split
  next filled => exact iff_of_true (Nat.zero_le _) (filled.trans (Nat.le_add_left _ _))
  next short =>
    rw [← Nat.not_lt, ← length_seqDigits_le_iff]
    omega

theorem filter_take_getSeqStr {len extraLen seq : Nat} (fits : seq < charRange ^ N.toNat) :
    ((getSeqStr len extraLen seq).chars.take N.toNat).filter (· ≠ fillerChar) = seqDigits seq := by
  have short := length_seqDigits_le_iff.mpr fits
  have letters : (seqDigits seq).filter (· ≠ fillerChar) = seqDigits seq := by
    rw [List.filter_eq_self]
    intro c hc
    apply decide_eq_true
    rintro rfl
    exact fillerChar_notMem_seqDigits seq hc
  rw [chars_getSeqStr, List.take_append, List.take_of_length_le short, List.filter_append, letters,
    List.take_replicate]
  simp

/-- Keys with few enough numbers have different prefixes. -/
theorem separated_getSeqStr (N : PrefixSize) (len extraLen : Nat) :
    Separated N {k | ∃ seq < charRange ^ N.toNat, getSeqStr len extraLen seq = k} := by
  rintro _ ⟨seq, fits, rfl⟩ _ ⟨seq', fits', rfl⟩ shared
  have letters : seqDigits seq = seqDigits seq' := by
    rw [← @filter_take_getSeqStr _ len extraLen _ fits, shared.2.2, filter_take_getSeqStr fits']
  rw [seqDigits_injective letters]

theorem countP_range (n m c : Nat) :
    (List.range m).countP (fun i => decide (i < n ∧ c ≤ i)) = min n m - c := by
  induction m with
  | zero => simp
  | succ m ih =>
      rw [List.range_succ, List.countP_append, ih, List.countP_singleton]
      split
      next counted =>
        have := of_decide_eq_true counted
        omega
      next other =>
        have := of_decide_eq_false (Bool.eq_false_iff.mpr other)
        omega

theorem countP_filledHit (len extraLen n : Nat) {m : Nat} {opKeys : List StdString}
    (perm : opKeys.Perm ((List.range m).map (getSeqStr len extraLen))) :
    opKeys.countP (fun k => decide (FilledHit N
      ((List.range n).map (getSeqStr len extraLen)).toFinset k)) =
      min n m - fillFrom N extraLen := by
  rw [perm.countP_eq, List.countP_map, ← countP_range]
  congr 1
  funext seq
  refine decide_eq_decide.mpr (and_congr ?_ fillFrom_le_iff.symm)
  rw [List.mem_toFinset, List.mem_map_of_injective (getSeqStr_injective len extraLen),
    List.mem_range]

section Lookups

variable {opKeys : List StdString}

theorem mem_loopOperations_lookups {iterations : Nat} {ops : UInt64} {op : SetOp StdString}
    (h : op ∈ loopOperations .lookups opKeys iterations ops) : op = .find op.key := by
  induction iterations generalizing ops with
  | zero => exact absurd h List.not_mem_nil
  | succ iterations ih =>
      rw [loopOperations] at h
      cases here : opKeys[ops.toNat % opKeys.length]? with
      | none =>
          rw [here] at h
          exact absurd h List.not_mem_nil
      | some opKey =>
          rw [here] at h
          rcases List.mem_cons.mp h with rfl | later
          · rfl
          · exact ih later

/-- The lookups of a loop whose keys pass a test, as long as the counter does not wrap around. -/
theorem countP_loopOperations_lookups (nonempty : opKeys ≠ []) (P : StdString → Bool)
    (iterations : Nat) (ops : UInt64) (bound : ops.toNat + iterations < 2 ^ 64) :
    (loopOperations .lookups opKeys iterations ops).countP (fun op => P op.key) =
      Nat.count (fun i => (opKeys[(ops.toNat + i) % opKeys.length]?).any P) iterations := by
  induction iterations generalizing ops with
  | zero => rfl
  | succ iterations ih =>
      obtain ⟨opKey, here⟩ := getElem?_mod_eq_some nonempty ops
      have next : (ops + 1).toNat = ops.toNat + 1 := by
        rw [UInt64.toNat_add]
        exact Nat.mod_eq_of_lt (by simpa using (by omega : ops.toNat + 1 < 2 ^ 64))
      rw [loopOperations, here, Nat.count_succ', List.countP_cons, ih (ops + 1) (by omega), next,
        key_operation]
      simp only [Nat.add_zero, here, Option.any_some, Nat.add_assoc, Nat.add_comm 1]

theorem countP_full_passes (nonempty : opKeys ≠ []) (P : StdString → Bool)
    {iterations : UInt64} {q : Nat} (passes : iterations.toNat = q * opKeys.length) :
    (loopOperations .lookups opKeys iterations.toNat 0).countP (fun op => P op.key) =
      q * opKeys.countP P := by
  rw [countP_loopOperations_lookups nonempty P _ 0 (by simpa using iterations.toNat_lt), passes,
    ← count_cyclic]
  simp only [UInt64.toNat_zero, Nat.zero_add]

end Lookups

/-- The string comparisons of full lookup passes, in a container of the first keys. -/
theorem timedLoop_compares_strings (B : Balance) {t : KeydometSet N} {len extraLen n m : Nat}
    (few : max n m ≤ charRange ^ N.toNat)
    (h : Implements t ((List.range n).map (getSeqStr len extraLen)).toFinset)
    {opKeys : List StdString} (nonempty : opKeys ≠ [])
    (perm : opKeys.Perm ((List.range m).map (getSeqStr len extraLen))) {iterations : UInt64}
    {q : Nat} (passes : iterations.toNat = q * m) :
    ∃ final loop,
      timedLoop B .lookups opKeys iterations.toNat { container := t, ops := 0, found := 0 } =
        .ok final loop ∧
      ∀ cls, loop.count (.increment cls .usedString) =
        ((if cls = elementClass N then 1 else 0) +
          if cls = ⟨.constStdStringRef, N⟩ then 1 else 0) *
            (q * (min n m - fillFrom N extraLen)) := by
  have first : ∀ {size : Nat}, size ≤ max n m →
      ∀ k ∈ (List.range size).map (getSeqStr len extraLen),
        0 ∉ k.chars ∧ ∃ seq < charRange ^ N.toNat, getSeqStr len extraLen seq = k := by
    intro size le k hk
    obtain ⟨seq, bound, rfl⟩ := List.mem_map.mp hk
    have small := List.mem_range.mp bound
    exact ⟨nulFree_getSeqStr _ _ _, seq, by omega, rfl⟩
  have opKey : ∀ op ∈ loopOperations .lookups opKeys iterations.toNat 0,
      cPart op.key = op.key ∧ ∃ seq < charRange ^ N.toNat, getSeqStr len extraLen seq = op.key := by
    intro op hop
    obtain ⟨nulFree, key⟩ := first (Nat.le_max_right n m) op.key
      (perm.mem_iff.mp (key_mem_of_mem_loopOperations hop))
    exact ⟨cPart_of_nulFree nulFree, key⟩
  have same : (loopOperations .lookups opKeys iterations.toNat 0).map (SetOp.map cPart) =
      loopOperations .lookups opKeys iterations.toNat 0 := by
    rw [List.map_congr_left, List.map_id]
    intro op hop
    rw [mem_loopOperations_lookups hop, SetOp.map, (opKey op hop).1, id]
  obtain ⟨observations, last, loop, run, count⟩ := string_comparisons_exact B
    (separated_getSeqStr N len extraLen) h
    (fun k hk => (first (Nat.le_max_left n m) k (List.mem_toFinset.mp hk)).2)
    (loopOperations .lookups opKeys iterations.toNat 0)
    fun op hop => by rw [(opKey op hop).1]; exact (opKey op hop).2
  refine ⟨.afterRun iterations.toNat (observations, last), loop, ?_, fun cls => ?_⟩
  · rw [timedLoop_eq_run B .lookups nonempty, run, Traced.map_ok]
  · rw [count, same, ← countP_filledHit len extraLen n perm, ← countP_full_passes nonempty]
    · apply Traced.total_of_fixed
      · intro op hop
        rw [mem_loopOperations_lookups hop]
        rfl
      · intro op hop
        rw [mem_loopOperations_lookups hop]
        rfl
    · rw [passes, perm.length_eq, List.length_map, List.length_range]

/-- String comparisons of full lookup passes, after any history of calls on an input of a random
provider: if there are at most `58 ^ N` keys for a prefix of `N` bytes, the loop increments each
of the two counters of string comparisons, that of the elements and that of the lookup keys, once
in every pass for each key that is in the container, is looked up, and fills the prefix. -/
theorem full_passes_compare_strings (N : PrefixSize) (env : Environment) (draws : Nat)
    {iterations : UInt64} {n m : UInt32} {q : Nat} (pos : 1 ≤ m)
    (passes : iterations.toNat = q * m.toNat) (keyLen extraLen : UInt32)
    (few : max n.toNat m.toNat ≤ charRange ^ N.toNat) (calls : List InputCall)
    {results : List (InputResult (Keydomet StdString N))}
    {input : InputProvider (Keydomet StdString N) RandKeysProvider} {draws' : Nat}
    (ran : (Traced.run (inputCall env) (.new { keyLen, extraLen }, draws) calls).value =
      .ok (results, input, draws')) :
    ∃ container opKeys input' draws'' setup final loop,
      prepare env n.toUInt64.toInt64 m.toUInt64.toInt64 input draws' =
        .ok (container, opKeys, input', draws'') setup ∧
      timedLoop env.balance .lookups opKeys iterations.toNat
        { container, ops := 0, found := 0 } = .ok final loop ∧
      loop.count (.increment ⟨.stdString, N⟩ .usedString) =
        q * (min n.toNat m.toNat - fillFrom N extraLen.toNat) ∧
      loop.count (.increment ⟨.constStdStringRef, N⟩ .usedString) =
        q * (min n.toNat m.toNat - fillFrom N extraLen.toNat) := by
  have pos' : m ≠ 0 := by
    rintro rfl
    exact absurd pos (by decide)
  have clean := RandKeysProvider.cleanPool { keyLen, extraLen }
  have own := (ownContainers_new (fun r => KeyCaches.entry_new r.use _) draws).of_run clean ran
  obtain ⟨t, input', draws'', prepared, holds, ran'⟩ := value_prepare clean own.lists env
    (n := n) rfl (UInt32.toUInt32_toUInt64 m) trivial trivial (clean.nodup _)
    (length_pool _ n trivial) (own.servesKeys trivial)
  have done := ran' .lookups iterations.toNat
  obtain ⟨nonempty, -⟩ := opKeys_spec clean done.lists trivial pos' done.complete
  have perm := stored_perm done.lists (r := ⟨m, .benchOps⟩) trivial done.complete
  obtain ⟨setup, prepared⟩ := Traced.value_eq_ok.mp prepared
  obtain ⟨final, loop, run, count⟩ := timedLoop_compares_strings env.balance few
    ⟨holds.holds.represents, holds.holds.wellBuilt⟩ nonempty perm passes
  refine ⟨t, _, input', draws'', setup, final, loop, prepared, run, ?_, ?_⟩
  · exact (count (elementClass N)).trans (by simp [elementClass])
  · exact (count ⟨.constStdStringRef, N⟩).trans (by simp [elementClass])

/-- One pass of two lookups in a container of two keys, the second of which fills the prefix. -/
theorem full_passes_compare_strings_two_keys :
    ∃ container opKeys input draws setup final loop,
      prepare .plain 2 2 (.new { keyLen := 1, extraLen := 1 } :
          InputProvider (Keydomet StdString .size16bit) RandKeysProvider) 0 =
        .ok (container, opKeys, input, draws) setup ∧
      timedLoop Environment.plain.balance .lookups opKeys 2
        { container, ops := 0, found := 0 } = .ok final loop ∧
      loop.count (.increment ⟨.stdString, .size16bit⟩ .usedString) = 1 ∧
      loop.count (.increment ⟨.constStdStringRef, .size16bit⟩ .usedString) = 1 := by
  have passes : (2 : UInt64).toNat = 1 * (2 : UInt32).toNat := by decide
  exact full_passes_compare_strings .size16bit .plain 0 (n := 2) (by decide) passes 1 1
    (by decide) [] rfl

end Bench

end Kdmt

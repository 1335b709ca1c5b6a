import Keydomet.Bench.Benchmarks
import Keydomet.Bench.Inputs
import Keydomet.Lib.Statistics

/-!
# What the reported use rate measures

The differences from which `keydomet_bench` computes the use rate count the comparisons
that are charged to the class of the elements, from before the container is fetched until
after the loop. They miss the comparisons of the loop that a lookup key makes from the
left, and include those that build a container which was not in the cache.

Both are decided exactly: the build is silent for at most one key, and a lookup or a
deletion makes no comparison from the left if its key is after all elements.
-/

namespace Kdmt.Bench

open Foundation KeydometSet

variable {N : PrefixSize}

/-- The comparisons that the two counter differences count. -/
def countedComparisons (N : PrefixSize) (log : List Effect) : List Effect :=
  log.filter (Effect.countedBy (elementClass N))

/-- The differences count every comparison of the loop once, and no other. -/
def MeasuresLoop (N : PrefixSize) (setup loop : List Effect) : Prop :=
  countedComparisons N (setup ++ loop) = loop.filter Effect.isComparison

instance (setup loop : List Effect) : Decidable (MeasuresLoop N setup loop) :=
  inferInstanceAs (Decidable (_ = _))

theorem isComparison_of_countedBy {cls : KeydometClass} {e : Effect}
    (h : e.countedBy cls = true) : e.isComparison = true := by
  cases e with
  | read op position => cases h
  | increment c counter => rfl

/-- The differences are right exactly if nothing before the loop is counted and everything in
it is. -/
theorem measuresLoop_iff {setup loop : List Effect} :
    MeasuresLoop N setup loop ↔
      (∀ e ∈ setup, ¬ e.countedBy (elementClass N) = true) ∧
        ∀ e ∈ loop, OnlyCountedBy (elementClass N) e := by
  have agree : (∀ e ∈ loop, OnlyCountedBy (elementClass N) e) →
      loop.filter (Effect.countedBy (elementClass N)) = loop.filter Effect.isComparison :=
    fun only => List.filter_congr fun e he =>
      Bool.eq_iff_iff.mpr ⟨isComparison_of_countedBy, only e he⟩
  rw [MeasuresLoop, countedComparisons, List.filter_append]
  constructor
  · intro same
    have only : ∀ e ∈ loop, OnlyCountedBy (elementClass N) e := by
      intro e he comparison
      have counted : e ∈ loop.filter Effect.isComparison := List.mem_filter.mpr ⟨he, comparison⟩
      rw [← same, ← List.filter_append] at counted
      exact (List.mem_filter.mp counted).2
    rw [agree only, List.append_left_eq_self] at same
    exact ⟨List.filter_eq_nil_iff.mp same, only⟩
  · rintro ⟨silent, only⟩
    rw [agree only, List.filter_eq_nil_iff.mpr silent, List.nil_append]

/-! ## The loop -/

/-- Every lookup and deletion of the loop has a key after all strings that are in the
container at that time, starting from the given strings. -/
def QuietLoop (opsMix : Ops) (opKeys : List StdString) :
    Nat → UInt64 → Finset StdString → Prop
  | 0, _, _ => True
  | iterations + 1, ops, present =>
      ∀ opKey ∈ opKeys[ops.toNat % opKeys.length]?,
        let op := (operation opsMix (ops + 1) opKey).map cPart
        PastEnd present op ∧
          QuietLoop opsMix opKeys iterations (ops + 1) (SetModel.next present op)

theorem timedLoop_onlyCountedBy_iff (B : Balance) (opsMix : Ops) {opKeys : List StdString}
    (nonempty : opKeys ≠ []) (iterations : Nat) {st : LoopState N} {s : Finset StdString}
    (h : Implements st.container s) :
    ∃ final log, timedLoop B opsMix opKeys iterations st = .ok final log ∧
      ((∀ e ∈ log, OnlyCountedBy (elementClass N) e) ↔
        QuietLoop opsMix opKeys iterations st.ops s) := by
  induction iterations generalizing st s with
  | zero => exact ⟨st, [], rfl, by simp [QuietLoop]⟩
  | succ iterations ih =>
      obtain ⟨opKey, here⟩ := getElem?_mod_eq_some nonempty st.ops
      obtain ⟨t', value, implements, -⟩ :=
        step_implements B h (operation opsMix (st.ops + 1) opKey)
      obtain ⟨first, run⟩ := Traced.value_eq_ok.mp value
      have body : ∃ found, iteration B opsMix opKeys st =
          .ok { container := t', ops := st.ops + 1, found } first := by
        rw [iteration, nextOpKey_eq here, pure_bind]
        simp only [Traced.pure_eq, Traced.ok_bind, run, Traced.after_ok, List.append_nil]
        exact ⟨_, rfl⟩
      obtain ⟨found, body⟩ := body
      have implements' :
        Implements ({ container := t', ops := st.ops + 1, found } : LoopState N).container _ :=
          implements
      obtain ⟨final, rest, runRest, restIff⟩ := ih implements'
      refine ⟨final, first ++ rest, ?_, ?_⟩
      · rw [timedLoop, body, Traced.ok_bind, runRest, Traced.after_ok]
      · rw [List.forall_mem_append, step_onlyCountedBy_iff B h _ run, restIff, QuietLoop, here]
        simp

/-! ## Before the loop -/

section Setup

variable {π : Type} [KeysProvider π]

theorem emits_insertThrough_single (B : Balance) (hint : Nat) (str : StdString) :
    (insertThrough (κ := Keydomet StdString N) B .nil hint [str]).Emits
      fun e => e.isComparison = false := by
  rw [insertThrough]
  refine (Keydomet.emits_ofStr (terminated_stdString str)).bind fun item _ => ?_
  exact .pure _

/-- Adding a key to a container with elements makes a comparison that is counted. -/
theorem performs_insertThrough (B : Balance) {t : KeydometSet N} (nonempty : t.toList ≠ [])
    (hint : Nat) (str : StdString) (strs : List StdString) :
    (insertThrough B t hint (str :: strs)).Performs
      fun e => e.countedBy (elementClass N) = true := by
  rw [insertThrough]
  refine .bind_right fun item _ => Traced.Performs.bind_left ?_ _
  exact SearchTree.performs_insertHint B hint item nonempty
    (fun x _ => Keydomet.performs_lt x item) fun x _ => Keydomet.performs_lt item x

theorem performs_insertThrough_nil (B : Balance) (hint : Nat) (str str' : StdString)
    (strs : List StdString) :
    (insertThrough (κ := Keydomet StdString N) B .nil hint (str :: str' :: strs)).Performs
      fun e => e.countedBy (elementClass N) = true := by
  rw [insertThrough]
  refine .bind_right fun item _ => .bind_right ?_
  rintro ⟨t', position, fresh⟩ inserted
  have contents : t'.toList = [item] := by
    obtain ⟨rfl, -, -⟩ := Prod.mk.inj (Except.ok.inj inserted)
    exact B.toList_afterInsert _
  exact performs_insertThrough B (by simp [contents]) _ str' strs

/-- `get_container` makes no comparison: the container is in the cache, or there is nothing
to insert, or a single key into an empty container. -/
def BuildsSilently (entry : KeydometSet N) (n : UInt64) : Prop :=
  entry.size = n.toNat ∨ n = 0 ∨ (entry.size = 0 ∧ n = 1)

/-- The keys that `get_container` would build a container from. -/
def buildKeys (env : Environment) (input : InputProvider (Keydomet StdString N) π) (draws : Nat)
    (n : UInt64) : List StdString :=
  match input.getKeys env draws n.toUInt32 .buildContainer with
  | .ok (keys, _) => keys.take n.toNat
  | .error _ => []

def cacheEntry (input : InputProvider (Keydomet StdString N) π) (n : UInt64) : KeydometSet N :=
  input.containerCache (input.containerKey n)

theorem getContainer_inversion {env : Environment}
    {input input' : InputProvider (Keydomet StdString N) π} {draws draws' : Nat} {n : UInt64}
    {container : KeydometSet N} {log : List Effect}
    (run : input.getContainer env draws n = .ok (container, input', draws') log) :
    ((cacheEntry input n).size = n.toNat ∧ container = cacheEntry input n ∧ log = []) ∨
      ((cacheEntry input n).size ≠ n.toNat ∧ (buildKeys env input draws n).length = n.toNat ∧
        insertThrough env.balance (cacheEntry input n) 0 (buildKeys env input draws n) =
          .ok container log) := by
  rcases getContainer_cases run with
    ⟨hit, rfl, -, -, rfl⟩ | ⟨miss, keys, filled, gotten, enough, inserted, -⟩
  · exact .inl ⟨hit, rfl, rfl⟩
  · have fetched : buildKeys env input draws n = keys.take n.toNat := by
      rw [buildKeys, gotten]
    rw [fetched]
    exact .inr ⟨miss, List.length_take_of_le enough, inserted⟩

/-- Fetching the container makes a counted comparison unless the build is silent. -/
theorem getContainer_uncounted_iff {env : Environment}
    {input input' : InputProvider (Keydomet StdString N) π} {draws draws' : Nat} {n : UInt64}
    {container : KeydometSet N} {log : List Effect}
    (run : input.getContainer env draws n = .ok (container, input', draws') log) :
    (∀ e ∈ log, ¬ e.countedBy (elementClass N) = true) ↔
      BuildsSilently (cacheEntry input n) n := by
  have counted : ∀ {x : Code (KeydometSet N)}, x = .ok container log →
      x.Performs (fun e => e.countedBy (elementClass N) = true) →
      ¬ ∀ e ∈ log, ¬ e.countedBy (elementClass N) = true := by
    intro x hx performs silent
    obtain ⟨e, he, count⟩ := performs _ _ hx
    exact silent e he count
  rcases getContainer_inversion run with ⟨hit, -, rfl⟩ | ⟨miss, length, filled⟩
  · exact iff_of_true (by simp) (.inl hit)
  · rw [BuildsSilently, or_iff_right miss, ← UInt64.toNat_inj, ← UInt64.toNat_inj, ← length]
    cases keys : buildKeys env input draws n with
    | nil =>
        rw [keys] at filled
        cases filled
        exact iff_of_true (by simp) (.inl rfl)
    | cons str strs =>
        rw [keys] at filled
        cases entry : cacheEntry input n with
        | node c l x r =>
            rw [entry] at filled
            refine iff_of_false (counted filled (performs_insertThrough _ (by simp) _ _ _)) ?_
            simp [SearchTree.size]
        | nil =>
            rw [entry] at filled
            cases strs with
            | nil =>
                refine iff_of_true (fun e he isCounted => ?_) (.inr ⟨rfl, rfl⟩)
                have silent : e.isComparison = false :=
                  emits_insertThrough_single _ _ _ _ _ filled e he
                rw [isComparison_of_countedBy isCounted] at silent
                cases silent
            | cons str' strs =>
                refine iff_of_false (counted filled (performs_insertThrough_nil _ _ _ _ _)) ?_
                simp

/-- The strings of the container that the loop starts with: those in the cache, and those
the container is built from if it was not there. -/
def startingStrings (env : Environment) (input : InputProvider (Keydomet StdString N) π)
    (draws : Nat) (n : UInt64) : Finset StdString :=
  let cached := ((cacheEntry input n).toList.map fun k => cPart k.str).toFinset
  if (cacheEntry input n).size = n.toNat then cached
  else cached ∪ ((buildKeys env input draws n).map cPart).toFinset

theorem getContainer_implements {env : Environment}
    {input input' : InputProvider (Keydomet StdString N) π} {draws draws' : Nat} {n : UInt64}
    {container : KeydometSet N} {log : List Effect}
    (run : input.getContainer env draws n = .ok (container, input', draws') log)
    {s : Finset StdString} (cached : Implements (cacheEntry input n) s) :
    Implements container (startingStrings env input draws n) := by
  rw [startingStrings, cached.represents.toFinset_map_key]
  rcases getContainer_inversion run with ⟨hit, rfl, -⟩ | ⟨miss, -, filled⟩
  · rwa [if_pos hit]
  · rw [if_neg miss]
    obtain ⟨t, value, holds, -⟩ := value_insertThrough env.balance
      ⟨cached.represents, cached.valid⟩ 0 (buildKeys env input draws n)
    rw [filled, Traced.value_ok] at value
    obtain rfl := Except.ok.inj value
    exact ⟨holds.represents, holds.wellBuilt⟩

end Setup

/-- Which benchmark runs report the use rate of their loop: exactly those whose container
comes from the cache or is built without a comparison, and in which every lookup and
deletion has a key after all strings in the container at that time. -/
theorem use_rate_measures_loop_iff {π : Type} [KeysProvider π] (env : Environment) (opsMix : Ops)
    (iterations : Nat) (containerSize opKeysNum : Int64)
    (input : InputProvider (Keydomet StdString N) π) (draws : Nat)
    (cached : ∃ s, Implements (cacheEntry input containerSize.toUInt64) s)
    {container : KeydometSet N} {opKeys : List StdString}
    {input' : InputProvider (Keydomet StdString N) π} {draws' : Nat} {setup : List Effect}
    (prepared : prepare env containerSize opKeysNum input draws =
      .ok (container, opKeys, input', draws') setup)
    (nonempty : opKeys ≠ []) :
    ∃ final loop,
      timedLoop env.balance opsMix opKeys iterations { container, ops := 0, found := 0 } =
        .ok final loop ∧
      keydometBench env opsMix iterations containerSize opKeysNum input draws =
        .ok final (setup ++ loop) ∧
      (MeasuresLoop N setup loop ↔
        BuildsSilently (cacheEntry input containerSize.toUInt64) containerSize.toUInt64 ∧
        QuietLoop opsMix opKeys iterations 0
          (startingStrings env input draws containerSize.toUInt64)) := by
  obtain ⟨s, cached⟩ := cached
  have fetch := prepared
  rw [prepare] at fetch
  obtain ⟨⟨_, _, _⟩, first, second, fetched, rest, rfl⟩ := Traced.bind_eq_ok.mp fetch
  obtain ⟨⟨_, _, _⟩, -, rest⟩ := Traced.ofExcept_bind_eq_ok.mp rest
  cases rest
  rw [List.append_nil] at prepared ⊢
  have start : Implements ({ container, ops := 0, found := 0 } : LoopState N).container _ :=
    getContainer_implements fetched cached
  obtain ⟨final, loop, run, quiet⟩ :=
    timedLoop_onlyCountedBy_iff env.balance opsMix nonempty iterations start
  refine ⟨final, loop, run, ?_, ?_⟩
  · rw [keydometBench, prepared, Traced.ok_bind]
    exact congrArg (Traced.after first) run
  · rw [measuresLoop_iff, quiet, getContainer_uncounted_iff fetched]

def coldInput : InputProvider (Keydomet StdString .size16bit) DatasetKeysProvider where
  keyProvider := { rawContent := [⟨[97]⟩, ⟨[98]⟩] }
  containerCache _ := .nil

/-- A single lookup of "a" in a container of two keys that has to be built: the comparison
made while building is counted, and the last one of the lookup is not. -/
theorem use_rate_counts_the_build :
    ∃ container opKeys input draws setup final loop,
      prepare .plain 2 1 coldInput 0 = .ok (container, opKeys, input, draws) setup ∧
      timedLoop Environment.plain.balance .lookups opKeys 1
        { container, ops := 0, found := 0 } = .ok final loop ∧
      ¬ MeasuresLoop .size16bit setup loop := by
  refine ⟨_, _, _, _, _, _, _, rfl, rfl, ?_⟩
  decide

/-- The same run is one of those characterized above. -/
theorem use_rate_measures_loop_iff_cold :
    ∃ container opKeys setup final loop,
      timedLoop Environment.plain.balance .lookups opKeys 1
        { container, ops := 0, found := 0 } = .ok final loop ∧
      keydometBench .plain .lookups 1 2 1 coldInput 0 = .ok final (setup ++ loop) ∧
      (MeasuresLoop .size16bit setup loop ↔
        BuildsSilently (cacheEntry coldInput 2) 2 ∧
        QuietLoop .lookups opKeys 1 0 (startingStrings .plain coldInput 0 2)) := by
  obtain ⟨final, loop, run, bench, iff⟩ :=
    use_rate_measures_loop_iff .plain .lookups 1 2 1 coldInput 0 ⟨∅, implements_nil⟩ rfl
      (by decide)
  exact ⟨_, _, _, final, loop, run, bench, iff⟩

end Kdmt.Bench

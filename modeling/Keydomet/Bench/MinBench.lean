import Keydomet.Bench.LoopCost

/-!
# The minimal benchmark

`min_bench` builds a container of keydomets and one of strings from the same input, looks up the
same strings in both, and prints the static counters of the keydomets after their lookups.

Both containers hold each input once, in the same order, and the lookups agree. The printed
counters add up to all comparisons of keydomets less one for each string that was looked up and
is not after all inputs (`min_bench_same_work`).
-/

namespace Kdmt.MinBench

open Foundation Bench KeydometSet

variable {N : PrefixSize}

/-- `build_container`, in both overloads: an insert iterator from `begin()` on. -/
def buildContainer {κ : Type} [KeyType κ] (B : Balance) (container : SearchTree κ)
    (input : List StdString) : Code (SearchTree κ) :=
  insertThrough B container 0 input

def lookup (s : StringSet) (key : StdString) : Code Bool := do
  let iter ← s.find key.comparison
  return iter.isSome

/-- `lookup`, specialized for containers of keydomets. -/
def lookupKeydomet (s : KeydometSet N) (key : StdString) : Code Bool := do
  let hkey ← makeFindKey N key
  let iter ← s.find hkey.comparison
  return iter.isSome

/-- What `benchmark` computes and prints. The answers of the lookups are dropped by the source. -/
structure Outcome (N : PrefixSize) where
  pkc : KeydometSet N
  ssc : StringSet
  keydometFound : List Bool
  stringFound : List Bool
  usedPrefix : UInt64
  usedString : UInt64

/-- The part of `benchmark` before the counters are printed. -/
def keydometPart (B : Balance) (input lookups : List StdString) :
    Code (KeydometSet N × StringSet × List Bool) := do
  let pkc ← buildContainer B .nil input
  let ssc ← buildContainer B .nil input
  let found ← lookups.mapM (lookupKeydomet pkc)
  return (pkc, ssc, found)

/-- `benchmark`, from some values of the static counters, which are memory. -/
def benchmark (B : Balance) (counters : Counters (KeydometClass × Counter))
    (input lookups : List StdString) : Code (Outcome N) :=
  match keydometPart B input lookups with
  | .fault reason => .fault reason
  | .ok (pkc, ssc, keydometFound) log =>
      let printed := counters.tally (increments log)
      .after log do
        let stringFound ← lookups.mapM (lookup ssc)
        return { pkc, ssc, keydometFound, stringFound
                 usedPrefix := printed (elementClass N, .usedPrefix)
                 usedString := printed (elementClass N, .usedString) }

section

variable {t : KeydometSet N} {t' : StringSet} {s : Finset StdString}

theorem value_lookup (h : Represents id t' s) (key : StdString) :
    (lookup t' key).value = .ok (decide (key ∈ s)) := by
  rw [lookup, Traced.value_bind_of_eq (h.value_find (key.probes_comparison t'.toList))]
  by_cases present : key ∈ s <;> simp [present]

theorem value_lookupKeydomet (h : Implements t s) (key : StdString) :
    (lookupKeydomet t key).value = .ok (decide (cPart key ∈ s)) := by
  rw [lookupKeydomet, Traced.value_bind_of_eq (value_makeFindKey key),
    Traced.value_bind_of_eq (h.represents.value_find (h.probes key))]
  by_cases present : cPart key ∈ s <;> simp [present]

theorem counts_lookup (h : Represents id t' s) (key : StdString) :
    (lookup t' key).Counts Effect.isComparison 0 := by
  have nodeLess : ∀ x ∈ t'.toList, (key.comparison.nodeLess x).Counts Effect.isComparison
      (if false then 1 else 0) := fun x _ => .pure _
  have keyLess : ∀ x ∈ t'.toList, (key.comparison.keyLess x).Counts Effect.isComparison
      (if false then 1 else 0) := fun x _ => .pure _
  have search := h.counts_find (key.probes_comparison t'.toList) nodeLess keyLess
  rw [List.countP_eq_zero.mpr (by simp), List.countP_eq_zero.mpr (by simp)] at search
  exact search.map _

theorem counts_lookupKeydomet (h : Implements t s) (key : StdString) :
    (lookupKeydomet t key).Counts (Effect.missedBy (elementClass N))
      (if ∃ j ∈ s, cPart key ≤ j then 1 else 0) := by
  rw [lookupKeydomet]
  apply Traced.Counts.bind_silent
  · exact .of_emits ((emits_makeFindKey (elementClass N) key).mono
      fun _ => OnlyCountedBy.missedBy_eq_false)
  · intro hkey built
    obtain rfl := Except.ok.inj ((value_makeFindKey key).symm.trans built)
    have search := h.searchCounts_missed .unbalanced (.find key)
    refine (search.map _).congr ?_
    by_cases past : PastEnd s ((SetOp.find key).map cPart)
    · rw [if_pos past, if_neg fun ⟨j, hj, le⟩ => (past j hj).not_ge le]
    · rw [if_neg past, if_pos]
      by_contra none
      exact past fun j hj => not_le.mp fun le => none ⟨j, hj, le⟩

end

theorem count_usedPrefix_add (cls : KeydometClass) (log : List Effect) :
    (increments log).count (cls, .usedPrefix) + (increments log).count (cls, .usedString) =
      log.countP (Effect.countedBy cls) := by
  have silent : ∀ e : Effect, e.isComparison = false → e.countedBy cls = false := by
    intro e notComparison
    cases e with
    | read operand position => rfl
    | increment c counter => cases notComparison
  rw [countP_eq_countP_increments silent]
  induction increments log with
  | nil => rfl
  | cons i rest ih =>
      obtain ⟨c, counter⟩ := i
      rw [List.countP_cons, List.count_cons, List.count_cons, ← ih]
      have own : (Effect.increment c counter).countedBy cls = (c == cls) := rfl
      rw [own]
      by_cases same : c = cls
      · subst same
        cases counter <;> simp <;> omega
      · simp [same]

/-- The first part of `benchmark`: both containers hold the inputs, and one comparison is missed
for each lookup that is not after all of them. -/
theorem keydometPart_spec (N : PrefixSize) (B : Balance) {input lookups : List StdString}
    (nulFree : ∀ k ∈ input ++ lookups, 0 ∉ k.chars) :
    ∃ pkc ssc log,
      keydometPart (N := N) B input lookups =
        .ok (pkc, ssc, lookups.map fun k => decide (k ∈ input)) log ∧
      HoldsKeys pkc input ∧ HoldsKeys ssc input ∧
      log.countP (Effect.missedBy (elementClass N)) =
        lookups.countP fun k => decide (∃ s ∈ input, k ≤ s) := by
  have inputFree : ∀ k ∈ input, 0 ∉ k.chars := fun k hk =>
    nulFree k (List.mem_append_left _ hk)
  have lookupFree : ∀ k ∈ lookups, cPart k = k := fun k hk =>
    cPart_of_nulFree (nulFree k (List.mem_append_right _ hk))
  obtain ⟨pkc, built, holds⟩ := value_insertThrough_nil (κ := Keydomet StdString N) B inputFree
  obtain ⟨ssc, built', holds'⟩ := value_insertThrough_nil (κ := StdString) B inputFree
  have implements : Implements pkc input.toFinset := ⟨holds.holds.represents, holds.holds.wellBuilt⟩
  have found : (lookups.mapM (lookupKeydomet pkc)).value =
      .ok (lookups.map fun k => decide (k ∈ input)) := by
    apply Traced.value_mapM_of_eq
    intro k hk
    rw [value_lookupKeydomet implements, lookupFree k hk]
    simp
  have value : (keydometPart (N := N) B input lookups).value =
      .ok (pkc, ssc, lookups.map fun k => decide (k ∈ input)) := by
    rw [keydometPart, buildContainer, Traced.value_bind_of_eq built, buildContainer,
      Traced.value_bind_of_eq built', Traced.value_bind_of_eq found]
    rfl
  have counts : (keydometPart (N := N) B input lookups).Counts
      (Effect.missedBy (elementClass N))
      (lookups.countP fun k => decide (∃ s ∈ input, k ≤ s)) := by
    rw [keydometPart]
    apply Traced.Counts.bind_silent
    · exact .of_emits ((emits_insertThrough_keydomet B _ _ _).mono
        fun _ => OnlyCountedBy.missedBy_eq_false)
    · intro pkc' built''
      obtain rfl := Except.ok.inj (built.symm.trans built'')
      apply Traced.Counts.bind_silent
      · apply Traced.Counts.of_emits
        exact emits_insertThrough (fun _ => .pure _) (fun _ _ => .pure _) (fun _ _ => .pure _)
          B _ _ _
      · intro ssc' _
        refine Traced.Counts.map (Traced.Counts.mapM fun k hk => ?_) _
        have one := counts_lookupKeydomet implements k
        simpa [lookupFree k hk] using one
  obtain ⟨log, run⟩ := Traced.value_eq_ok.mp value
  exact ⟨pkc, ssc, log, run, holds, holds', counts _ log run⟩

/-- The minimal benchmark does the same work on both containers: they hold each input once, in
the same order, and all lookups agree. The counters that are printed add up to all comparisons of
keydomets, less one for each lookup whose key is not after all inputs. -/
theorem min_bench_same_work (N : PrefixSize) (B : Balance)
    (counters : Counters (KeydometClass × Counter)) (input lookups : List StdString)
    (nulFree : ∀ k ∈ input ++ lookups, 0 ∉ k.chars) :
    ∃ (outcome : Outcome N) (log : List Effect),
      benchmark B counters input lookups = .ok outcome log ∧
      outcome.pkc.toList.map Keydomet.getStr = input.toFinset.sort (· ≤ ·) ∧
      outcome.ssc.toList = input.toFinset.sort (· ≤ ·) ∧
      outcome.keydometFound = lookups.map (fun k => decide (k ∈ input)) ∧
      outcome.stringFound = lookups.map (fun k => decide (k ∈ input)) ∧
      outcome.usedPrefix + outcome.usedString +
          UInt64.ofNat (lookups.countP fun k => decide (∃ s ∈ input, k ≤ s)) =
        counters (elementClass N, .usedPrefix) + counters (elementClass N, .usedString) +
          UInt64.ofNat (log.countP Effect.isComparison) := by
  obtain ⟨pkc, ssc, log, run, holds, holds', missed⟩ := keydometPart_spec N B nulFree
  have represents : Represents id ssc input.toFinset := holds'.holds.represents
  have found : (lookups.mapM (lookup ssc)).value =
      .ok (lookups.map fun k => decide (k ∈ input)) := by
    apply Traced.value_mapM_of_eq
    intro k _
    rw [value_lookup represents]
    simp
  have silent : (lookups.mapM (lookup ssc)).Counts Effect.isComparison 0 := by
    have each := Traced.Counts.mapM (P := fun _ : StdString => False) (l := lookups)
      (g := lookup ssc) (p := Effect.isComparison) fun k _ => counts_lookup represents k
    rwa [List.countP_eq_zero.mpr (by simp)] at each
  obtain ⟨rest, second⟩ := Traced.value_eq_ok.mp found
  refine ⟨⟨pkc, ssc, _, _, counters.tally (increments log) (elementClass N, .usedPrefix),
    counters.tally (increments log) (elementClass N, .usedString)⟩, log ++ rest,
    ?_, ?_, ?_, rfl, rfl, ?_⟩
  · rw [benchmark, run]
    dsimp only
    rw [second, Traced.ok_bind]
    simp
  · have contents : KeydometSet.NulFree pkc input.toFinset :=
      ⟨⟨holds.holds.represents, holds.holds.wellBuilt⟩, holds.nulFree⟩
    exact contents.map_getStr
  · have ordered := represents.map_key_toList
    rwa [List.map_id] at ordered
  · rw [List.countP_append, silent _ rest second, countP_isComparison (elementClass N), missed,
      ← count_usedPrefix_add, Counters.tally_apply, Counters.tally_apply]
    simp only [UInt64.ofNat_add, Nat.add_zero]
    ac_rfl

/-- The inputs "b", "a", "b" and the lookups "a", "c", with the prefix size of the source: the
lookup of "a" misses a comparison. -/
theorem min_bench_same_work_b_a_b :
    ∃ (outcome : Outcome .size32bit) (log : List Effect),
      benchmark .unbalanced (fun _ => 0) [⟨[98]⟩, ⟨[97]⟩, ⟨[98]⟩] [⟨[97]⟩, ⟨[99]⟩] =
        .ok outcome log ∧
      outcome.pkc.toList.map Keydomet.getStr = outcome.ssc.toList ∧
      outcome.keydometFound = [true, false] ∧ outcome.stringFound = [true, false] ∧
      outcome.usedPrefix + outcome.usedString + 1 =
        UInt64.ofNat (log.countP Effect.isComparison) := by
  obtain ⟨outcome, log, run, contents, contents', found, found', printed⟩ :=
    min_bench_same_work .size32bit .unbalanced (fun _ => 0) [⟨[98]⟩, ⟨[97]⟩, ⟨[98]⟩]
      [⟨[97]⟩, ⟨[99]⟩] (by decide)
  refine ⟨outcome, log, run, contents.trans contents'.symm, found.trans (by decide),
    found'.trans (by decide), ?_⟩
  have late : [(⟨[97]⟩ : StdString), ⟨[99]⟩].countP (fun k => decide
      (∃ s ∈ [(⟨[98]⟩ : StdString), ⟨[97]⟩, ⟨[98]⟩], k ≤ s)) = 1 := by decide
  rw [late] at printed
  exact printed.trans (UInt64.zero_add _)

end Kdmt.MinBench

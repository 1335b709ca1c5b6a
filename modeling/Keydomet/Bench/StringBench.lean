import Keydomet.Bench.Template
import Keydomet.Bench.InputProvider

/-!
# The benchmark of plain strings

`string_bench` copies a cached container into one of its own and runs the same kind of loop
as `keydomet_bench`, written for strings: keys are looked up as they are, and erased by key.

For `std::string` it is an instance of the template (`keyIteration_stdString`), whose loop is a
run of the operations of `keydomet_bench`. Two containers of the same strings therefore answer
alike throughout, find the same number of keys, and hold the same strings at the end.
-/

namespace Kdmt.Bench

open Foundation

variable {N : PrefixSize} {π : Type} [KeysProvider π]

/-- The variables of the timed loop of `string_bench`. -/
structure StringLoopState where
  container : StringSet
  ops : UInt64
  found : UInt64

/-- One iteration of the loop of `string_bench`. -/
def stringIteration (B : Balance) (opsMix : Ops) (opKeys : List StdString)
    (st : StringLoopState) : Code StringLoopState := do
  let (opKey, ops) ← nextOpKey opKeys st.ops
  match opsMix with
  | .lookups =>
      let iter ← st.container.find opKey.comparison
      return { st with ops, found := st.found + if iter.isSome then 1 else 0 }
  | .mix =>
      if ops &&& 0x1 ≠ 0 then
        let iter ← st.container.find opKey.comparison
        return { st with ops, found := st.found + if iter.isSome then 1 else 0 }
      else if ops &&& 0x10 ≠ 0 then
        let (container, _) ← st.container.eraseKey B opKey.comparison
        return { st with container, ops }
      else
        let (container, _) ← st.container.insertUnique B opKey.comparison opKey
        return { st with container, ops }

def stringLoop (B : Balance) (opsMix : Ops) (opKeys : List StdString) :
    Nat → StringLoopState → Code StringLoopState
  | 0, st => return st
  | iterations + 1, st => do
      let st ← stringIteration B opsMix opKeys st
      stringLoop B opsMix opKeys iterations st

/-- The range constructor of a container inserts each string with a hint at the end. -/
def insertRange (B : Balance) : StringSet → List StdString → Code StringSet
  | t, [] => return t
  | t, s :: strs => do
      let (t', _) ← t.insertHint B s.comparison t.size s
      insertRange B t' strs

/-- `string_bench`. The result is the final state of the loop. -/
def stringBench (env : Environment) (opsMix : Ops) (iterations : Nat)
    (containerSize opKeysNum : Int64) (input : InputProvider StdString π) (draws : Nat) :
    Code StringLoopState := do
  let (strContainer, input, draws) ← input.getContainer env draws containerSize.toUInt64
  let container ← insertRange env.balance .nil strContainer.toList
  let (opKeys, _) ← .ofExcept (input.getKeys env draws opKeysNum.toUInt64.toUInt32 .benchOps)
  stringLoop env.balance opsMix opKeys iterations { container, ops := 0, found := 0 }

/-! ## The instance of the template -/

/-- The variables of the instance for `std::string`. -/
def StringLoopState.toKeyLoopState (st : StringLoopState) : KeyLoopState StdString :=
  ⟨st.container, st.ops, st.found⟩

/-- `string_bench<std::string>` is an instance of the template. -/
theorem keyIteration_stdString (B : Balance) (opsMix : Ops) (opKeys : List StdString)
    (st : StringLoopState) :
    keyIteration B opsMix opKeys st.toKeyLoopState =
      StringLoopState.toKeyLoopState <$> stringIteration B opsMix opKeys st := by
  rw [keyIteration, stringIteration, map_bind]
  congr 1
  funext next
  obtain ⟨opKey, ops⟩ := next
  change (pure opKey >>= _) = _
  rw [pure_bind]
  cases opsMix with
  | lookups => rw [map_bind]; rfl
  | mix =>
      dsimp only
      by_cases odd : ops &&& 0x1 ≠ 0
      · rw [if_pos odd, if_pos odd, map_bind]
        rfl
      · rw [if_neg odd, if_neg odd]
        by_cases bit : ops &&& 0x10 ≠ 0
        · rw [if_pos bit, if_pos bit, map_bind]
          rfl
        · rw [if_neg bit, if_neg bit, map_bind]
          rfl

theorem keyLoop_stdString (B : Balance) (opsMix : Ops) (opKeys : List StdString)
    (iterations : Nat) (st : StringLoopState) :
    keyLoop B opsMix opKeys iterations st.toKeyLoopState =
      StringLoopState.toKeyLoopState <$> stringLoop B opsMix opKeys iterations st := by
  induction iterations generalizing st with
  | zero =>
      rw [keyLoop, stringLoop, map_pure]
  | succ iterations ih =>
      rw [keyLoop, stringLoop, keyIteration_stdString, bind_map_left, map_bind]
      congr 1
      funext st'
      exact ih st'

theorem StringLoopState.toKeyLoopState_injective :
    Function.Injective StringLoopState.toKeyLoopState := by
  rintro ⟨container, ops, found⟩ ⟨container', ops', found'⟩ same
  cases same
  rfl

namespace KeySet

theorem ofRange_stdString (B : Balance) (t : StringSet) (strs : List StdString) :
    ofRange B t strs = insertRange B t strs := by
  induction strs generalizing t with
  | nil => rfl
  | cons str strs ih =>
      rw [ofRange, insertRange]
      change (pure str >>= _) = _
      rw [pure_bind]
      congr 1
      funext inserted
      obtain ⟨t', -⟩ := inserted
      exact ih t'

theorem step_stdString (B : Balance) : (step B : StringSet → _) = StringSet.step B := by
  funext t op
  have observed : ∀ answer (t : StringSet), observe answer t = StringSet.observe answer t :=
    fun answer t => congrArg (SetObservation.mk answer t.size) (List.map_id t.toList)
  rw [step_eq, StringSet.step_eq]
  change (pure op.key >>= _) = _
  rw [pure_bind]
  simp only [observed]
  rfl

end KeySet

def StringLoopState.afterRun (iterations : Nat)
    (r : List (SetObservation StdString) × StringSet) : StringLoopState :=
  ⟨r.2, UInt64.ofNat iterations, hits r.1⟩

/-- The loop of `string_bench` performs the same operations as that of `keydomet_bench`. -/
theorem stringLoop_eq_run (B : Balance) (opsMix : Ops) {opKeys : List StdString}
    (nonempty : opKeys ≠ []) (iterations : Nat) (t : StringSet) :
    stringLoop B opsMix opKeys iterations ⟨t, 0, 0⟩ = StringLoopState.afterRun iterations <$>
      Traced.run (StringSet.step B) t (loopOperations opsMix opKeys iterations 0) := by
  apply Traced.map_injective StringLoopState.toKeyLoopState_injective
  have template := keyLoop_eq_run (κ := StdString) B opsMix nonempty iterations t
  rw [KeySet.step_stdString] at template
  dsimp only
  rw [← comp_map, ← keyLoop_stdString]
  exact template

theorem value_stringLoop (B : Balance) (opsMix : Ops) (iterations : Nat) {opKeys : List StdString}
    (nonempty : opKeys ≠ []) (nulFree : ∀ k ∈ opKeys, 0 ∉ k.chars) {t : StringSet}
    {s : Finset StdString} (h : KeySet.NulFree t s) :
    ∃ last,
      (Traced.run (StringSet.step B) t (loopOperations opsMix opKeys iterations 0)).value =
        .ok ((Traced.modelRun SetModel.step s (loopOperations opsMix opKeys iterations 0)).1,
          last) ∧
      (stringLoop B opsMix opKeys iterations ⟨t, 0, 0⟩).value = .ok (.afterRun iterations
        ((Traced.modelRun SetModel.step s (loopOperations opsMix opKeys iterations 0)).1, last)) ∧
      KeySet.NulFree last
        (Traced.modelRun SetModel.step s (loopOperations opsMix opKeys iterations 0)).2 := by
  obtain ⟨last, run, -, kept⟩ := value_keyLoop B opsMix iterations nonempty nulFree h
  rw [KeySet.step_stdString] at run
  refine ⟨last, run, ?_, kept⟩
  rw [stringLoop_eq_run B opsMix nonempty, Traced.value_map, run]
  rfl

/-! ## The same work -/

/-- The two loops, from containers `t` and `t'`, do the same work. -/
structure SameWork (B B' : Balance) (opsMix : Ops) (opKeys : List StdString) (iterations : Nat)
    (t : KeydometSet N) (t' : StringSet) (final : LoopState N) (final' : StringLoopState) :
    Prop where
  /-- Both loops perform the same operations, one after the other. -/
  operations : timedLoop B opsMix opKeys iterations ⟨t, 0, 0⟩ =
    LoopState.afterRun iterations <$>
      Traced.run (KeydometSet.step B) t (loopOperations opsMix opKeys iterations 0)
  operations' : stringLoop B' opsMix opKeys iterations ⟨t', 0, 0⟩ =
    StringLoopState.afterRun iterations <$>
      Traced.run (StringSet.step B') t' (loopOperations opsMix opKeys iterations 0)
  /-- All operations have the same answers, and leave the same strings. -/
  observations : ∃ observations,
    (Traced.run (KeydometSet.step B) t (loopOperations opsMix opKeys iterations 0)).value =
      .ok (observations, final.container) ∧
    (Traced.run (StringSet.step B') t' (loopOperations opsMix opKeys iterations 0)).value =
      .ok (observations, final'.container)
  returns : (timedLoop B opsMix opKeys iterations ⟨t, 0, 0⟩).value = .ok final
  returns' : (stringLoop B' opsMix opKeys iterations ⟨t', 0, 0⟩).value = .ok final'
  found_eq : final.found = final'.found
  contents_eq : final.container.toList.map Keydomet.getStr = final'.container.toList

/-- The two benchmark bodies do the same work, from containers of the same strings without
NUL: the one that `keydomet_bench` has copied, and the one that `string_bench` copies. -/
theorem benches_do_same_work (B B' : Balance) (opsMix : Ops) (iterations : Nat)
    {opKeys : List StdString} (nonempty : opKeys ≠ []) (nulFree : ∀ k ∈ opKeys, 0 ∉ k.chars)
    {s : Finset StdString} {t : KeydometSet N} {strContainer : StringSet}
    (h : KeydometSet.NulFree t s) (h' : Represents id strContainer s) :
    ∃ copy final final',
      (insertRange B' .nil strContainer.toList).value = .ok copy ∧
      SameWork B B' opsMix opKeys iterations t copy final final' := by
  have clean : KeySet.NulFree strContainer s := by
    refine ⟨⟨h', fun _ _ => trivial⟩, fun x hx => ?_⟩
    obtain ⟨y, -, rfl⟩ := (h.represents.mem_iff x).mp ((h'.mem_iff x).mpr ⟨x, hx, rfl⟩)
    exact zero_notMem_cstr y.str
  obtain ⟨copy, copied, represents⟩ := KeySet.value_ofRange_copy (κ := StdString) B' clean
  rw [KeySet.ofRange_stdString] at copied
  obtain ⟨last, run, loop, kept⟩ := value_timedLoop B opsMix iterations nonempty nulFree h
  obtain ⟨last', run', loop', kept'⟩ :=
    value_stringLoop B' opsMix iterations nonempty nulFree represents
  refine ⟨copy, _, _, copied, timedLoop_eq_run B opsMix nonempty iterations t,
    stringLoop_eq_run B' opsMix nonempty iterations copy, ⟨_, run, run'⟩, loop, loop', rfl, ?_⟩
  change last.toList.map Keydomet.getStr = last'.toList
  have strings : last'.toList.map KeyType.getStr = last'.toList := List.map_id last'.toList
  rw [kept.map_getStr, ← kept'.map_getStr, strings]

/-- Twenty iterations on the keys "a" and "b", from containers of "a": every lookup is one of
"a", and finds it. -/
theorem benches_do_same_work_a_b :
    ∃ copy final final',
      (insertRange .unbalanced .nil
        (.node true .nil ⟨[97]⟩ .nil : StringSet).toList).value = .ok copy ∧
      SameWork .unbalanced .unbalanced .mix [⟨[97]⟩, ⟨[98]⟩] 20
        (.node true .nil (.mkValid .size16bit ⟨[97]⟩) .nil) copy final final' ∧
      final.found = 10 := by
  have h : KeydometSet.NulFree
      (.node true .nil (.mkValid .size16bit ⟨[97]⟩) .nil : KeydometSet .size16bit) {⟨[97]⟩} :=
    ⟨⟨.singleton _ true _, by simp [Keydomet.mkValid_valid]⟩, by simp⟩
  have nonempty : ([⟨[97]⟩, ⟨[98]⟩] : List StdString) ≠ [] := by decide
  obtain ⟨copy, final, final', copied, same⟩ := benches_do_same_work .unbalanced .unbalanced .mix
    20 nonempty (by decide) h (.singleton id true (⟨[97]⟩ : StdString))
  have found : (timedLoop .unbalanced .mix [⟨[97]⟩, ⟨[98]⟩] 20
      ⟨.node true .nil (.mkValid .size16bit ⟨[97]⟩) .nil, 0, 0⟩).value.map LoopState.found =
      .ok 10 := rfl
  rw [same.returns] at found
  exact ⟨copy, final, final', copied, same, Except.ok.inj found⟩

end Kdmt.Bench

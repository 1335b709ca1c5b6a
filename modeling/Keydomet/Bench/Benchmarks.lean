import Keydomet.Bench.InputProvider

/-!
# The benchmark bodies

`keydomet_bench` copies a cached container, fetches the keys to operate on, and runs the
timed loop: lookups only, or lookups that alternate with insertions and deletions. The
bits of the shared counter `ops` select the operation, after it has been incremented by the
expression that selects the key.

The counters of the class of the elements are read before the container is fetched, and
after the loop; the reported use rate is computed from their differences.

The loops of all benchmarks are runs of one list of operations, whatever the containers
(`loop_eq_run`).
-/

namespace Kdmt.Bench

open Foundation

variable {N : PrefixSize} {π : Type} [KeysProvider π]

/-- The enumeration `ops`. -/
inductive Ops where
  | lookups
  | mix
deriving DecidableEq, Repr

/-- The operation of an iteration, given the counter after its increment. -/
def operation (opsMix : Ops) (ops : UInt64) (opKey : StdString) : SetOp StdString :=
  match opsMix with
  | .lookups => .find opKey
  | .mix =>
      if ops &&& 0x1 ≠ 0 then .find opKey
      else if ops &&& 0x10 ≠ 0 then .erase opKey
      else .insert opKey

/-- The variables of the timed loop of `keydomet_bench`. -/
structure LoopState (N : PrefixSize) where
  container : KeydometSet N
  ops : UInt64
  found : UInt64

/-- `op_keys[ops++ % op_keys.size()]`. -/
def nextOpKey (opKeys : List StdString) (ops : UInt64) : Code (StdString × UInt64) :=
  match opKeys[ops.toNat % opKeys.length]? with
  | some opKey => return (opKey, ops + 1)
  | none => .fault .outOfBounds

theorem getElem?_mod_eq_some {opKeys : List StdString} (nonempty : opKeys ≠ []) (ops : UInt64) :
    ∃ opKey, opKeys[ops.toNat % opKeys.length]? = some opKey :=
  ⟨_, List.getElem?_eq_getElem (Nat.mod_lt _ (List.length_pos_iff.mpr nonempty))⟩

theorem nextOpKey_eq {opKeys : List StdString} {ops : UInt64} {opKey : StdString}
    (here : opKeys[ops.toNat % opKeys.length]? = some opKey) :
    nextOpKey opKeys ops = pure (opKey, ops + 1) := by
  rw [nextOpKey, here]

/-- One iteration. A lookup that finds its key is counted. -/
def iteration (B : Balance) (opsMix : Ops) (opKeys : List StdString) (st : LoopState N) :
    Code (LoopState N) := do
  let (opKey, ops) ← nextOpKey opKeys st.ops
  let (seen, container) ← KeydometSet.step B st.container (operation opsMix ops opKey)
  let found :=
    match seen.answer with
    | .found (some _) => st.found + 1
    | _ => st.found
  return { container, ops, found }

def timedLoop (B : Balance) (opsMix : Ops) (opKeys : List StdString) :
    Nat → LoopState N → Code (LoopState N)
  | 0, st => return st
  | iterations + 1, st => do
      let st ← iteration B opsMix opKeys st
      timedLoop B opsMix opKeys iterations st

/-- What precedes the loop: the container is fetched and copied, which makes no
comparison, and the operation keys are fetched. -/
def prepare (env : Environment) (containerSize opKeysNum : Int64)
    (input : InputProvider (Keydomet StdString N) π) (draws : Nat) :
    Code (KeydometSet N × List StdString × InputProvider (Keydomet StdString N) π × Nat) := do
  let (container, input, draws) ← input.getContainer env draws containerSize.toUInt64
  let (opKeys, input, draws) ←
    .ofExcept (input.getKeys env draws opKeysNum.toUInt64.toUInt32 .benchOps)
  return (container, opKeys, input, draws)

/-- `keydomet_bench`. The result is the final state of the loop. -/
def keydometBench (env : Environment) (opsMix : Ops) (iterations : Nat)
    (containerSize opKeysNum : Int64) (input : InputProvider (Keydomet StdString N) π)
    (draws : Nat) : Code (LoopState N) := do
  let (container, opKeys, _) ← prepare env containerSize opKeysNum input draws
  timedLoop env.balance opsMix opKeys iterations { container, ops := 0, found := 0 }

/-! ## The operations of a loop -/

/-- The operations of the remaining iterations, at a value of the counter. -/
def loopOperations (opsMix : Ops) (opKeys : List StdString) :
    Nat → UInt64 → List (SetOp StdString)
  | 0, _ => []
  | iterations + 1, ops =>
      match opKeys[ops.toNat % opKeys.length]? with
      | some opKey =>
          operation opsMix (ops + 1) opKey :: loopOperations opsMix opKeys iterations (ops + 1)
      | none => []

/-- A lookup that finds its key is a hit. -/
def isHit (seen : SetObservation StdString) : Bool :=
  match seen.answer with
  | .found (some _) => true
  | _ => false

def hits (observations : List (SetObservation StdString)) : UInt64 :=
  UInt64.ofNat (observations.countP isHit)

theorem hits_cons (seen : SetObservation StdString)
    (observations : List (SetObservation StdString)) :
    hits (seen :: observations) = (if isHit seen then 1 else 0) + hits observations := by
  rw [hits, List.countP_cons, Nat.add_comm, UInt64.ofNat_add, hits]
  cases isHit seen <;> rfl

/-- A loop whose body performs the operation of its iteration, and counts hits, is a run of the
operations of all its iterations. -/
theorem loop_eq_run {τ S : Type} (step : τ → SetOp StdString → Code (SetObservation StdString × τ))
    (mk : τ → UInt64 → UInt64 → S) {body : S → Code S} (loop : Nat → S → Code S)
    (zero : ∀ st, loop 0 st = pure st) (succ : ∀ n st, loop (n + 1) st = body st >>= loop n)
    {opsMix : Ops} {opKeys : List StdString} (nonempty : opKeys ≠ [])
    (body_eq : ∀ t ops found opKey, opKeys[ops.toNat % opKeys.length]? = some opKey →
      body (mk t ops found) = step t (operation opsMix (ops + 1) opKey) >>= fun r =>
        pure (mk r.2 (ops + 1) (found + if isHit r.1 then 1 else 0)))
    (iterations : Nat) (t : τ) (ops found : UInt64) :
    loop iterations (mk t ops found) =
      (fun r => mk r.2 (ops + UInt64.ofNat iterations) (found + hits r.1)) <$>
        Traced.run step t (loopOperations opsMix opKeys iterations ops) := by
  induction iterations generalizing t ops found with
  | zero =>
      rw [zero, loopOperations, Traced.run, map_pure]
      simp [hits]
  | succ iterations ih =>
      obtain ⟨opKey, here⟩ := getElem?_mod_eq_some nonempty ops
      have counter : ops + 1 + UInt64.ofNat iterations = ops + UInt64.ofNat (iterations + 1) := by
        rw [Nat.add_comm, UInt64.ofNat_add, UInt64.add_assoc]
        rfl
      rw [succ, body_eq _ _ _ _ here, loopOperations, here, Traced.run, bind_assoc, map_bind]
      congr 1
      funext r
      rw [pure_bind, ih, map_bind, counter, map_eq_pure_bind]
      congr 1
      funext r'
      rw [map_pure, hits_cons, UInt64.add_assoc]

@[simp] theorem key_operation (opsMix : Ops) (ops : UInt64) (opKey : StdString) :
    (operation opsMix ops opKey).key = opKey := by
  cases opsMix with
  | lookups => rfl
  | mix =>
      simp only [operation]
      split
      · rfl
      · split <;> rfl

theorem key_mem_of_mem_loopOperations {opsMix : Ops} {opKeys : List StdString} {iterations : Nat}
    {ops : UInt64} {op : SetOp StdString} (h : op ∈ loopOperations opsMix opKeys iterations ops) :
    op.key ∈ opKeys := by
  induction iterations generalizing ops with
  | zero => exact absurd h List.not_mem_nil
  | succ iterations ih =>
      rw [loopOperations] at h
      cases here : opKeys[ops.toNat % opKeys.length]? with
      | none =>
          rw [here] at h
          exact absurd h List.not_mem_nil
      | some opKey =>
          rw [here] at h
          rcases List.mem_cons.mp h with rfl | later
          · rw [key_operation]
            exact List.mem_of_getElem? here
          · exact ih later

theorem nulFree_loopOperations {opKeys : List StdString} (nulFree : ∀ k ∈ opKeys, 0 ∉ k.chars)
    (opsMix : Ops) (iterations : Nat) (ops : UInt64) :
    ∀ op ∈ loopOperations opsMix opKeys iterations ops, 0 ∉ op.key.chars :=
  fun _ hop => nulFree _ (key_mem_of_mem_loopOperations hop)

/-! ## The loop of `keydomet_bench` -/

/-- The state of `keydomet_bench` after a run of operations. -/
def LoopState.afterRun (iterations : Nat)
    (r : List (SetObservation StdString) × KeydometSet N) : LoopState N :=
  ⟨r.2, UInt64.ofNat iterations, hits r.1⟩

theorem iteration_eq (B : Balance) (opsMix : Ops) (opKeys : List StdString) (t : KeydometSet N)
    (ops found : UInt64) (opKey : StdString)
    (here : opKeys[ops.toNat % opKeys.length]? = some opKey) :
    iteration B opsMix opKeys ⟨t, ops, found⟩ =
      KeydometSet.step B t (operation opsMix (ops + 1) opKey) >>= fun r =>
        pure ⟨r.2, ops + 1, found + if isHit r.1 then 1 else 0⟩ := by
  rw [iteration, nextOpKey_eq here, pure_bind]
  dsimp only
  congr 1
  funext r
  rw [isHit]
  rcases r.1.answer with _ | ⟨none | position⟩ | _ <;> simp

/-- The loop of `keydomet_bench` performs its operations. -/
theorem timedLoop_eq_run (B : Balance) (opsMix : Ops) {opKeys : List StdString}
    (nonempty : opKeys ≠ []) (iterations : Nat) (t : KeydometSet N) :
    timedLoop B opsMix opKeys iterations ⟨t, 0, 0⟩ = LoopState.afterRun iterations <$>
      Traced.run (KeydometSet.step B) t (loopOperations opsMix opKeys iterations 0) := by
  have run := loop_eq_run (KeydometSet.step B) LoopState.mk (timedLoop B opsMix opKeys)
    (fun _ => rfl) (fun _ _ => rfl) nonempty (iteration_eq B opsMix opKeys) iterations t 0 0
  simp only [UInt64.zero_add] at run
  exact run

/-- The loop of `keydomet_bench`, from a container of these strings, sees what the set does. -/
theorem value_timedLoop (B : Balance) (opsMix : Ops) (iterations : Nat) {opKeys : List StdString}
    (nonempty : opKeys ≠ []) (nulFree : ∀ k ∈ opKeys, 0 ∉ k.chars) {t : KeydometSet N}
    {s : Finset StdString} (h : KeydometSet.NulFree t s) :
    ∃ last,
      (Traced.run (KeydometSet.step B) t (loopOperations opsMix opKeys iterations 0)).value =
        .ok ((Traced.modelRun SetModel.step s (loopOperations opsMix opKeys iterations 0)).1,
          last) ∧
      (timedLoop B opsMix opKeys iterations ⟨t, 0, 0⟩).value = .ok (.afterRun iterations
        ((Traced.modelRun SetModel.step s (loopOperations opsMix opKeys iterations 0)).1, last)) ∧
      KeydometSet.NulFree last
        (Traced.modelRun SetModel.step s (loopOperations opsMix opKeys iterations 0)).2 := by
  obtain ⟨last, run, kept⟩ := Traced.run_refines (R := KeydometSet.NulFree)
    (fun _ _ op h legal => KeydometSet.step_refines B h op legal) h _
    (nulFree_loopOperations nulFree opsMix iterations 0)
  refine ⟨last, run, ?_, kept⟩
  rw [timedLoop_eq_run B opsMix nonempty, Traced.value_map, run]
  rfl

end Kdmt.Bench

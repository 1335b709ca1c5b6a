import Keydomet.Bench.Benchmarks

/-!
# The template `string_bench`

The container of `string_bench<StrT>` may hold another type of strings than the one it is filled
from, which is always `std::string`. It is used with `std::string` itself and with
`std::string_view`. Its loop is written for strings: keys are looked up as they are, and erased
by key.

A container of any of these types is an implementation of the set of its strings, as long as
they have no NUL (`KeySet.step_refines`), so the loop performs the operations of
`keydomet_bench` and sees what the set does. Viewed strings lie in caches that the loop does not
touch.
-/

namespace Kdmt.Bench

open Foundation KeyType

variable {κ : Type} [KeyType κ]

/-! ## Containers driven with strings -/

namespace KeySet

/-- The answer of a container, its size, and the strings of its elements. -/
def observe (answer : SetAnswer) (t : SearchTree κ) : SetObservation StdString :=
  ⟨answer, t.size, t.toList.map getStr⟩

/-- One operation: `insert(k)`, `find(k)` or `erase(k)`, with a string that is converted to
the type of the elements. -/
def step (B : Balance) (t : SearchTree κ) :
    SetOp StdString → Code (SetObservation StdString × SearchTree κ)
  | .insert k => do
      let item ← ofString k
      let (t', position, fresh) ← t.insertUnique B (comparison item) item
      return (observe (.inserted position fresh) t', t')
  | .find k => do
      let key : κ ← ofString k
      let position ← t.find (comparison key)
      return (observe (.found position) t, t)
  | .erase k => do
      let key : κ ← ofString k
      let (t', count) ← t.eraseKey B (comparison key)
      return (observe (.erased count) t', t')

/-- A container of strings without NUL, and the set of them. -/
structure NulFree (t : SearchTree κ) (s : Finset StdString) : Prop extends Holds t s where
  nulFree : ∀ x ∈ t.toList, 0 ∉ (getStr x).chars

theorem nulFree_nil : NulFree (.nil : SearchTree κ) ∅ where
  toHolds := holds_nil
  nulFree x hx := by simp [SearchTree.toList] at hx

variable {t : SearchTree κ} {s : Finset StdString}

theorem NulFree.map_getStr (h : NulFree t s) : t.toList.map getStr = s.sort (· ≤ ·) := by
  rw [← h.represents.map_key_toList]
  exact List.map_congr_left fun x hx => (compared_of_nulFree _ (h.nulFree x hx)).symm

theorem NulFree.observe_eq (h : NulFree t s) (answer : SetAnswer) :
    observe answer t = ⟨answer, s.card, s.sort (· ≤ ·)⟩ := by
  rw [observe, h.map_getStr, h.represents.size_eq]

theorem NulFree.of_subset (h : NulFree t s) {t' : SearchTree κ} {s' : Finset StdString} {x : κ}
    (represents : Represents sortKey t' s') (subset : t'.toList ⊆ x :: t.toList)
    (wellBuilt : WellBuilt x) (nulFree : 0 ∉ (getStr x).chars) : NulFree t' s' := by
  refine ⟨⟨represents, fun y hy => ?_⟩, fun y hy => ?_⟩
  · rcases List.mem_cons.mp (subset hy) with rfl | old
    · exact wellBuilt
    · exact h.wellBuilt y old
  · rcases List.mem_cons.mp (subset hy) with rfl | old
    · exact nulFree
    · exact h.nulFree y old

theorem step_eq (B : Balance) (t : SearchTree κ) (op : SetOp StdString) :
    step B t op = ofString op.key >>= fun x =>
      (fun r => (observe r.1 r.2, r.2)) <$> t.perform B (comparison x) x op := by
  cases op with
  | insert k => simp only [step, SearchTree.perform, SetOp.key, map_bind, map_pure]
  | find k => simp only [step, SearchTree.perform, SetOp.key, map_bind, map_pure]
  | erase k => simp only [step, SearchTree.perform, SetOp.key, map_bind, map_pure]

/-- On strings without NUL, an operation cannot be told from one on the set. -/
theorem step_refines (B : Balance) (h : NulFree t s) (op : SetOp StdString)
    (nulFree : 0 ∉ op.key.chars) :
    ∃ t', (step B t op).value = .ok ((SetModel.step s op).1, t') ∧
      NulFree t' (SetModel.step s op).2 := by
  obtain ⟨x, built, wellBuilt, str⟩ := ofString_spec (κ := κ) op.key
  have key : op.key = sortKey x := by rw [sortKey, str, compared_of_nulFree _ nulFree]
  obtain ⟨t', run, represents, subset⟩ :=
    h.represents.value_perform B (probes x t.toList wellBuilt h.wellBuilt) key
  rw [← str] at nulFree
  have h' := h.of_subset represents subset wellBuilt nulFree
  refine ⟨t', ?_, h'⟩
  rw [step_eq, Traced.value_bind_of_eq built, Traced.value_map, run]
  exact congrArg (fun o => Except.ok (o, t')) (h'.observe_eq _)

/-- The range constructor of a container, from strings: each is inserted with a hint at the
end. -/
def ofRange (B : Balance) : SearchTree κ → List StdString → Code (SearchTree κ)
  | t, [] => return t
  | t, str :: strs => do
      let item ← ofString str
      let (t', _) ← t.insertHint B (comparison item) t.size item
      ofRange B t' strs

theorem value_ofRange (B : Balance) (h : NulFree t s) (strs : List StdString)
    (nulFree : ∀ str ∈ strs, 0 ∉ str.chars) :
    ∃ t', (ofRange B t strs).value = .ok t' ∧ NulFree t' (s ∪ strs.toFinset) := by
  induction strs generalizing t s with
  | nil => exact ⟨t, rfl, by simpa using h⟩
  | cons str strs ih =>
      obtain ⟨clean, rest⟩ := List.forall_mem_cons.mp nulFree
      obtain ⟨x, built, wellBuilt, rfl⟩ := ofString_spec (κ := κ) str
      have probes := KeyType.probes x t.toList wellBuilt h.wellBuilt
      obtain ⟨t', inserted, represents, subset⟩ :=
        h.represents.value_insertHint B (x := x) probes t.size
      have key : sortKey x = getStr x := compared_of_nulFree _ clean
      rw [key] at represents
      obtain ⟨t'', run, final⟩ := ih (h.of_subset represents subset wellBuilt clean) rest
      refine ⟨t'', ?_, ?_⟩
      · rw [ofRange, Traced.value_bind_of_eq built, Traced.value_bind_of_eq inserted]
        exact run
      · rwa [List.toFinset_cons, Finset.union_insert, ← Finset.insert_union]

theorem value_ofRange_copy (B : Balance) {t : StringSet} (h : NulFree t s) :
    ∃ t' : SearchTree κ, (ofRange B .nil t.toList).value = .ok t' ∧ NulFree t' s := by
  obtain ⟨t', run, h'⟩ := value_ofRange (κ := κ) B nulFree_nil t.toList h.nulFree
  have contents := h.represents.toFinset_map_key
  have plain : t.toList.map sortKey = t.toList := List.map_id t.toList
  rw [plain] at contents
  rw [contents, Finset.empty_union] at h'
  exact ⟨t', run, h'⟩

end KeySet

/-! ## The template -/

/-- The variables of the timed loop of `string_bench<StrT>`. -/
structure KeyLoopState (κ : Type) where
  container : SearchTree κ
  ops : UInt64
  found : UInt64

/-- One iteration of the loop of `string_bench<StrT>`. -/
def keyIteration (B : Balance) (opsMix : Ops) (opKeys : List StdString) (st : KeyLoopState κ) :
    Code (KeyLoopState κ) := do
  let (opKey, ops) ← nextOpKey opKeys st.ops
  let key : κ ← ofString opKey
  match opsMix with
  | .lookups =>
      let iter ← st.container.find (comparison key)
      return { st with ops, found := st.found + if iter.isSome then 1 else 0 }
  | .mix =>
      if ops &&& 0x1 ≠ 0 then
        let iter ← st.container.find (comparison key)
        return { st with ops, found := st.found + if iter.isSome then 1 else 0 }
      else if ops &&& 0x10 ≠ 0 then
        let (container, _) ← st.container.eraseKey B (comparison key)
        return { st with container, ops }
      else
        let (container, _) ← st.container.insertUnique B (comparison key) key
        return { st with container, ops }

def keyLoop (B : Balance) (opsMix : Ops) (opKeys : List StdString) :
    Nat → KeyLoopState κ → Code (KeyLoopState κ)
  | 0, st => return st
  | iterations + 1, st => do
      let st ← keyIteration B opsMix opKeys st
      keyLoop B opsMix opKeys iterations st

def KeyLoopState.afterRun (iterations : Nat)
    (r : List (SetObservation StdString) × SearchTree κ) : KeyLoopState κ :=
  ⟨r.2, UInt64.ofNat iterations, hits r.1⟩

theorem keyIteration_eq (B : Balance) (opsMix : Ops) (opKeys : List StdString)
    (t : SearchTree κ) (ops found : UInt64) (opKey : StdString)
    (here : opKeys[ops.toNat % opKeys.length]? = some opKey) :
    keyIteration B opsMix opKeys ⟨t, ops, found⟩ =
      KeySet.step B t (operation opsMix (ops + 1) opKey) >>= fun r =>
        pure ⟨r.2, ops + 1, found + if isHit r.1 then 1 else 0⟩ := by
  rw [keyIteration, nextOpKey_eq here, pure_bind]
  dsimp only
  have find : (do
      let key : κ ← ofString opKey
      let iter ← t.find (comparison key)
      return ⟨t, ops + 1, found + if iter.isSome then 1 else 0⟩ : Code (KeyLoopState κ)) =
      KeySet.step B t (.find opKey) >>= fun r =>
        pure ⟨r.2, ops + 1, found + if isHit r.1 then 1 else 0⟩ := by
    simp only [KeySet.step, bind_assoc, pure_bind]
    congr 1
    funext key
    congr 1
    funext position
    cases position <;> rfl
  cases opsMix with
  | lookups => exact find
  | mix =>
      simp only [operation]
      by_cases odd : ops + 1 &&& 0x1 ≠ 0
      · simp only [if_pos odd]
        exact find
      · simp only [if_neg odd]
        by_cases bit : ops + 1 &&& 0x10 ≠ 0
        · simp only [if_pos bit, KeySet.step, bind_assoc, pure_bind]
          simp [isHit, KeySet.observe]
        · simp only [if_neg bit, KeySet.step, bind_assoc, pure_bind]
          simp [isHit, KeySet.observe]

/-- The loop performs the operations of `keydomet_bench`. -/
theorem keyLoop_eq_run (B : Balance) (opsMix : Ops) {opKeys : List StdString}
    (nonempty : opKeys ≠ []) (iterations : Nat) (t : SearchTree κ) :
    keyLoop B opsMix opKeys iterations ⟨t, 0, 0⟩ = KeyLoopState.afterRun iterations <$>
      Traced.run (KeySet.step B) t (loopOperations opsMix opKeys iterations 0) := by
  have run := loop_eq_run (KeySet.step (κ := κ) B) KeyLoopState.mk (keyLoop B opsMix opKeys)
    (fun _ => rfl) (fun _ _ => rfl) nonempty (keyIteration_eq B opsMix opKeys) iterations t 0 0
  simp only [UInt64.zero_add] at run
  exact run

/-- The loop, from a container of these strings, sees what the set does. -/
theorem value_keyLoop (B : Balance) (opsMix : Ops) (iterations : Nat) {opKeys : List StdString}
    (nonempty : opKeys ≠ []) (nulFree : ∀ k ∈ opKeys, 0 ∉ k.chars) {t : SearchTree κ}
    {s : Finset StdString} (h : KeySet.NulFree t s) :
    ∃ last,
      (Traced.run (KeySet.step B) t (loopOperations opsMix opKeys iterations 0)).value =
        .ok ((Traced.modelRun SetModel.step s (loopOperations opsMix opKeys iterations 0)).1,
          last) ∧
      (keyLoop B opsMix opKeys iterations ⟨t, 0, 0⟩).value = .ok (.afterRun iterations
        ((Traced.modelRun SetModel.step s (loopOperations opsMix opKeys iterations 0)).1, last)) ∧
      KeySet.NulFree last
        (Traced.modelRun SetModel.step s (loopOperations opsMix opKeys iterations 0)).2 := by
  obtain ⟨last, run, kept⟩ := Traced.run_refines (R := KeySet.NulFree (κ := κ))
    (fun _ _ op h legal => KeySet.step_refines B h op legal) h _
    (nulFree_loopOperations nulFree opsMix iterations 0)
  refine ⟨last, run, ?_, kept⟩
  rw [keyLoop_eq_run B opsMix nonempty, Traced.value_map, run]
  rfl

end Kdmt.Bench

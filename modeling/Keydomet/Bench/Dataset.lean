import Keydomet.Foundation.GrowingVector
import Keydomet.Bench.InputProvider

/-!
# Reading a dataset

`read_dataset` collects the different lines of a file. The lines are stored in a vector,
and a set of views of them tells whether a line is new; when the storage of the vector
moves, the views are invalid and the set is rebuilt.

The loop keeps `Indexes`: at the start of every iteration the set holds one current view of
each line that was collected.
-/

namespace Kdmt.Bench

open Foundation

/-- What `read_dataset` throws. -/
inductive DatasetError where
  /-- A `std::system_error` with the value of `errno`, and a message. -/
  | systemError (errno : Int) (message : StdString)
  | fault (reason : Fault)
deriving DecidableEq, Repr

/-- The message when a file cannot be opened, before its name. -/
def openingError : List UInt8 := "Error opening dataset file ".toUTF8.toList

structure ReadState where
  lines : GrowingVector StdString
  linesSet : ViewSet

namespace ReadState

def initial (policy : GrowthPolicy) : ReadState := ⟨.empty policy, []⟩

/-- An operation on a set of views is faulty if it would read a view of moved storage. -/
def checked {α : Type} : Option α → Checked α
  | some a => return a
  | none => throw .outOfBounds

/-- One iteration. -/
def readLine (policy : GrowthPolicy) (st : ReadState) (line : StdString) : Checked ReadState := do
  if ← checked (st.lines.contains st.linesSet line) then return st
  let lastCapacity := st.lines.capacity
  let lines := st.lines.emplaceBack policy line
  let linesSet ←
    if lastCapacity < lines.capacity then checked (lines.insertAll [] lines.views)
    else pure st.linesSet
  let linesSet ← checked (lines.insert linesSet (lines.view (lines.size - 1)))
  return { lines, linesSet }

def readLines (policy : GrowthPolicy) (st : ReadState) (input : List StdString) :
    Checked ReadState :=
  input.foldlM (readLine policy) st

end ReadState

/-- `read_dataset`. The file cannot be opened, with a value of `errno`, or has lines. -/
def readDataset (env : Environment) (policy : GrowthPolicy) (file : StdString)
    (fin : Except Int (List StdString)) (draws : Nat) :
    Except DatasetError (List StdString × Nat) := do
  match fin with
  | .error errno => throw (.systemError errno ⟨openingError ++ file.chars⟩)
  | .ok input =>
      let st ← ((ReadState.initial policy).readLines policy input).mapError .fault
      let lines := env.shuffle draws st.lines.elements
      (env.assert (lines.length = st.linesSet.length)).mapError .fault
      return (lines, draws + 1)

namespace ReadState

/-- The state after some lines: their different ones are collected, and the set has one
current view of each. -/
structure Collected (st : ReadState) (input : List StdString) : Prop where
  indexes : st.lines.Indexes st.linesSet
  mem_iff : ∀ line, line ∈ st.lines.elements ↔ line ∈ input

theorem collected_initial (policy : GrowthPolicy) : (initial policy).Collected [] where
  indexes := ⟨by simp [initial], .refl _, List.nodup_nil⟩
  mem_iff _ := Iff.rfl

/-- An iteration reads no view of moved storage, and keeps the invariant. -/
theorem Collected.readLine {st : ReadState} {input : List StdString} (h : st.Collected input)
    (policy : GrowthPolicy) (line : StdString) :
    ∃ st', st.readLine policy line = .ok st' ∧ st'.Collected (input ++ [line]) := by
  rw [ReadState.readLine, h.indexes.contains_eq]
  by_cases known : line ∈ st.lines.elements
  · refine ⟨st, by rw [decide_eq_true known]; rfl, h.indexes, ?_⟩
    intro other
    rw [List.mem_append, List.mem_singleton, h.mem_iff]
    have inInput := (h.mem_iff line).mp known
    exact ⟨.inl, fun either => either.elim id (· ▸ inInput)⟩
  · rw [decide_eq_false known]
    have nodup : (st.lines.emplaceBack policy line).elements.Nodup := by
      rw [GrowingVector.elements_emplaceBack, ← List.concat_eq_append]
      exact h.indexes.nodup.concat known
    have members : ∀ other, other ∈ (st.lines.emplaceBack policy line).elements ↔
        other ∈ input ++ [line] := by
      intro other
      rw [GrowingVector.elements_emplaceBack, List.mem_append, List.mem_append, h.mem_iff]
    have last : (st.lines.emplaceBack policy line).size - 1 = st.lines.size := by
      simp [GrowingVector.size]
    simp only [last]
    by_cases grown : st.lines.capacity < (st.lines.emplaceBack policy line).capacity
    · -- The set is rebuilt, and already has a view of the line that was added.
      obtain ⟨rebuilt, run, indexes⟩ := GrowingVector.indexes_insertAll nodup
      have here : (st.lines.emplaceBack policy line).read
          ((st.lines.emplaceBack policy line).view st.lines.size) = some line := by
        simp [GrowingVector.size]
      have again := indexes.insert_known here (by simp)
      refine ⟨⟨_, rebuilt⟩, ?_, indexes, members⟩
      rw [if_pos grown, run]
      change (checked (GrowingVector.insert _ rebuilt _) >>= _) = _
      rw [again]
      rfl
    · obtain ⟨extended, run, indexes⟩ := h.indexes.insert_back known grown
      refine ⟨⟨_, extended⟩, ?_, indexes, members⟩
      rw [if_neg grown]
      change (checked (GrowingVector.insert _ st.linesSet _) >>= _) = _
      rw [run]
      rfl

theorem Collected.readLines {st : ReadState} {before : List StdString} (h : st.Collected before)
    (policy : GrowthPolicy) (input : List StdString) :
    ∃ st', st.readLines policy input = .ok st' ∧ st'.Collected (before ++ input) := by
  induction input generalizing st before with
  | nil => exact ⟨st, rfl, by rwa [List.append_nil]⟩
  | cons line input ih =>
      obtain ⟨next, step, collected⟩ := h.readLine policy line
      obtain ⟨last, run, final⟩ := ih collected
      refine ⟨last, ?_, ?_⟩
      · rw [ReadState.readLines, List.foldlM_cons, step]
        exact run
      · rwa [List.append_assoc] at final

theorem Collected.perm_dedup {st : ReadState} {input : List StdString} (h : st.Collected input) :
    st.lines.elements.Perm input.dedup :=
  (List.perm_ext_iff_of_nodup h.indexes.nodup (List.nodup_dedup input)).mpr fun line => by
    rw [h.mem_iff, List.mem_dedup]

end ReadState

theorem readDataset_ok (env : Environment) (policy : GrowthPolicy) (file : StdString)
    (input : List StdString) (draws : Nat) :
    ∃ st result, (ReadState.initial policy).readLines policy input = .ok st ∧
      st.Collected input ∧
      readDataset env policy file (.ok input) draws = .ok (result, draws + 1) ∧
      result.Perm input.dedup := by
  obtain ⟨st, run, collected⟩ := (ReadState.collected_initial policy).readLines policy input
  have shuffled := env.shuffle_perm draws st.lines.elements
  have sizes : st.lines.elements.length = st.linesSet.length := collected.indexes.length_eq.symm
  have assertion := assert_of_true env (decide_eq_true (shuffled.length_eq.trans sizes))
  refine ⟨st, env.shuffle draws st.lines.elements, run, collected, ?_,
    shuffled.trans collected.perm_dedup⟩
  rw [readDataset, run]
  change ((env.assert _).mapError DatasetError.fault >>= _) = _
  rw [assertion]
  rfl

/-- The dataset is de-duplicated. At the start of every iteration, after the lines `before`,
the set holds one current view of each line that was collected, and these are different; no
membership test reads a view of moved storage. At the end the vector and the set have the
same size, and the result is a permutation of the different lines of the file. -/
theorem readDataset_deduplicates (env : Environment) (policy : GrowthPolicy) (file : StdString)
    (input : List StdString) (draws : Nat) :
    (∀ before after, before ++ after = input →
      ∃ st, (ReadState.initial policy).readLines policy before = .ok st ∧
        (∀ w ∈ st.linesSet, w.generation = st.lines.generation) ∧
        (st.linesSet.map View.index).Perm (List.range st.lines.size) ∧
        st.lines.elements.Nodup) ∧
    ∃ st result, (ReadState.initial policy).readLines policy input = .ok st ∧
      st.lines.size = st.linesSet.length ∧
      readDataset env policy file (.ok input) draws = .ok (result, draws + 1) ∧
      result.Perm input.dedup := by
  constructor
  · intro before _ _
    obtain ⟨st, run, collected⟩ := (ReadState.collected_initial policy).readLines policy before
    obtain ⟨current, exact, nodup⟩ := collected.indexes
    exact ⟨st, run, current, exact, nodup⟩
  · obtain ⟨st, result, run, collected, read, perm⟩ :=
      readDataset_ok env policy file input draws
    exact ⟨st, result, run, collected.indexes.length_eq.symm, read, perm⟩

/-! ## The provider of a file -/

/-- The constructor of `dataset_keys_provider`. -/
def DatasetKeysProvider.ofFile (env : Environment) (policy : GrowthPolicy) (file : StdString)
    (fin : Except Int (List StdString)) (draws : Nat) :
    Except DatasetError (DatasetKeysProvider × Nat) := do
  let (rawContent, draws) ← readDataset env policy file fin draws
  return ({ rawContent }, draws)

theorem DatasetKeysProvider.ofFile_perm (env : Environment) (policy : GrowthPolicy)
    (file : StdString) (input : List StdString) (draws : Nat) :
    ∃ rawContent, ofFile env policy file (.ok input) draws = .ok ({ rawContent }, draws + 1) ∧
      rawContent.Perm input.dedup := by
  obtain ⟨-, rawContent, -, -, read, perm⟩ := readDataset_ok env policy file input draws
  refine ⟨rawContent, ?_, perm⟩
  rw [ofFile, read]
  rfl

/-- A provider of a file with these lines has the different ones, each once. -/
theorem DatasetKeysProvider.ofFile_ok (env : Environment) (policy : GrowthPolicy)
    (file : StdString) (input : List StdString) (draws : Nat) :
    ∃ rawContent, ofFile env policy file (.ok input) draws = .ok ({ rawContent }, draws + 1) ∧
      rawContent.Nodup ∧ rawContent.length = input.toFinset.card ∧
      ∀ line ∈ rawContent, line ∈ input := by
  obtain ⟨rawContent, opened, perm⟩ := ofFile_perm env policy file input draws
  refine ⟨rawContent, opened, perm.nodup_iff.mpr (List.nodup_dedup input), ?_, ?_⟩
  · rw [perm.length_eq, List.card_toFinset]
  · intro line hline
    exact List.mem_dedup.mp (perm.mem_iff.mp hline)

end Kdmt.Bench

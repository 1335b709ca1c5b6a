import Keydomet.Bench.ContainerCache
import Keydomet.Bench.Suite

/-!
# Histories of benchmark runs

The model of the benchmark program records which lines of a file were read, and the extra
length each container of random keys was filled with. Every history of runs behaves as the model
says: a run reports the hits of its operations in a set of first keys, or throws. The keys and
the order of the operation keys are read off the static data at the end, whose lists are never
changed once they are complete.
-/

namespace Kdmt.Bench

open Foundation KeyType ListedKeys

/-! ## The model -/

/-- The first random keys with an extra length. Their key length does not matter. -/
def firstKeys (extraLen n : UInt32) : List StdString :=
  (List.range n.toNat).map (getSeqStr 0 extraLen.toNat)

/-- The files that have been read, with their lines, and the extra lengths that containers were
filled with. -/
structure SuiteModel where
  opened : StdString → Option (List StdString)
  filledBy : StrT → FilledBy

/-- What decides the result of a run. -/
inductive Expected where
  | thrown (errno : Int)
  | rand (run : BenchmarkRun) (keyLen extraLen served : UInt32)
  | dataset (run : BenchmarkRun) (lines : List StdString)

namespace SuiteModel

def initial : SuiteModel := ⟨fun _ => none, fun _ _ _ => none⟩

/-- The lines of a file: those that were read before, or those it has now. -/
def lines (m : SuiteModel) (files : FileSystem) (file : StdString) : Except Int (List StdString) :=
  match m.opened file with
  | some lines => .ok lines
  | none => files file

/-- The extra length of the keys in the container of a run with random keys. -/
def server (m : SuiteModel) (build : Build) (run : BenchmarkRun) (sso : Sso) : UInt32 :=
  (m.filledBy run.benchmark.body.strT).server (run.keyLen build) (run.extraLen build sso) run.size

def step (build : Build) (m : SuiteModel) (run : BenchmarkRun) : Expected × SuiteModel :=
  match run.benchmark.source with
  | .rand sso =>
      (.rand run (run.keyLen build) (run.extraLen build sso) (m.server build run sso),
        { m with filledBy := Function.update m.filledBy run.benchmark.body.strT fun n len =>
            if n = run.size ∧ len = run.keyLen build + run.extraLen build sso then
              some (m.server build run sso)
            else m.filledBy run.benchmark.body.strT n len })
  | .dataset =>
      match m.lines run.files datasetFile with
      | .error errno => (.thrown errno, m)
      | .ok lines =>
          (.dataset run lines, { m with opened := Function.update m.opened datasetFile lines })

/-- What a run asks for is there: the size of the container fits into 32 bits, there is an
operation key, and a file that can be read has enough different lines without NUL. -/
structure Admissible (m : SuiteModel) (run : BenchmarkRun) : Prop where
  small : run.containerSize.toUInt64.toNat < 2 ^ 32
  pos : run.opKeys ≠ 0
  enough : run.benchmark.source = .dataset → ∀ lines, m.lines run.files datasetFile = .ok lines →
    max run.size.toNat run.opKeys.toNat ≤ lines.toFinset.card ∧ ∀ line ∈ lines, 0 ∉ line.chars

end SuiteModel

/-! ## What the static data say about the model -/

/-- An entry of the cache of random containers is empty, or has the first keys with the extra
length it was filled with. -/
def FilledWith {κ : Type} [KeyType κ] (n : UInt32) : Option UInt32 → SearchTree κ → Prop
  | none, t => t = .nil
  | some e, t => HoldsKeys t (firstKeys e n)

/-- The lines of a file without NUL, each once, make a clean pool. -/
theorem DatasetKeysProvider.cleanPool {rawContent lines : List StdString}
    (content : rawContent.Perm lines.dedup) (nulFree : ∀ line ∈ lines, 0 ∉ line.chars) :
    CleanPool ({ rawContent } : DatasetKeysProvider) where
  nodup n := (content.nodup_iff.mpr (List.nodup_dedup lines)).sublist (List.take_sublist _ _)
  nulFree n s hs := by
    have line := content.mem_iff.mp (List.mem_of_mem_take hs)
    exact nulFree s (List.mem_dedup.mp line)

/-- The state of what belongs to a file whose lines were read. -/
structure OwnFile (lines : List StdString) (p : DatasetKeysProvider)
    (containers : (T : StrT) → Cache (SearchTree T.type)) (draws : Nat) : Prop where
  content : p.rawContent.Perm lines.dedup
  lists : (keyTable ({ rawContent := p.rawContent } : DatasetKeysProvider)).Sound (p, draws)
  containers : ∀ (T : StrT) (n : UInt32), n.toNat ≤ p.rawContent.length →
    ServesKeys ({ rawContent := p.rawContent } : DatasetKeysProvider) (containers T) n
      (p.rawContent.take n.toNat)

/-- The static data after a history, next to the model. -/
structure Tracks (st : Statics) (m : SuiteModel) : Prop where
  rand : ∀ k e p, st.randProviders k e = some p →
    (keyTable ({ keyLen := k, extraLen := e } : RandKeysProvider)).Sound (p, st.draws)
  entries : ∀ T n len,
    FilledWith n (m.filledBy T n len) (st.randContainers T (packed n len))
  unopened : ∀ file, m.opened file = none →
    st.datasetProviders file = none ∧ ∀ T, st.fileContainers T file = fun _ => .nil
  opened : ∀ file lines, m.opened file = some lines →
    ∃ p, st.datasetProviders file = some p ∧
      OwnFile lines p (fun T => st.fileContainers T file) st.draws

theorem tracks_initial : Tracks .initial .initial where
  rand _ _ _ h := by cases h
  entries _ _ _ := rfl
  unopened _ _ := ⟨rfl, fun _ => rfl⟩
  opened _ _ h := by cases h

/-- Providers stay, with the lists they have completed and the lines they have read. -/
structure Later (s t : Statics) : Prop where
  rand : ∀ k e p, s.randProviders k e = some p →
    ∃ q, t.randProviders k e = some q ∧ Keeps p q
  dataset : ∀ file p, s.datasetProviders file = some p →
    ∃ q, t.datasetProviders file = some q ∧ Keeps p q ∧ q.rawContent = p.rawContent

theorem Later.refl (s : Statics) : Later s s where
  rand _ _ p h := ⟨p, h, .refl p⟩
  dataset _ p h := ⟨p, h, .refl p, rfl⟩

theorem Later.trans {s t u : Statics} (first : Later s t) (second : Later t u) : Later s u where
  rand k e p h := by
    obtain ⟨q, hq, keeps⟩ := first.rand k e p h
    obtain ⟨r, hr, keeps'⟩ := second.rand k e q hq
    exact ⟨r, hr, keeps.trans keeps'⟩
  dataset file p h := by
    obtain ⟨q, hq, keeps, same⟩ := first.dataset file p h
    obtain ⟨r, hr, keeps', same'⟩ := second.dataset file q hq
    exact ⟨r, hr, keeps.trans keeps', same'.trans same⟩

/-! ## Results -/

/-- The operation keys that a provider has stored for a run. -/
def BenchmarkRun.storedKeys {π : Type} [KeysProvider π] [ListedKeys π] (run : BenchmarkRun)
    (p : π) : List StdString :=
  stored p ⟨run.opKeys, .benchOps⟩

/-- The number that a run reports, from its operation keys and the keys in its container. -/
def BenchmarkRun.reported (run : BenchmarkRun) (opKeys keys : List StdString) : UInt64 :=
  hits (Traced.modelRun SetModel.step keys.toFinset
    (loopOperations run.benchmark.opsMix opKeys run.iterations 0)).1

/-- The static data explain a result: by the operation keys that are stored for the run. -/
def Statics.Explains (last : Statics) : Expected → RunResult → Prop
  | .thrown errno, result => result = .thrown errno ⟨openingError ++ datasetFile.chars⟩
  | .rand run keyLen extraLen served, result =>
      ∃ p, last.randProviders keyLen extraLen = some p ∧
        (run.storedKeys p).Perm (firstKeys extraLen run.opKeys) ∧
        result = .found (run.reported (run.storedKeys p) (firstKeys served run.size))
  | .dataset run lines, result =>
      ∃ p, last.datasetProviders datasetFile = some p ∧ p.rawContent.Perm lines.dedup ∧
        max run.size.toNat run.opKeys.toNat ≤ p.rawContent.length ∧
        (run.storedKeys p).Perm (p.rawContent.take run.opKeys.toNat) ∧
        result = .found (run.reported (run.storedKeys p) (p.rawContent.take run.size.toNat))

theorem length_firstKeys (extraLen n : UInt32) : (firstKeys extraLen n).length = n.toNat := by
  rw [firstKeys, List.length_map, List.length_range]

theorem Later.explains {s t : Statics} (later : Later s t) {expected : Expected}
    {result : RunResult} (h : s.Explains expected result) : t.Explains expected result := by
  cases expected with
  | thrown errno => exact h
  | rand run keyLen extraLen served =>
      obtain ⟨p, hp, perm, rfl⟩ := h
      obtain ⟨q, hq, keeps⟩ := later.rand _ _ p hp
      have same : run.storedKeys q = run.storedKeys p :=
        keeps _ (perm.length_eq.trans (length_firstKeys _ _))
      exact ⟨q, hq, same ▸ perm, by rw [same]⟩
  | dataset run lines =>
      obtain ⟨p, hp, content, enough, perm, rfl⟩ := h
      obtain ⟨q, hq, keeps, raw⟩ := later.dataset _ p hp
      have length := List.length_take_of_le ((Nat.le_max_right _ _).trans enough)
      have same : run.storedKeys q = run.storedKeys p := keeps _ (perm.length_eq.trans length)
      refine ⟨q, hq, ?_⟩
      rw [raw, same]
      exact ⟨content, enough, perm, rfl⟩

/-! ## Inputs -/

theorem sound_draws {π : Type} [KeysProvider π] [ListedKeys π] {p q : π} {draws : Nat}
    (h : (keyTable p).Sound (q, draws)) (draws' : Nat) : (keyTable p).Sound (q, draws') :=
  ⟨h.inv, h.correct⟩

theorem later_setRandProvider {st : Statics} {k e : UInt32} {q : RandKeysProvider}
    (keeps : ∀ p, st.randProviders k e = some p → Keeps p q) :
    Later st (st.setRandProvider k e q) where
  rand k' e' p hp := by
    by_cases same : k' = k ∧ e' = e
    · obtain ⟨rfl, rfl⟩ := same
      exact ⟨q, if_pos ⟨rfl, rfl⟩, keeps p hp⟩
    · exact ⟨p, (if_neg same).trans hp, .refl p⟩
  dataset _ p hp := ⟨p, hp, .refl p, rfl⟩

theorem Tracks.setRandProvider {st : Statics} {m : SuiteModel} (h : Tracks st m) {k e : UInt32}
    {q : RandKeysProvider} {draws : Nat}
    (sound : (keyTable ({ keyLen := k, extraLen := e } : RandKeysProvider)).Sound (q, draws)) :
    Tracks (st.setRandProvider k e q) m := by
  refine ⟨?_, h.entries, h.unopened, h.opened⟩
  intro k' e' p hp
  simp only [Statics.setRandProvider] at hp ⊢
  by_cases same : k' = k ∧ e' = e
  · obtain ⟨rfl, rfl⟩ := same
    rw [if_pos ⟨rfl, rfl⟩] at hp
    obtain rfl := Option.some.inj hp
    exact sound_draws sound _
  · rw [if_neg same] at hp
    exact h.rand k' e' p hp

/-- An input with random keys refers to the provider of its lengths. -/
theorem Tracks.getRandInput {st : Statics} {m : SuiteModel} (h : Tracks st m) (T : StrT)
    (k e : UInt32) :
    ∃ q st', st.getRandInput T k e = (⟨q, st'.randContainers T⟩, st') ∧
      st'.randProviders k e = some q ∧ Tracks st' m ∧ Later st st' := by
  rw [Statics.getRandInput]
  cases existing : st.randProviders k e with
  | some q => exact ⟨q, st, rfl, existing, h, .refl st⟩
  | none =>
      have fresh : (keyTable ({ keyLen := k, extraLen := e } : RandKeysProvider)).Sound
          ({ keyLen := k, extraLen := e }, st.draws) :=
        sound_of_fresh (fun r => KeyCaches.entry_new r.use _) st.draws
      refine ⟨_, _, rfl, if_pos ⟨rfl, rfl⟩, h.setRandProvider fresh, later_setRandProvider ?_⟩
      intro p hp
      rw [existing] at hp
      cases hp

/-- The keys in the container of a run with random keys. -/
theorem Tracks.servesKeys {st : Statics} {m : SuiteModel} (h : Tracks st m) (T : StrT)
    (k e n : UInt32) :
    ServesKeys ({ keyLen := k, extraLen := e } : RandKeysProvider) (st.randContainers T) n
      (firstKeys ((m.filledBy T).server k e n) n) := by
  have entry := h.entries T n (k + e)
  rw [FilledBy.server]
  cases filler : m.filledBy T n (k + e) with
  | some e' =>
      rw [filler] at entry
      exact .inl entry
  | none =>
      rw [filler] at entry
      exact .inr ⟨entry, rfl⟩

theorem Tracks.putRandInput {st : Statics} {m : SuiteModel} (h : Tracks st m) {T : StrT}
    {k e n opKeys served : UInt32} {q : RandKeysProvider} {opsMix : Ops} {iterations : Nat}
    {found : UInt64} {input : InputProvider T.type RandKeysProvider} {draws : Nat}
    (ran : Ran ({ keyLen := k, extraLen := e } : RandKeysProvider) q (st.randContainers T) opsMix
      iterations n opKeys (firstKeys served n) found input draws) :
    Tracks (st.putRandInput T k e input draws)
      { m with filledBy := Function.update m.filledBy T fun n' len =>
          if n' = n ∧ len = k + e then some served else m.filledBy T n' len } := by
  have h' := h.setRandProvider ran.lists
  refine ⟨fun k e p hp => sound_draws (h'.rand k e p hp) draws, ?_, h.unopened, ?_⟩
  · intro T' n' len
    by_cases same : T' = T
    · subst same
      simp only [Statics.putRandInput, Function.update_self]
      by_cases entry : n' = n ∧ len = k + e
      · obtain ⟨rfl, rfl⟩ := entry
        rw [if_pos ⟨rfl, rfl⟩]
        exact ran.entry
      · rw [if_neg entry, ran.elsewhere _ fun equal => entry (packed_inj.mp equal)]
        exact h.entries T' n' len
    · simp only [Statics.putRandInput, Function.update_of_ne same]
      exact h.entries T' n' len
  · intro file lines opened
    obtain ⟨p, hp, own⟩ := h.opened file lines opened
    exact ⟨p, hp, own.content, sound_draws own.lists draws, own.containers⟩

theorem later_putRandInput {st : Statics} {T : StrT} {k e : UInt32} {q : RandKeysProvider}
    {input : InputProvider T.type RandKeysProvider} (existing : st.randProviders k e = some q)
    (keeps : Keeps q input.keyProvider) (draws : Nat) :
    Later st (st.putRandInput T k e input draws) := by
  have later : Later st (st.setRandProvider k e input.keyProvider) := by
    apply later_setRandProvider
    intro p hp
    rw [existing] at hp
    obtain rfl := Option.some.inj hp
    exact keeps
  exact ⟨later.rand, later.dataset⟩

theorem later_setDatasetProvider {st : Statics} {file : StdString} {q : DatasetKeysProvider}
    (keeps : ∀ p, st.datasetProviders file = some p →
      Keeps p q ∧ q.rawContent = p.rawContent) :
    Later st (st.setDatasetProvider file q) where
  rand _ _ p hp := ⟨p, hp, .refl p⟩
  dataset file' p hp := by
    by_cases same : file' = file
    · subst same
      exact ⟨q, Function.update_self _ _ _, keeps p hp⟩
    · exact ⟨p, (Function.update_of_ne same _ _).trans hp, .refl p, rfl⟩

/-- A file that cannot be read, and was not read before: the exception names it. -/
theorem Tracks.getDatasetInput_throws {st : Statics} {m : SuiteModel} (h : Tracks st m)
    (build : Build) {files : FileSystem} (T : StrT) {file : StdString} {errno : Int}
    (unreadable : m.lines files file = .error errno) :
    st.getDatasetInput build files T file =
      .error (.systemError errno ⟨openingError ++ file.chars⟩) := by
  rw [SuiteModel.lines] at unreadable
  cases opened : m.opened file with
  | some lines =>
      rw [opened] at unreadable
      cases unreadable
  | none =>
      rw [opened] at unreadable
      dsimp only at unreadable
      rw [Statics.getDatasetInput, (h.unopened file opened).1, unreadable]
      rfl

/-- An input with the keys of a file refers to its provider, which has read it once. -/
theorem Tracks.getDatasetInput_reads {st : Statics} {m : SuiteModel} (h : Tracks st m)
    (build : Build) {files : FileSystem} (T : StrT) {file : StdString} {lines : List StdString}
    (readable : m.lines files file = .ok lines) :
    ∃ q st', st.getDatasetInput build files T file = .ok (⟨q, st'.fileContainers T file⟩, st') ∧
      st'.datasetProviders file = some q ∧ Later st st' ∧
      Tracks st' { m with opened := Function.update m.opened file (some lines) } := by
  rw [SuiteModel.lines] at readable
  rw [Statics.getDatasetInput]
  cases opened : m.opened file with
  | some lines' =>
      rw [opened] at readable
      cases readable
      obtain ⟨q, existing, own⟩ := h.opened file lines opened
      rw [existing, ← opened, Function.update_eq_self]
      exact ⟨q, st, rfl, existing, .refl st, h⟩
  | none =>
      rw [opened] at readable
      dsimp only at readable
      obtain ⟨none, empty⟩ := h.unopened file opened
      obtain ⟨rawContent, read, perm⟩ := DatasetKeysProvider.ofFile_perm build.toEnvironment
        build.policy file lines st.draws
      have later : Later st (st.setDatasetProvider file { rawContent }) := by
        apply later_setDatasetProvider
        intro p hp
        rw [none] at hp
        cases hp
      rw [none, readable]
      dsimp only
      rw [read]
      refine ⟨{ rawContent }, { st.setDatasetProvider file { rawContent } with
        draws := st.draws + 1 }, rfl, Function.update_self _ _ _,
        ⟨later.rand, later.dataset⟩, ?_⟩
      refine ⟨fun k e p hp => sound_draws (h.rand k e p hp) _, h.entries, ?_, ?_⟩
      · intro file' unopened
        by_cases same : file' = file
        · subst same
          simp only [Function.update_self] at unopened
          cases unopened
        · simp only [Function.update_of_ne same] at unopened
          obtain ⟨none', empty'⟩ := h.unopened file' unopened
          exact ⟨(Function.update_of_ne same _ _).trans none', empty'⟩
      · intro file' lines' opened'
        by_cases same : file' = file
        · subst same
          simp only [Function.update_self] at opened'
          obtain rfl := Option.some.inj opened'
          refine ⟨_, Function.update_self _ _ _, perm, ?_, fun T n _ => .inr ⟨?_, rfl⟩⟩
          · exact sound_of_fresh (fun r => KeyCaches.entry_new r.use _) _
          · exact congrFun (empty T) _
        · simp only [Function.update_of_ne same] at opened'
          obtain ⟨p, hp, own⟩ := h.opened file' lines' opened'
          exact ⟨p, (Function.update_of_ne same _ _).trans hp, own.content,
            sound_draws own.lists _, own.containers⟩

theorem SameKeys.rawContent_eq {p q : DatasetKeysProvider} (h : SameKeys p q) :
    q.rawContent = p.rawContent := by
  have same := congrFun h.pool_eq (max q.rawContent.length p.rawContent.length)
  change q.rawContent.take _ = p.rawContent.take _ at same
  rwa [List.take_of_length_le (Nat.le_max_left _ _),
    List.take_of_length_le (Nat.le_max_right _ _)] at same

theorem OwnFile.ran {lines : List StdString} {q : DatasetKeysProvider}
    {containers : (T : StrT) → Cache (SearchTree T.type)} {draws draws' : Nat}
    (h : OwnFile lines q containers draws) {T : StrT} {n opKeys : UInt32} {opsMix : Ops}
    {iterations : Nat} {found : UInt64} {input : InputProvider T.type DatasetKeysProvider}
    (ran : Ran ({ rawContent := q.rawContent } : DatasetKeysProvider) q (containers T)
      opsMix iterations n opKeys (q.rawContent.take n.toNat) found input draws') :
    input.keyProvider.rawContent = q.rawContent ∧
      OwnFile lines input.keyProvider (Function.update containers T input.containerCache)
        draws' := by
  have raw : input.keyProvider.rawContent = q.rawContent := ran.lists.inv.rawContent_eq
  refine ⟨raw, ?_, ?_, ?_⟩
  · rw [raw]
    exact h.content
  · rw [raw]
    exact ran.lists
  · rw [raw]
    intro T' n' served
    by_cases same : T' = T
    · subst same
      rw [Function.update_self]
      by_cases entry : n' = n
      · subst entry
        exact .inl ran.entry
      · rw [ServesKeys, ran.elsewhere _ fun equal => entry (packed_inj.mp equal).1]
        exact h.containers T' n' served
    · rw [Function.update_of_ne same]
      exact h.containers T' n' served

theorem fileContainers_putDatasetInput (st : Statics) (T : StrT) (file : StdString)
    (input : InputProvider T.type DatasetKeysProvider) (draws : Nat) :
    (fun T' => (st.putDatasetInput T file input draws).fileContainers T' file) =
      Function.update (fun T' => st.fileContainers T' file) T input.containerCache := by
  funext T'
  simp only [Statics.putDatasetInput]
  by_cases same : T' = T
  · subst same
    rw [Function.update_self, Function.update_self, Function.update_self]
  · rw [Function.update_of_ne same, Function.update_of_ne same]

theorem fileContainers_putDatasetInput_of_ne (st : Statics) (T T' : StrT) {file file' : StdString}
    (other : file' ≠ file) (input : InputProvider T.type DatasetKeysProvider) (draws : Nat) :
    (st.putDatasetInput T file input draws).fileContainers T' file' =
      st.fileContainers T' file' := by
  simp only [Statics.putDatasetInput]
  by_cases same : T' = T
  · subst same
    rw [Function.update_self, Function.update_of_ne other]
  · rw [Function.update_of_ne same]

theorem Tracks.putDatasetInput {st : Statics} {m : SuiteModel} (h : Tracks st m) {T : StrT}
    {file : StdString} {lines : List StdString} {n opKeys : UInt32} {q : DatasetKeysProvider}
    {opsMix : Ops} {iterations : Nat} {found : UInt64}
    {input : InputProvider T.type DatasetKeysProvider} {draws : Nat}
    (opened : m.opened file = some lines) (existing : st.datasetProviders file = some q)
    (ran : Ran ({ rawContent := q.rawContent } : DatasetKeysProvider) q (st.fileContainers T file)
      opsMix iterations n opKeys (q.rawContent.take n.toNat) found input draws) :
    Tracks (st.putDatasetInput T file input draws) m ∧
      Later st (st.putDatasetInput T file input draws) := by
  obtain ⟨p, hp, own⟩ := h.opened file lines opened
  rw [existing] at hp
  obtain rfl := Option.some.inj hp
  obtain ⟨raw, own'⟩ := own.ran ran
  have later : Later st (st.setDatasetProvider file input.keyProvider) := by
    apply later_setDatasetProvider
    intro p hp
    rw [existing] at hp
    obtain rfl := Option.some.inj hp
    exact ⟨ran.keeps, raw⟩
  refine ⟨⟨fun k e p hp => sound_draws (h.rand k e p hp) _, h.entries, ?_, ?_⟩,
    ⟨later.rand, later.dataset⟩⟩
  · intro file' unopened
    have other : file' ≠ file := by
      rintro rfl
      rw [opened] at unopened
      cases unopened
    obtain ⟨none, empty⟩ := h.unopened file' unopened
    exact ⟨(Function.update_of_ne other _ _).trans none,
      fun T' => (fileContainers_putDatasetInput_of_ne st T T' other _ _).trans (empty T')⟩
  · intro file' lines' opened'
    by_cases same : file' = file
    · subst same
      rw [opened] at opened'
      obtain rfl := Option.some.inj opened'
      refine ⟨_, Function.update_self _ _ _, ?_⟩
      rw [fileContainers_putDatasetInput]
      exact own'
    · obtain ⟨p, hp, own⟩ := h.opened file' lines' opened'
      refine ⟨p, (Function.update_of_ne same _ _).trans hp, own.content,
        sound_draws own.lists _, ?_⟩
      intro T' n' served
      rw [fileContainers_putDatasetInput_of_ne st T T' same]
      exact own.containers T' n' served

/-! ## Runs -/

/-- Each body reports the hits of its operations in the set of its keys. -/
theorem Body.value_run {π : Type} [KeysProvider π] [ListedKeys π] {p q : π} {draws : Nat}
    {n m : UInt32} {keys : List StdString} {containerSize opKeysNum : Int64} (body : Body)
    {cache : Cache (SearchTree body.strT.type)} (clean : CleanPool p)
    (sound : (keyTable p).Sound (q, draws)) (env : Environment)
    (size : containerSize.toUInt64 = n.toUInt64) (number : opKeysNum.toUInt64.toUInt32 = m)
    (pos : m ≠ 0) (served : Supplies p n) (served' : Supplies p m) (nodup : keys.Nodup)
    (length : keys.length = n.toNat) (serves : ServesKeys p cache n keys) (opsMix : Ops)
    (iterations : Nat) :
    ∃ found input draws',
      (body.run env opsMix iterations containerSize opKeysNum ⟨q, cache⟩ draws).value =
        .ok (found, input, draws') ∧
      Ran p q cache opsMix iterations n m keys found input draws' := by
  cases body with
  | string =>
      exact value_stringBody StdString clean sound env size number pos served served' nodup length
        serves opsMix iterations
  | stringView =>
      exact value_stringBody StringView clean sound env size number pos served served' nodup length
        serves opsMix iterations
  | keydomet N =>
      exact value_keydometBody clean sound env size number pos served served' nodup length serves
        opsMix iterations

theorem nodup_firstKeys (extraLen n : UInt32) : (firstKeys extraLen n).Nodup :=
  List.nodup_range.map (getSeqStr_injective 0 extraLen.toNat)

theorem SuiteModel.Admissible.size_eq {m : SuiteModel} {run : BenchmarkRun}
    (h : m.Admissible run) : run.containerSize.toUInt64 = run.size.toUInt64 := by
  apply UInt64.toNat_inj.mp
  rw [UInt32.toNat_toUInt64, BenchmarkRun.size, toNat_toUInt32_of_lt h.small]

/-- A run does what the model says, and the static data explain its result. -/
theorem step_explained (build : Build) {st : Statics} {m : SuiteModel} (h : Tracks st m)
    {run : BenchmarkRun} (legal : m.Admissible run) :
    ∃ result next, (st.step build run).value = .ok (result, next) ∧
      Tracks next (m.step build run).2 ∧ Later st next ∧
      next.Explains (m.step build run).1 result := by
  have size := legal.size_eq
  rw [Statics.step, SuiteModel.step]
  cases source : run.benchmark.source with
  | rand sso =>
      obtain ⟨q, st', input, existing, h', later⟩ :=
        h.getRandInput run.benchmark.body.strT (run.keyLen build) (run.extraLen build sso)
      have clean := RandKeysProvider.cleanPool
        { keyLen := run.keyLen build, extraLen := run.extraLen build sso }
      obtain ⟨found, input', draws, value, ran⟩ := run.benchmark.body.value_run clean
        (h'.rand _ _ q existing) build.toEnvironment size rfl legal.pos trivial trivial
        (nodup_firstKeys _ _) (length_firstKeys _ _) (h'.servesKeys _ _ _ _)
        run.benchmark.opsMix run.iterations
      refine ⟨.found found, _, ?_, h'.putRandInput ran,
        later.trans (later_putRandInput existing ran.keeps draws), ?_⟩
      · dsimp only
        rw [input]
        dsimp only
        rw [Traced.value_bind_of_eq value]
        rfl
      · have perm := stored_perm ran.lists (r := ⟨run.opKeys, .benchOps⟩) trivial ran.complete
        exact ⟨input'.keyProvider, if_pos ⟨rfl, rfl⟩, perm, congrArg RunResult.found ran.found_eq⟩
  | dataset =>
      cases reads : m.lines run.files datasetFile with
      | error errno =>
          refine ⟨_, st, ?_, h, .refl st, rfl⟩
          dsimp only
          rw [h.getDatasetInput_throws build run.benchmark.body.strT reads]
          rfl
      | ok lines =>
          obtain ⟨enough, nulFree⟩ := legal.enough source lines reads
          obtain ⟨q, st', input, existing, later, h'⟩ :=
            h.getDatasetInput_reads build run.benchmark.body.strT reads
          have opened : Function.update m.opened datasetFile (some lines) datasetFile =
            some lines := Function.update_self _ _ _
          obtain ⟨p, hp, own⟩ := h'.opened datasetFile lines opened
          rw [existing] at hp
          obtain rfl := Option.some.inj hp
          have length : max run.size.toNat run.opKeys.toNat ≤ q.rawContent.length := by
            rwa [own.content.length_eq, ← List.card_toFinset]
          have served := (Nat.le_max_left _ _).trans length
          have served' := (Nat.le_max_right _ _).trans length
          have clean := DatasetKeysProvider.cleanPool own.content nulFree
          obtain ⟨found, input', draws, value, ran⟩ := run.benchmark.body.value_run clean
            own.lists build.toEnvironment size rfl legal.pos served served'
            (clean.nodup run.size.toNat) (List.length_take_of_le served)
            (own.containers _ _ served) run.benchmark.opsMix run.iterations
          obtain ⟨h'', later'⟩ := h'.putDatasetInput opened existing ran
          refine ⟨.found found, _, ?_, h'', later.trans later', ?_⟩
          · dsimp only
            rw [input]
            dsimp only
            rw [Traced.value_bind_of_eq value]
            rfl
          · have perm := stored_perm ran.lists (r := ⟨run.opKeys, .benchOps⟩) served' ran.complete
            have raw : input'.keyProvider.rawContent = q.rawContent :=
              ran.lists.inv.rawContent_eq
            refine ⟨input'.keyProvider, Function.update_self _ _ _, ?_⟩
            rw [raw]
            exact ⟨own.content, length, perm, congrArg RunResult.found ran.found_eq⟩

/-- Every history of runs does what the model says. A run throws exactly if the dataset file
could never be read so far; otherwise it reports the hits of its operations in a set of first
keys. The operation keys are an order of the first keys that stays the same in all runs. -/
theorem benchmark_runs_explained (build : Build) (runs : List BenchmarkRun)
    (legal : Traced.Legal SuiteModel.Admissible (SuiteModel.step build) .initial runs) :
    ∃ results last,
      (Traced.run (Statics.step build) .initial runs).value = .ok (results, last) ∧
      List.Forall₂ last.Explains (Traced.modelRun (SuiteModel.step build) .initial runs).1
        results := by
  have step : ∀ st m run, Tracks st m → m.Admissible run →
      ∃ result next, (st.step build run).value = .ok (result, next) ∧
        Tracks next (m.step build run).2 ∧ Later st next ∧
        next.Explains (m.step build run).1 result :=
    fun _ _ _ h legal => step_explained build h legal
  obtain ⟨results, last, ran, -, -, explained⟩ := Traced.run_explained step .refl
    (fun _ _ _ => Later.trans) (fun _ _ _ _ later => later.explains) tracks_initial runs legal
  exact ⟨results, last, ran, explained⟩

/-- The dataset file cannot be opened at first, and then has two different lines; a run with
three random keys is in between. -/
theorem benchmark_runs_explained_late_dataset :
    ∃ results last,
      (Traced.run (Statics.step .plain) .initial
        [⟨bmStringLookupsDataset, 2, 1, 4, fun _ => .error 2⟩,
          ⟨bmKeydometAllOpsSsoOff .size64bit, 3, 2, 5, fun _ => .error 2⟩,
          ⟨bmKeydometAllOpsDataset .size32bit, 2, 2, 3, fun _ =>
            .ok [⟨[97]⟩, ⟨[98]⟩, ⟨[97]⟩]⟩]).value = .ok (results, last) ∧
      List.Forall₂ last.Explains
        (Traced.modelRun (SuiteModel.step .plain) .initial
          [⟨bmStringLookupsDataset, 2, 1, 4, fun _ => .error 2⟩,
            ⟨bmKeydometAllOpsSsoOff .size64bit, 3, 2, 5, fun _ => .error 2⟩,
            ⟨bmKeydometAllOpsDataset .size32bit, 2, 2, 3, fun _ =>
              .ok [⟨[97]⟩, ⟨[98]⟩, ⟨[97]⟩]⟩]).1 results := by
  refine benchmark_runs_explained .plain _ ⟨⟨by decide, by decide, ?_⟩,
    ⟨by decide, by decide, nofun⟩, ⟨by decide, by decide, ?_⟩, trivial⟩
  · intro _ lines reads
    cases reads
  · intro _ lines reads
    cases reads
    decide

end Kdmt.Bench

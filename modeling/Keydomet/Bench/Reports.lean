import Keydomet.Bench.Hits
import Keydomet.Bench.SuiteRuns

/-!
# Comparing the reports of benchmarks

Benchmarks are compared with one another by the keys they find. As long as all runs agree on the
key length, each container is filled with its own keys, and what a run reports depends on its
source of keys, its operations, and its numbers alone: not on the type of the strings, the size
of the prefix, or the runs before it. Full passes of lookups find the same number of keys in all
of them.
-/

namespace Kdmt.Bench

open Foundation KeyType ListedKeys

/-! ## Runs with one key length -/

/-- A run whose random keys have this key length, and whose dataset has these lines. -/
structure BenchmarkRun.Conforms (build : Build) (keyLen : UInt32) (lines : List StdString)
    (run : BenchmarkRun) : Prop where
  keyLen_eq : run.keyLen build = keyLen
  small : run.containerSize.toUInt64.toNat < 2 ^ 32
  pos : run.opKeys ≠ 0
  readable : run.benchmark.source = .dataset → run.files datasetFile = .ok lines
  enough : run.benchmark.source = .dataset →
    max run.size.toNat run.opKeys.toNat ≤ lines.toFinset.card

def BenchmarkRun.ownKeys (build : Build) (lines : List StdString) (run : BenchmarkRun) :
    Expected :=
  match run.benchmark.source with
  | .rand sso => .rand run (run.keyLen build) (run.extraLen build sso) (run.extraLen build sso)
  | .dataset => .dataset run lines

/-- Only these lines were read, and containers were filled with keys of this length. -/
structure SuiteModel.Uniform (keyLen : UInt32) (lines : List StdString) (m : SuiteModel) : Prop
    where
  opened : ∀ lines', m.opened datasetFile = some lines' → lines' = lines
  filledBy : ∀ T n len e, m.filledBy T n len = some e → len = keyLen + e

theorem uniform_initial (keyLen : UInt32) (lines : List StdString) :
    SuiteModel.initial.Uniform keyLen lines where
  opened _ h := by cases h
  filledBy _ _ _ _ h := by cases h

section Uniform

variable {build : Build} {keyLen : UInt32} {lines : List StdString} {m : SuiteModel}
  {run : BenchmarkRun}

theorem SuiteModel.Uniform.lines_eq (h : m.Uniform keyLen lines)
    (conforms : run.Conforms build keyLen lines) (source : run.benchmark.source = .dataset) :
    m.lines run.files datasetFile = .ok lines := by
  rw [SuiteModel.lines]
  cases opened : m.opened datasetFile with
  | some lines' => rw [h.opened lines' opened]
  | none => exact conforms.readable source

/-- The container of a run with random keys has its own keys: an entry of the same total length
was filled with the same extra length. -/
theorem SuiteModel.Uniform.server_eq (h : m.Uniform keyLen lines)
    (conforms : run.Conforms build keyLen lines) (sso : Sso) :
    m.server build run sso = run.extraLen build sso := by
  rw [SuiteModel.server, FilledBy.server_eq_iff]
  intro e filled
  have total := h.filledBy _ _ _ e filled
  rw [conforms.keyLen_eq] at total
  exact (UInt32.add_right_inj keyLen).mp total.symm

theorem SuiteModel.Uniform.step (h : m.Uniform keyLen lines)
    (conforms : run.Conforms build keyLen lines) :
    (m.step build run).1 = run.ownKeys build lines ∧
      (m.step build run).2.Uniform keyLen lines := by
  rw [SuiteModel.step, BenchmarkRun.ownKeys]
  cases source : run.benchmark.source with
  | rand sso =>
      dsimp only
      rw [h.server_eq conforms sso]
      refine ⟨rfl, h.opened, ?_⟩
      intro T n len e filled
      by_cases same : T = run.benchmark.body.strT
      · subst same
        simp only [Function.update_self] at filled
        by_cases entry : n = run.size ∧ len = run.keyLen build + run.extraLen build sso
        · rw [if_pos entry] at filled
          obtain rfl := Option.some.inj filled
          rw [entry.2, conforms.keyLen_eq]
        · rw [if_neg entry] at filled
          exact h.filledBy _ n len e filled
      · simp only [Function.update_of_ne same] at filled
        exact h.filledBy T n len e filled
  | dataset =>
      dsimp only
      rw [h.lines_eq conforms source]
      refine ⟨rfl, ?_, h.filledBy⟩
      intro lines' opened
      simp only [Function.update_self] at opened
      exact (Option.some.inj opened).symm

theorem SuiteModel.Uniform.admissible (h : m.Uniform keyLen lines)
    (conforms : run.Conforms build keyLen lines) (nulFree : ∀ line ∈ lines, 0 ∉ line.chars) :
    m.Admissible run := by
  refine ⟨conforms.small, conforms.pos, ?_⟩
  intro source lines' reads
  rw [h.lines_eq conforms source] at reads
  obtain rfl := Except.ok.inj reads
  exact ⟨conforms.enough source, nulFree⟩

end Uniform

/-! ## What a report depends on -/

/-- The work of a run: all but the type of its strings. -/
structure Work where
  source : Source
  opsMix : Ops
  containerSize : Int64
  opKeysNum : Int64
  iterations : Nat

def BenchmarkRun.work (run : BenchmarkRun) : Work where
  source := run.benchmark.source
  opsMix := run.benchmark.opsMix
  containerSize := run.containerSize
  opKeysNum := run.opKeysNum
  iterations := run.iterations

def Work.run (work : Work) : BenchmarkRun where
  benchmark := ⟨work.source, .string, work.opsMix⟩
  containerSize := work.containerSize
  opKeysNum := work.opKeysNum
  iterations := work.iterations
  files _ := .ok []

/-- The report of some work, by the lists of keys that are stored. -/
def Statics.report (last : Statics) (build : Build) (work : Work) : UInt64 :=
  let run := work.run
  match work.source with
  | .rand sso =>
      match last.randProviders (run.keyLen build) (run.extraLen build sso) with
      | some p => run.reported (run.storedKeys p) (firstKeys (run.extraLen build sso) run.size)
      | none => 0
  | .dataset =>
      match last.datasetProviders datasetFile with
      | some p => run.reported (run.storedKeys p) (p.rawContent.take run.size.toNat)
      | none => 0

/-- Full passes of lookups report so many keys. -/
def Work.PassesFind (work : Work) (found : UInt64) : Prop :=
  work.opsMix = .lookups → work.iterations < 2 ^ 64 → ∀ q,
    work.iterations = q * work.run.opKeys.toNat →
      found.toNat = q * min work.run.size.toNat work.run.opKeys.toNat

theorem passesFind_reported {π : Type} [KeysProvider π] [ListedKeys π] {p : π}
    (clean : CleanPool p) {work : Work} {opKeys : List StdString}
    (served : Supplies p work.run.size) (served' : Supplies p work.run.opKeys)
    (pos : work.run.opKeys ≠ 0) (perm : opKeys.Perm (pool p work.run.opKeys.toNat)) :
    work.PassesFind (work.run.reported opKeys (pool p work.run.size.toNat)) := by
  intro lookups small q passes
  have length : opKeys.length = work.run.opKeys.toNat := by
    rw [perm.length_eq, length_pool p _ served']
  have nonempty : opKeys ≠ [] := by
    rintro rfl
    exact pos (UInt32.toNat_inj.mp length.symm)
  have width : (UInt64.ofNat work.iterations).toNat = work.iterations :=
    UInt64.toNat_ofNat_of_lt' small
  have full : (UInt64.ofNat work.iterations).toNat = q * opKeys.length := by
    rw [width, length, passes]
  have found := hits_full_passes nonempty (pool p work.run.size.toNat).toFinset full
  rw [countP_pool clean served served' perm, width] at found
  rw [BenchmarkRun.reported]
  change (hits (Traced.modelRun _ _ (loopOperations work.opsMix _ work.iterations 0)).1).toNat = _
  rw [lookups, found]

/-- A result that is explained by its own keys is the report of its work. -/
theorem Statics.Explains.eq_report {last : Statics} {build : Build} {keyLen : UInt32}
    {lines : List StdString} {run : BenchmarkRun} {result : RunResult}
    (h : last.Explains (run.ownKeys build lines) result)
    (conforms : run.Conforms build keyLen lines) (nulFree : ∀ line ∈ lines, 0 ∉ line.chars) :
    run.work.PassesFind (last.report build run.work) ∧
      .found (last.report build run.work) = result := by
  rw [BenchmarkRun.ownKeys] at h
  rw [Statics.report]
  cases source : run.benchmark.source with
  | rand sso =>
      rw [source] at h
      obtain ⟨p, hp, perm, rfl⟩ := h
      have here : run.work.source = .rand sso := source
      have provider : last.randProviders (run.work.run.keyLen build)
        (run.work.run.extraLen build sso) = some p := hp
      simp only [here, provider]
      refine ⟨?_, rfl⟩
      exact passesFind_reported (RandKeysProvider.cleanPool { keyLen := 0, extraLen := _ })
        trivial trivial conforms.pos perm
  | dataset =>
      rw [source] at h
      obtain ⟨p, hp, content, enough, perm, rfl⟩ := h
      have here : run.work.source = .dataset := source
      simp only [here, hp]
      refine ⟨?_, rfl⟩
      exact passesFind_reported (DatasetKeysProvider.cleanPool content nulFree)
        ((Nat.le_max_left _ _).trans enough) ((Nat.le_max_right _ _).trans enough) conforms.pos perm

/-- Benchmarks of the same work report the same number of keys found, for strings, string views
and keydomets of every size, whatever ran before, as long as all runs have one key length and
the dataset file can be read. Full passes of lookups find as many keys as are both in the
container and among the operation keys, in every pass. -/
theorem reports_depend_on_work (build : Build) (keyLen : UInt32) (lines : List StdString)
    (nulFree : ∀ line ∈ lines, 0 ∉ line.chars) (runs : List BenchmarkRun)
    (conforms : ∀ run ∈ runs, run.Conforms build keyLen lines) :
    ∃ report : Work → UInt64, ∃ last,
      (Traced.run (Statics.step build) .initial runs).value =
        .ok (runs.map fun run => .found (report run.work), last) ∧
      ∀ run ∈ runs, run.work.PassesFind (report run.work) := by
  have step : ∀ m : SuiteModel, m.Uniform keyLen lines → ∀ run ∈ runs,
      (m.step build run).1 = run.ownKeys build lines ∧ (m.step build run).2.Uniform keyLen lines :=
    fun m h run hrun => h.step (conforms run hrun)
  have legal : Traced.Legal SuiteModel.Admissible (SuiteModel.step build) .initial runs := by
    apply Traced.legal_of_inv _ (uniform_initial keyLen lines)
    intro m h run hrun
    exact ⟨h.admissible (conforms run hrun) nulFree, (step m h run hrun).2⟩
  obtain ⟨results, last, ran, explained⟩ := benchmark_runs_explained build runs legal
  rw [Traced.modelRun_eq_map step (uniform_initial keyLen lines), List.forall₂_map_left_iff]
    at explained
  have reports : List.Forall₂ (fun run result =>
      run.work.PassesFind (last.report build run.work) ∧
        .found (last.report build run.work) = result) runs results := by
    refine ((List.forall₂_and_left _ _).mpr ⟨conforms, explained⟩).imp ?_
    exact fun run result h => h.2.eq_report h.1 nulFree
  obtain ⟨passes, equal⟩ := (List.forall₂_and_left _ _).mp reports
  have same := List.forall₂_map_left_iff.mpr equal
  rw [List.forall₂_eq_eq_eq] at same
  exact ⟨last.report build, last, same ▸ ran, passes⟩

/-- Two passes over three operation keys in a container of two, with a file of three lines. -/
def twoOfThree (benchmark : Benchmark) : BenchmarkRun :=
  ⟨benchmark, 2, 3, 6, fun _ => .ok [⟨[97]⟩, ⟨[98]⟩, ⟨[97]⟩, ⟨[99]⟩]⟩

/-- Such passes by strings, keydomets and views. -/
theorem reports_depend_on_work_two_of_three :
    ∃ report : Work → UInt64, ∃ last,
      (Traced.run (Statics.step .plain) .initial ([bmWarmupSsoOn, bmStringLookupsSsoOff,
        bmKeydometLookupsSsoOff .size32bit, bmStringViewLookupsDataset].map twoOfThree)).value =
        .ok (([bmWarmupSsoOn, bmStringLookupsSsoOff, bmKeydometLookupsSsoOff .size32bit,
          bmStringViewLookupsDataset].map twoOfThree).map fun run => .found (report run.work),
            last) ∧
      ∀ run ∈ [bmWarmupSsoOn, bmStringLookupsSsoOff, bmKeydometLookupsSsoOff .size32bit,
          bmStringViewLookupsDataset].map twoOfThree, run.work.PassesFind (report run.work) := by
  refine reports_depend_on_work .plain 1 [⟨[97]⟩, ⟨[98]⟩, ⟨[97]⟩, ⟨[99]⟩] (by decide) _ ?_
  intro run hrun
  obtain ⟨b, -, rfl⟩ := List.mem_map.mp hrun
  have small : (2 : Int64).toUInt64.toNat < 2 ^ 32 := by decide
  have pos : (3 : Int64).toUInt64.toUInt32 ≠ 0 := by decide
  exact ⟨rfl, small, pos, fun _ => rfl, fun _ => le_rfl⟩

end Kdmt.Bench

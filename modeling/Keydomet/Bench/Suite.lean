import Keydomet.Bench.Bodies

/-!
# The benchmark program

The benchmarks of the program share static data: one provider of keys for each pair of lengths
and for each file, and for each type of keys the containers that were filled so far. A run of a
benchmark looks up its input there, runs its body, and leaves the lists and the container that
were missing. The dataset file is read when it is first asked for, so a run may also throw. The
exception is the caller's to catch, and leaves the static data as they were.

The model of the program records only which lines of a file were read, and with which extra
length each container of random keys was filled. Every history of runs behaves as the model says
(`step_explained`), where the results are explained by the lists of keys that are stored in the
end.
-/

namespace Kdmt.Bench

open Foundation KeyType ListedKeys

/-! ## Static data -/

/-- What depends on the platform, besides the environment of a run. -/
structure Build extends Environment where
  /-- The growth of the storage of a vector. -/
  policy : GrowthPolicy
  /-- `calc_key_len`, a quotient of two floating-point logarithms that is rounded up. -/
  calcKeyLen : UInt64 → UInt64
  /-- `sizeof(std::string)`. -/
  sizeofString : UInt64

/-- Keys of one letter, and strings of 32 bytes. -/
def Build.plain : Build where
  toEnvironment := .plain
  policy := .doubling
  calcKeyLen _ := 1
  sizeofString := 32

/-- The files as they can be read at some time: a value of `errno`, or lines. -/
abbrev FileSystem := StdString → Except Int (List StdString)

/-- The types of keys for which the benchmarks instantiate `input_provider`. -/
inductive StrT where
  | string
  | keydomet (N : PrefixSize)
deriving DecidableEq, Repr

def StrT.type : StrT → Type
  | string => StdString
  | keydomet N => Keydomet StdString N

instance : (T : StrT) → KeyType T.type
  | .string => inferInstanceAs (KeyType StdString)
  | .keydomet N => inferInstanceAs (KeyType (Keydomet StdString N))

/-- The static variables of `get_rand_keys_provider` and `get_dataset_keys_provider`, and those
of the instances of `get_rand_input` and `get_dataset_input`, with the number of shuffles made. -/
structure Statics where
  randProviders : UInt32 → UInt32 → Option RandKeysProvider
  datasetProviders : StdString → Option DatasetKeysProvider
  randContainers : (T : StrT) → Cache (SearchTree T.type)
  fileContainers : (T : StrT) → StdString → Cache (SearchTree T.type)
  draws : Nat

namespace Statics

def initial : Statics := ⟨fun _ _ => none, fun _ => none, fun _ _ => .nil, fun _ _ _ => .nil, 0⟩

def setRandProvider (self : Statics) (keyLen extraLen : UInt32) (p : RandKeysProvider) : Statics :=
  { self with
    randProviders := fun k e =>
      if k = keyLen ∧ e = extraLen then some p else self.randProviders k e }

/-- `get_rand_input`. -/
def getRandInput (self : Statics) (T : StrT) (keyLen extraLen : UInt32) :
    InputProvider T.type RandKeysProvider × Statics :=
  match self.randProviders keyLen extraLen with
  | some provider => (⟨provider, self.randContainers T⟩, self)
  | none =>
      let provider : RandKeysProvider := { keyLen, extraLen }
      (⟨provider, self.randContainers T⟩, self.setRandProvider keyLen extraLen provider)

/-- The static data after an input that refers to them was used. -/
def putRandInput (self : Statics) (T : StrT) (keyLen extraLen : UInt32)
    (input : InputProvider T.type RandKeysProvider) (draws : Nat) : Statics :=
  { self.setRandProvider keyLen extraLen input.keyProvider with
    randContainers := Function.update self.randContainers T input.containerCache, draws }

def setDatasetProvider (self : Statics) (file : StdString) (p : DatasetKeysProvider) : Statics :=
  { self with datasetProviders := Function.update self.datasetProviders file (some p) }

/-- `get_dataset_input`. The constructor of the provider may throw, and then there is none. -/
def getDatasetInput (build : Build) (files : FileSystem) (self : Statics) (T : StrT)
    (file : StdString) : Except DatasetError (InputProvider T.type DatasetKeysProvider × Statics) :=
  match self.datasetProviders file with
  | some provider => return (⟨provider, self.fileContainers T file⟩, self)
  | none => do
      let (provider, draws) ← DatasetKeysProvider.ofFile build.toEnvironment build.policy file
        (files file) self.draws
      return (⟨provider, self.fileContainers T file⟩,
        { self.setDatasetProvider file provider with draws })

def putDatasetInput (self : Statics) (T : StrT) (file : StdString)
    (input : InputProvider T.type DatasetKeysProvider) (draws : Nat) : Statics :=
  { self.setDatasetProvider file input.keyProvider with
    fileContainers := Function.update self.fileContainers T
      (Function.update (self.fileContainers T) file input.containerCache)
    draws }

end Statics

/-! ## The benchmarks -/

/-- The enumeration `sso`: whether keys fit into a small string. -/
inductive Sso where
  | use
  | exceed
deriving DecidableEq, Repr

/-- The instances of the two templates. -/
inductive Body where
  | string
  | stringView
  | keydomet (N : PrefixSize)
deriving DecidableEq, Repr

def Body.strT : Body → StrT
  | string | stringView => .string
  | keydomet N => .keydomet N

/-- Run the body, which leaves an input. -/
def Body.run {π : Type} [KeysProvider π] (env : Environment) (opsMix : Ops) (iterations : Nat)
    (containerSize opKeysNum : Int64) :
    (self : Body) → InputProvider self.strT.type π → Nat →
      Code (UInt64 × InputProvider self.strT.type π × Nat)
  | .string => stringBody StdString env opsMix iterations containerSize opKeysNum
  | .stringView => stringBody StringView env opsMix iterations containerSize opKeysNum
  | .keydomet _ => keydometBody env opsMix iterations containerSize opKeysNum

/-- Where a benchmark takes its keys from. -/
inductive Source where
  | rand (sso : Sso)
  | dataset
deriving DecidableEq, Repr

/-- A benchmark function. -/
structure Benchmark where
  source : Source
  body : Body
  opsMix : Ops
deriving DecidableEq, Repr

def datasetFile : StdString := ⟨"datasets/2.5M keys.csv".toUTF8.toList⟩

def bmWarmupSsoOn : Benchmark := ⟨.rand .use, .string, .lookups⟩
def bmWarmupSsoOff : Benchmark := ⟨.rand .exceed, .string, .lookups⟩
def bmWarmupDataset : Benchmark := ⟨.dataset, .string, .lookups⟩
def bmKeydometAllOpsSsoOn (N : PrefixSize) : Benchmark := ⟨.rand .use, .keydomet N, .mix⟩
def bmKeydometAllOpsSsoOff (N : PrefixSize) : Benchmark := ⟨.rand .exceed, .keydomet N, .mix⟩
def bmKeydometAllOpsDataset (N : PrefixSize) : Benchmark := ⟨.dataset, .keydomet N, .mix⟩
def bmKeydometLookupsDataset (N : PrefixSize) : Benchmark := ⟨.dataset, .keydomet N, .lookups⟩
def bmKeydometLookupsSsoOn (N : PrefixSize) : Benchmark := ⟨.rand .use, .keydomet N, .lookups⟩
def bmKeydometLookupsSsoOff (N : PrefixSize) : Benchmark := ⟨.rand .exceed, .keydomet N, .lookups⟩
def bmStringAllOpsSsoOn : Benchmark := ⟨.rand .use, .string, .mix⟩
def bmStringAllOpsSsoOff : Benchmark := ⟨.rand .exceed, .string, .mix⟩
def bmStringLookupsSsoOn : Benchmark := ⟨.rand .use, .string, .lookups⟩
def bmStringLookupsSsoOff : Benchmark := ⟨.rand .exceed, .string, .lookups⟩
def bmStringAllOpsDataset : Benchmark := ⟨.dataset, .string, .mix⟩
def bmStringLookupsDataset : Benchmark := ⟨.dataset, .string, .lookups⟩
def bmStringViewLookups : Benchmark := ⟨.rand .use, .stringView, .lookups⟩
def bmStringViewAllOps : Benchmark := ⟨.rand .use, .stringView, .mix⟩
def bmStringViewLookupsDataset : Benchmark := ⟨.dataset, .stringView, .lookups⟩
def bmStringViewAllOpsDataset : Benchmark := ⟨.dataset, .stringView, .mix⟩

/-- A run of a benchmark, with the arguments and the number of iterations it is registered with,
and the files as they are then. -/
structure BenchmarkRun where
  benchmark : Benchmark
  containerSize : Int64
  opKeysNum : Int64
  iterations : Nat
  files : FileSystem

namespace BenchmarkRun

def size (self : BenchmarkRun) : UInt32 := self.containerSize.toUInt64.toUInt32

def opKeys (self : BenchmarkRun) : UInt32 := self.opKeysNum.toUInt64.toUInt32

/-- The key length of `get_rand_bench_args`. -/
def keyLen (self : BenchmarkRun) (build : Build) : UInt32 :=
  (build.calcKeyLen (max self.containerSize self.opKeysNum).toUInt64).toUInt32

/-- The extra length of `get_rand_bench_args`, which is converted to 32 bits for
`get_rand_input`. -/
def extraLen (self : BenchmarkRun) (build : Build) : Sso → UInt32
  | .use => 0
  | .exceed => (build.sizeofString - (self.keyLen build).toUInt64).toUInt32

end BenchmarkRun

/-- What a run reports, or the exception that it throws. -/
inductive RunResult where
  | found (lookups : UInt64)
  | thrown (errno : Int) (message : StdString)
deriving DecidableEq, Repr

/-- A run of a benchmark. -/
def Statics.step (build : Build) (self : Statics) (run : BenchmarkRun) :
    Code (RunResult × Statics) :=
  let body := run.benchmark.body
  let bench {π : Type} [KeysProvider π] (input : InputProvider body.strT.type π) (draws : Nat) :=
    body.run build.toEnvironment run.benchmark.opsMix run.iterations run.containerSize
      run.opKeysNum input draws
  match run.benchmark.source with
  | .rand sso => do
      let (input, self) := self.getRandInput body.strT (run.keyLen build) (run.extraLen build sso)
      let (found, input, draws) ← bench input self.draws
      return (.found found,
        self.putRandInput body.strT (run.keyLen build) (run.extraLen build sso) input draws)
  | .dataset =>
      match self.getDatasetInput build run.files body.strT datasetFile with
      | .error (.systemError errno message) => return (.thrown errno message, self)
      | .error (.fault reason) => .fault reason
      | .ok (input, self) => do
          let (found, input, draws) ← bench input self.draws
          return (.found found, self.putDatasetInput body.strT datasetFile input draws)

end Kdmt.Bench

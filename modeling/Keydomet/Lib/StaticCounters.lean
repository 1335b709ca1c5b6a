import Keydomet.Foundation.Counters
import Keydomet.Lib.Statistics

/-!
# The static counters over a sequence of comparisons

A program that makes comparisons between keydomets of any string types. Its state holds
the static counters of all classes, as 64-bit memory, and the keydomets; a call performs
the increments that its comparison logs.

`increments_compare` decides which counter a comparison increments. Every sequence of calls
then changes the counters as a `tally` of one increment for each call does.
-/

namespace Kdmt

open Foundation

/-- The counter an effect increments, if it increments one. -/
def Effect.counter? : Effect → Option (KeydometClass × Counter)
  | .increment cls counter => some (cls, counter)
  | .read _ _ => none

def increments (log : List Effect) : List (KeydometClass × Counter) :=
  log.filterMap Effect.counter?

theorem increments_append (first second : List Effect) :
    increments (first ++ second) = increments first ++ increments second :=
  List.filterMap_append

theorem increments_eq_nil {log : List Effect} (h : ∀ e ∈ log, e.isComparison = false) :
    increments log = [] := by
  rw [increments, List.filterMap_eq_nil_iff]
  intro e he
  cases e with
  | read operand position => rfl
  | increment cls counter => cases h _ he

namespace Keydomet

variable {σ τ : Type} [StrImp σ] [StrImp τ] {N : PrefixSize}

/-- The two strings agree on their first `N` bytes, and no NUL is among them. -/
def ShareFilledPrefix (a : Keydomet σ N) (b : Keydomet τ N) : Prop :=
  N.toNat ≤ agreement (rawBytes a.str) (rawBytes b.str)

instance (a : Keydomet σ N) (b : Keydomet τ N) : Decidable (a.ShareFilledPrefix b) :=
  inferInstanceAs (Decidable (_ ≤ _))

theorem shareFilledPrefix_iff {a : Keydomet σ N} {b : Keydomet τ N} (ha : a.Valid)
    (hb : b.Valid) :
    a.ShareFilledPrefix b ↔
      a.prefixRep = b.prefixRep ∧ a.prefixRep.stringShorterThanPrefix = false := by
  rw [ha, hb, PrefixRep.encode_inj (zero_notMem_cstr _) (zero_notMem_cstr _), ← Bool.not_eq_true,
    PrefixRep.encode_short_iff (zero_notMem_cstr _), Nat.not_lt, ShareFilledPrefix,
    le_agreement_iff]
  constructor
  · rintro ⟨left, -, same⟩
    exact ⟨same, left⟩
  · rintro ⟨same, left⟩
    refine ⟨left, ?_, same⟩
    have lengths := congrArg List.length same
    rw [List.length_take, List.length_take] at lengths
    unfold cstr at left lengths
    omega

/-- The counter that a comparison is charged to, of the class of its left operand. -/
def chargedCounter (a : Keydomet σ N) (b : Keydomet τ N) : Counter :=
  if a.ShareFilledPrefix b then .usedString else .usedPrefix

/-- `compare` increments one counter of the class of its left operand. -/
theorem increments_compare {a : Keydomet σ N} {b : Keydomet τ N} (ha : a.Valid) (hb : b.Valid)
    {r : Int} {log : List Effect} (run : a.compare b = .ok r log) :
    increments log = [(⟨StrImp.id σ, N⟩, a.chargedCounter b)] := by
  obtain ⟨counter, reads, rfl, usedString, silent⟩ := log_compare run
  rw [← shareFilledPrefix_iff ha hb] at usedString
  have charged : counter = a.chargedCounter b := by
    rw [chargedCounter]
    by_cases shared : a.ShareFilledPrefix b
    · rw [if_pos shared, usedString.mpr shared]
    · rw [if_neg shared]
      cases counter with
      | usedPrefix => rfl
      | usedString => exact absurd (usedString.mp rfl) shared
  rw [← charged, ← List.singleton_append, increments_append, increments_eq_nil silent]
  rfl

end Keydomet

/-! ## A program that compares keydomets -/

inductive ComparisonOp where
  | compare
  | lt
  | eq
deriving DecidableEq, Repr

/-- What a comparison returns: the integer of `compare`, or the truth value of an operator. -/
inductive ComparisonResult where
  | order (r : Int)
  | truth (holds : Bool)
deriving DecidableEq, Repr

/-- The result of a comparison operation whose `compare` returned `r`. -/
def ComparisonOp.result (r : Int) : ComparisonOp → ComparisonResult
  | compare => .order r
  | lt => .truth (decide (r < 0))
  | eq => .truth (decide (r = 0))

section Program

variable {ι κ : Type} (S : ι → Type) [∀ i, StrImp (S i)] (N : PrefixSize)

/-- A keydomet of one of a family of string types, with the prefix that its constructor
gave it. -/
structure AnyKeydomet where
  kind : ι
  keydomet : Keydomet (S kind) N
  valid : keydomet.Valid

variable {S N}

namespace AnyKeydomet

/-- A keydomet as its constructor leaves it. -/
def ofStr (kind : ι) (s : S kind) : AnyKeydomet S N where
  kind
  keydomet := .mkValid N s
  valid := Keydomet.mkValid_valid N s

/-- The constructor returns it, for a terminated string. -/
theorem value_ofStr {kind : ι} {s : S kind} (terminated : Terminated s) :
    (Keydomet.ofStr N s).value = .ok (ofStr kind s : AnyKeydomet S N).keydomet :=
  Keydomet.value_ofStr terminated

def cls (k : AnyKeydomet S N) : KeydometClass := ⟨StrImp.id (S k.kind), N⟩

def call (a b : AnyKeydomet S N) : ComparisonOp → Code ComparisonResult
  | .compare => return .order (← a.keydomet.compare b.keydomet)
  | .lt => return .truth (← a.keydomet.lt b.keydomet)
  | .eq => return .truth (← a.keydomet.eq b.keydomet)

/-- All three operations are one call of `compare`. -/
theorem call_eq (a b : AnyKeydomet S N) (op : ComparisonOp) :
    a.call b op = op.result <$> a.keydomet.compare b.keydomet := by
  cases op <;> cases run : a.keydomet.compare b.keydomet <;>
    simp [call, Keydomet.lt, Keydomet.eq, run, ComparisonOp.result]

end AnyKeydomet

/-- A call between two of the keydomets of a program. -/
structure ComparisonCall (κ : Type) where
  op : ComparisonOp
  left : κ
  right : κ
deriving DecidableEq, Repr

variable (κ S N) in
/-- The static counters of all classes, and the keydomets of a program. -/
structure Program where
  counters : Counters (KeydometClass × Counter)
  keydomets : κ → AnyKeydomet S N

namespace Program

/-- A program that has built a keydomet of each of these strings. -/
def ofStrs (N : PrefixSize) (counters : Counters (KeydometClass × Counter)) {kind : κ → ι}
    (strs : (k : κ) → S (kind k)) : Program κ S N :=
  ⟨counters, fun k => .ofStr (kind k) (strs k)⟩

/-- One call. The counters are memory, on which the logged increments are performed. -/
def step (p : Program κ S N) (c : ComparisonCall κ) : Code (ComparisonResult × Program κ S N) :=
  match (p.keydomets c.left).call (p.keydomets c.right) c.op with
  | .ok result log => .ok (result, { p with counters := p.counters.tally (increments log) }) log
  | .fault reason => .fault reason

/-- The counter that a call is charged to. -/
def charged (p : Program κ S N) (c : ComparisonCall κ) : KeydometClass × Counter :=
  ((p.keydomets c.left).cls,
    (p.keydomets c.left).keydomet.chargedCounter (p.keydomets c.right).keydomet)

/-- A call increments exactly the counter it is charged to, in its log and in memory, and
leaves every keydomet as it was. -/
theorem step_eq_ok {p next : Program κ S N} {c : ComparisonCall κ} {result : ComparisonResult}
    {log : List Effect} (run : p.step c = .ok (result, next) log) :
    increments log = [p.charged c] ∧
      next = { p with counters := p.counters.increment (p.charged c) } := by
  rw [step, AnyKeydomet.call_eq] at run
  cases compared : (p.keydomets c.left).keydomet.compare (p.keydomets c.right).keydomet with
  | fault reason =>
      rw [compared] at run
      cases run
  | ok r reads =>
      have one := Keydomet.increments_compare (p.keydomets c.left).valid
        (p.keydomets c.right).valid compared
      rw [compared, Traced.map_ok] at run
      cases run
      rw [one]
      exact ⟨rfl, rfl⟩

theorem exists_step_eq_ok (p : Program κ S N)
    (terminated : ∀ k, Terminated (p.keydomets k).keydomet.str) (c : ComparisonCall κ) :
    ∃ result next log, p.step c = .ok (result, next) log := by
  obtain ⟨r, value, -⟩ := Keydomet.compare_spec (p.keydomets c.left).valid
    (p.keydomets c.right).valid (terminated c.left) (terminated c.right)
  obtain ⟨log, run⟩ := Traced.value_eq_ok.mp value
  rw [step, AnyKeydomet.call_eq, run, Traced.map_ok]
  exact ⟨_, _, _, rfl⟩

theorem run_eq_ok {p last : Program κ S N} {calls : List (ComparisonCall κ)}
    {results : List ComparisonResult} {log : List Effect}
    (run : Traced.run step p calls = .ok (results, last) log) :
    increments log = calls.map p.charged ∧
      last = { p with counters := p.counters.tally (calls.map p.charged) } := by
  induction calls generalizing p results log with
  | nil =>
      cases run
      exact ⟨rfl, rfl⟩
  | cons c calls ih =>
      obtain ⟨result, next, rest, first, second, head, tail, rfl, rfl⟩ :=
        Traced.run_cons_eq_ok.mp run
      obtain ⟨one, rfl⟩ := step_eq_ok head
      obtain ⟨others, rfl⟩ := ih tail
      rw [increments_append, one, others]
      exact ⟨rfl, rfl⟩

theorem exists_run_eq_ok (p : Program κ S N)
    (terminated : ∀ k, Terminated (p.keydomets k).keydomet.str)
    (calls : List (ComparisonCall κ)) :
    ∃ results last log, Traced.run step p calls = .ok (results, last) log := by
  induction calls generalizing p with
  | nil => exact ⟨[], p, [], rfl⟩
  | cons c calls ih =>
      obtain ⟨result, next, first, head⟩ := p.exists_step_eq_ok terminated c
      obtain ⟨-, rfl⟩ := step_eq_ok head
      obtain ⟨rest, last, second, tail⟩ :=
        ih { p with counters := p.counters.increment (p.charged c) } terminated
      have run : Traced.run step p (c :: calls) = .ok (result :: rest, last) (first ++ second) :=
        Traced.run_cons_eq_ok.mpr ⟨_, _, rest, first, second, head, tail, rfl, rfl⟩
      exact ⟨_, last, _, run⟩

/-- Every call is charged to one of the two counters of a class. -/
theorem countP_charged_add (p : Program κ S N) (calls : List (ComparisonCall κ)) :
    (calls.map p.charged).countP (fun x => x.2 = .usedPrefix) +
      (calls.map p.charged).countP (fun x => x.2 = .usedString) = calls.length := by
  have other : ∀ x : KeydometClass × Counter,
      (x.2 = .usedString) = ¬ (decide (x.2 = .usedPrefix) = true) := by
    rintro ⟨cls, counter⟩
    cases counter <;> simp
  simp only [other, ← List.length_eq_countP_add_countP, List.length_map]

theorem countP_charged_usedString (p : Program κ S N) (calls : List (ComparisonCall κ)) :
    (calls.map p.charged).countP (fun x => x.2 = .usedString) =
      calls.countP fun c => decide <|
        (p.keydomets c.left).keydomet.ShareFilledPrefix (p.keydomets c.right).keydomet := by
  rw [List.countP_map]
  apply List.countP_congr
  intro c _
  simp [charged, Keydomet.chargedCounter]

/-- What a sequence of calls does to the counters: `before` and `last` are the states around
it, and `log` its effects. -/
structure Conserves (before : Program κ S N) (calls : List (ComparisonCall κ))
    (last : Program κ S N) (log : List Effect) : Prop where
  keydomets : last.keydomets = before.keydomets
  /-- One increment for each call, in the class of its left operand. -/
  increments_eq : increments log = calls.map before.charged
  /-- Every counter wraps around at 64 bits, and counts its increments. -/
  counters : ∀ i, last.counters i = before.counters i + UInt64.ofNat ((increments log).count i)
  /-- Together, the counters of all classes count the calls. -/
  total : ∀ classes : Finset KeydometClass,
    (∀ c ∈ calls, (before.keydomets c.left).cls ∈ classes) →
    ∑ cls ∈ classes, ((increments log).count (cls, .usedPrefix) +
      (increments log).count (cls, .usedString)) = calls.length
  /-- The counters of string comparisons count the calls on strings that share a filled
  prefix. -/
  usedString : ∀ classes : Finset KeydometClass,
    (∀ c ∈ calls, (before.keydomets c.left).cls ∈ classes) →
    ∑ cls ∈ classes, (increments log).count (cls, .usedString) =
      calls.countP fun c => decide <|
        (before.keydomets c.left).keydomet.ShareFilledPrefix (before.keydomets c.right).keydomet

/-- Comparison statistics are conserved. A call that returns increments exactly one counter,
in the class of its left operand, and changes nothing else; so does every sequence of calls,
from any values of the counters. Sequences of calls on terminated strings return. -/
theorem comparison_statistics_conserved (p : Program κ S N) :
    (∀ c result next log, p.step c = .ok (result, next) log →
      next = { p with counters := p.counters.increment (p.charged c) }) ∧
    (∀ calls results last log, Traced.run step p calls = .ok (results, last) log →
      Conserves p calls last log) ∧
    ((∀ k, Terminated (p.keydomets k).keydomet.str) → ∀ calls,
      ∃ results last log, Traced.run step p calls = .ok (results, last) log) := by
  refine ⟨fun c result next log run => (step_eq_ok run).2, ?_, p.exists_run_eq_ok⟩
  intro calls results last log run
  obtain ⟨one, rfl⟩ := run_eq_ok run
  have covered : ∀ classes : Finset KeydometClass,
      (∀ c ∈ calls, (p.keydomets c.left).cls ∈ classes) →
      ∀ x ∈ increments log, x.1 ∈ classes := by
    intro classes h x hx
    rw [one] at hx
    obtain ⟨c, hc, rfl⟩ := List.mem_map.mp hx
    exact h c hc
  refine ⟨rfl, one, ?_, ?_, ?_⟩
  · intro i
    rw [one]
    exact Counters.tally_apply _ _ _
  · intro classes h
    have usedPrefix := sum_count_pair Counter.usedPrefix (covered classes h)
    have usedString := sum_count_pair Counter.usedString (covered classes h)
    rw [Finset.sum_add_distrib, usedPrefix, usedString, one]
    exact countP_charged_add p calls
  · intro classes h
    have usedString := sum_count_pair Counter.usedString (covered classes h)
    rw [usedString, one]
    exact countP_charged_usedString p calls

/-- The string types of an element of a container and of a lookup key. -/
def ElementOrLookup : Bool → Type
  | false => StdString
  | true => StdStringRef

instance : (lookup : Bool) → StrImp (ElementOrLookup lookup)
  | false => inferInstanceAs (StrImp StdString)
  | true => inferInstanceAs (StrImp StdStringRef)

/-- The strings "abc" of an element, and "abd" of a lookup key. -/
def abcOrAbd : (lookup : Bool) → ElementOrLookup lookup
  | false => (⟨[97, 98, 99]⟩ : StdString)
  | true => (⟨⟨[97, 98, 100]⟩⟩ : StdStringRef)

/-- An element and a lookup key with the same prefix of two bytes are compared in both argument
orders, and the element with itself, when one of the counters is about to wrap around. -/
theorem comparison_statistics_conserved_two_types :
    ∃ results last log,
      Traced.run step (ofStrs .size16bit (fun i => if i.2 = .usedString then -1 else 0) abcOrAbd)
        [⟨.lt, false, true⟩, ⟨.eq, true, false⟩, ⟨.compare, false, false⟩] =
          .ok (results, last) log ∧
      last.counters (⟨.stdString, .size16bit⟩, .usedString) = 1 ∧
      last.counters (⟨.constStdStringRef, .size16bit⟩, .usedString) = 0 ∧
      last.counters (⟨.stdString, .size16bit⟩, .usedPrefix) = 0 := by
  obtain ⟨-, conserves, returns⟩ := comparison_statistics_conserved
    (ofStrs .size16bit (fun i => if i.2 = .usedString then -1 else 0) abcOrAbd)
  have terminated : ∀ lookup, Terminated (abcOrAbd lookup) := by decide
  obtain ⟨results, last, log, run⟩ := returns terminated
    [⟨.lt, false, true⟩, ⟨.eq, true, false⟩, ⟨.compare, false, false⟩]
  have conserved := conserves _ _ _ _ run
  refine ⟨results, last, log, run, ?_, ?_, ?_⟩ <;>
    rw [conserved.counters, conserved.increments_eq] <;> decide

end Program

end Program

end Kdmt

import Keydomet.Foundation.SearchCost
import Keydomet.Lib.StaticCounters

/-!
# How often strings are compared

A prefix saves the comparison of two strings unless both fill it with the same bytes. In a set
of keydomets an operation therefore compares its key as a string with some of the elements that
share its prefix, and with no others.

When different strings have different prefixes, those of the keys that are looked up included,
the only element left is the key itself: an operation whose key is in the set and fills the
prefix compares strings twice, once with the element on the left and once with the key on the
left, and any other operation does not (`string_comparisons_exact`). In general the number of
elements with the same prefix bounds the number of comparisons (`string_comparisons_bounded`).
-/

namespace Kdmt

open Foundation

/-- The increment of a counter of string comparisons. -/
def Effect.isStringComparison : Effect → Bool
  | .increment _ .usedString => true
  | _ => false

theorem beq_eq_false_of_silent {cls : KeydometClass} {counter : Counter} {e : Effect}
    (silent : e.isComparison = false) : (e == .increment cls counter) = false := by
  cases e with
  | read operand position => rfl
  | increment cls counter => cases silent

theorem isStringComparison_eq_false {e : Effect} (silent : e.isComparison = false) :
    e.isStringComparison = false := by
  cases e with
  | read operand position => rfl
  | increment cls counter => cases silent

/-- Two strings fill the prefix, with the same bytes. -/
def SharePrefix (N : PrefixSize) (s t : StdString) : Prop :=
  N.toNat ≤ s.chars.length ∧ N.toNat ≤ t.chars.length ∧
    s.chars.take N.toNat = t.chars.take N.toNat

instance (N : PrefixSize) (s t : StdString) : Decidable (SharePrefix N s t) :=
  inferInstanceAs (Decidable (_ ∧ _ ∧ _))

theorem countP_eq_countP_increments {p : Effect → Bool}
    (silent : ∀ e : Effect, e.isComparison = false → p e = false) (log : List Effect) :
    log.countP p = (increments log).countP fun i => p (.increment i.1 i.2) := by
  induction log with
  | nil => rfl
  | cons e log ih =>
      cases e with
      | read operand position =>
          rw [List.countP_cons, silent _ rfl, ih]
          rfl
      | increment cls counter =>
          rw [List.countP_cons, ih]
          exact (List.countP_cons (a := (cls, counter))).symm

theorem SharePrefix.symm {N : PrefixSize} {s t : StdString} (h : SharePrefix N s t) :
    SharePrefix N t s :=
  ⟨h.2.1, h.1, h.2.2.symm⟩

variable {σ τ : Type} [StrImp σ] [StrImp τ] {N : PrefixSize}

namespace Keydomet

theorem shareFilledPrefix_iff_sharePrefix {a : Keydomet σ N} {b : Keydomet τ N} :
    a.ShareFilledPrefix b ↔ SharePrefix N (cPart a.str) (cPart b.str) :=
  le_agreement_iff

theorem counts_lt {p : Effect → Bool} (silent : ∀ e : Effect, e.isComparison = false → p e = false)
    {a : Keydomet σ N} {b : Keydomet τ N} (ha : a.Valid) (hb : b.Valid) :
    (a.lt b).Counts p
      (if p (.increment ⟨StrImp.id σ, N⟩ (a.chargedCounter b)) then 1 else 0) := by
  have compare : (a.compare b).Counts p
      (if p (.increment ⟨StrImp.id σ, N⟩ (a.chargedCounter b)) then 1 else 0) := by
    intro r log run
    rw [countP_eq_countP_increments silent, increments_compare ha hb run, List.countP_singleton]
  exact compare.map _

/-- A comparison is charged as one of strings exactly if the operands share a prefix. -/
theorem charges_string_iff {a : Keydomet σ N} {b : Keydomet τ N} :
    a.chargedCounter b = .usedString ↔ SharePrefix N (cPart a.str) (cPart b.str) := by
  rw [← shareFilledPrefix_iff_sharePrefix, chargedCounter]
  split <;> simp [*]

theorem counts_lt_usedString {a : Keydomet σ N} {b : Keydomet τ N} (ha : a.Valid) (hb : b.Valid)
    (cls : KeydometClass) :
    (a.lt b).Counts (· == .increment cls .usedString)
      (if SharePrefix N (cPart a.str) (cPart b.str) ∧ cls = ⟨StrImp.id σ, N⟩ then 1 else 0) := by
  refine (counts_lt (fun e => beq_eq_false_of_silent) ha hb).congr (if_congr ?_ rfl rfl)
  rw [beq_iff_eq, Effect.increment.injEq, charges_string_iff, and_comm, eq_comm]

theorem counts_lt_string {a : Keydomet σ N} {b : Keydomet τ N} (ha : a.Valid) (hb : b.Valid) :
    (a.lt b).Counts Effect.isStringComparison
      (if SharePrefix N (cPart a.str) (cPart b.str) then 1 else 0) := by
  refine (counts_lt (fun _ => isStringComparison_eq_false) ha hb).congr ?_
  refine if_congr (Iff.trans ?_ charges_string_iff) rfl rfl
  cases a.chargedCounter b <;> simp [Effect.isStringComparison]

theorem counts_ofStr {p : Effect → Bool} {s : σ} (terminated : Terminated s) :
    (ofStr N s).Counts p ((constructionReads N s).countP p) := by
  intro k log run
  rw [ofStr_eq (.inl terminated)] at run
  cases run
  rfl

theorem countP_constructionReads {p : Effect → Bool}
    (silent : ∀ i, p (.read .source i) = false) (s : σ) :
    (constructionReads N s).countP p = 0 := by
  rw [List.countP_eq_zero]
  intro e he
  obtain ⟨i, -, rfl⟩ := List.mem_map.mp he
  rw [silent i]
  exact Bool.false_ne_true

/-- A keydomet through which an operation compares its key with the elements. -/
structure StandsFor (k : Keydomet σ N) (key : StdString) : Prop where
  valid : k.Valid
  terminated : Terminated k.str
  part : cPart k.str = cPart key

theorem mkValid_standsFor (k : StdString) : (mkValid N k).StandsFor k where
  valid := mkValid_valid N k
  terminated := terminated_stdString k
  part := rfl

theorem mkValid_ref_standsFor (k : StdString) : (mkValid N (StdStringRef.mk k)).StandsFor k where
  valid := mkValid_valid N _
  terminated := terminated_stdStringRef ⟨k⟩
  part := cPart_stdStringRef ⟨k⟩

end Keydomet

namespace KeydometSet

variable {t : KeydometSet N} {s : Finset StdString}

/-- The elements of a set that share the prefix of a key. -/
def collisions (N : PrefixSize) (s : Finset StdString) (k : StdString) : Nat :=
  (s.filter fun y => SharePrefix N y k).card

/-- Different strings of a set have different prefixes, if they fill them. -/
def Separated (N : PrefixSize) (K : Set StdString) : Prop :=
  ∀ s ∈ K, ∀ t ∈ K, SharePrefix N s t → s = t

/-- The key is in the set, and fills the prefix. -/
def FilledHit (N : PrefixSize) (s : Finset StdString) (k : StdString) : Prop :=
  k ∈ s ∧ N.toNat ≤ k.chars.length

instance (s : Finset StdString) (k : StdString) : Decidable (FilledHit N s k) :=
  inferInstanceAs (Decidable (_ ∧ _))

/-- In a separated set, a key shares its prefix with itself only. -/
theorem sharePrefix_iff {K : Set StdString} (separated : Separated N K) {y k : StdString}
    (hy : y ∈ K) (hk : k ∈ K) : SharePrefix N y k ↔ y = k ∧ N.toNat ≤ k.chars.length := by
  constructor
  · exact fun shared => ⟨separated y hy k hk shared, shared.2.1⟩
  · rintro ⟨rfl, filled⟩
    exact ⟨filled, filled, rfl⟩

/-- The class that an operation compares its key from: an inserted key is of the class of the
elements, and `make_find_key` builds the others. -/
def keyClass (N : PrefixSize) : SetOp StdString → KeydometClass
  | .insert _ => elementClass N
  | .find _ | .erase _ => ⟨.constStdStringRef, N⟩

def SearchCounts (p : Effect → Bool) (B : Balance) (t : KeydometSet N) (n : Nat) :
    SetOp StdString → Prop
  | .insert k =>
      (t.insertUnique B (Keydomet.mkValid N k).comparison (Keydomet.mkValid N k)).Counts p n
  | .find k | .erase k => (t.find (Keydomet.mkValid N (StdStringRef.mk k)).comparison).Counts p n

/-- An operation has an effect as often as its search has it, besides the construction of its
key. -/
theorem counts_step {p : Effect → Bool} {B : Balance} {n : Nat} {op : SetOp StdString}
    (searches : SearchCounts p B t n op) :
    (step B t op).Counts p ((Keydomet.constructionReads N op.key).countP p + n) := by
  have makeFindKey : ∀ k, (makeFindKey N k).Counts p
      ((Keydomet.constructionReads N k).countP p) := fun k =>
    Keydomet.counts_ofStr (terminated_stdStringRef ⟨k⟩)
  cases op with
  | insert k =>
      rw [step]
      refine (Keydomet.counts_ofStr (terminated_stdString k)).bind fun item built => ?_
      obtain rfl :=
        Except.ok.inj ((Keydomet.value_ofStr (terminated_stdString k)).symm.trans built)
      exact searches.map _
  | find k =>
      rw [step]
      refine (makeFindKey k).bind fun findKey built => ?_
      obtain rfl := Except.ok.inj ((value_makeFindKey k).symm.trans built)
      exact searches.map _
  | erase k =>
      rw [step]
      refine (makeFindKey k).bind fun findKey built => ?_
      obtain rfl := Except.ok.inj ((value_makeFindKey k).symm.trans built)
      refine Traced.Counts.bind (m := 0) searches fun position _ => ?_
      cases position <;> exact .pure _

theorem Implements.step_counts (h : Implements t s) {p : Effect → Bool} {B : Balance} {n : Nat}
    {op : SetOp StdString} (searches : SearchCounts p B t n op) :
    ∃ output next log, step B t op = .ok (output, next) log ∧
      log.countP p = (Keydomet.constructionReads N op.key).countP p + n ∧
      Implements next (SetModel.next s (op.map cPart)) := by
  obtain ⟨next, value, h', -⟩ := step_implements B h op
  obtain ⟨log, run⟩ := Traced.value_eq_ok.mp value
  exact ⟨_, next, log, run, counts_step searches _ log run, h'⟩

/-- The search of an operation, if it has an effect with the elements whose part is the key's
only. The condition may depend on which operand is the left one, and thus on its class. -/
theorem Implements.searchCounts_equal (h : Implements t s) (B : Balance) {op : SetOp StdString}
    {p : Effect → Bool} {F : KeydometClass → Prop} [DecidablePred F]
    (nodeLess : ∀ {ρ : Type} [StrImp ρ] {k : Keydomet ρ N}, k.StandsFor op.key →
      ∀ y ∈ t.toList, (k.comparison.nodeLess y).Counts p
        (if cPart y.str = cPart op.key ∧ F (elementClass N) then 1 else 0))
    (keyLess : ∀ {ρ : Type} [StrImp ρ] {k : Keydomet ρ N}, k.StandsFor op.key →
      ∀ y ∈ t.toList, (k.comparison.keyLess y).Counts p
        (if cPart y.str = cPart op.key ∧ F ⟨StrImp.id ρ, N⟩ then 1 else 0)) :
    SearchCounts p B t
      ((if cPart op.key ∈ s ∧ F (elementClass N) then 1 else 0) +
        if cPart op.key ∈ s ∧ F (keyClass N op) then 1 else 0) op := by
  cases op with
  | insert k =>
      have item := Keydomet.mkValid_standsFor (N := N) k
      exact h.represents.counts_insertUnique_equal B (x := Keydomet.mkValid N k)
        (Keydomet.probes_comparison item.valid item.terminated h.valid) (nodeLess item)
        (keyLess item)
  | find k | erase k =>
      have findKey := Keydomet.mkValid_ref_standsFor (N := N) k
      exact h.represents.counts_find_equal (h.probes k) (nodeLess findKey) (keyLess findKey)

theorem Implements.searchCounts_le (h : Implements t s) (B : Balance) {op : SetOp StdString}
    {p : Effect → Bool} {P : StdString → Prop} [DecidablePred P]
    (nodeLess : ∀ {ρ : Type} [StrImp ρ] {k : Keydomet ρ N}, k.StandsFor op.key →
      ∀ y ∈ t.toList, (k.comparison.nodeLess y).Counts p (if P (cPart y.str) then 1 else 0))
    (keyLess : ∀ {ρ : Type} [StrImp ρ] {k : Keydomet ρ N}, k.StandsFor op.key →
      ∀ y ∈ t.toList, (k.comparison.keyLess y).Counts p (if P (cPart y.str) then 1 else 0)) :
    ∃ n, SearchCounts p B t n op ∧ n ≤ (s.filter P).card + 2 ∧
      ((s.filter P).card = 0 → n = 0) := by
  rw [← h.represents.countP_key P]
  have decided : ∀ {c : Code Bool} {y : Keydomet StdString N},
      c.Counts p (if P (cPart y.str) then 1 else 0) →
      c.Counts p (if decide (P (cPart y.str)) then 1 else 0) := fun counts =>
    counts.congr (if_congr decide_eq_true_iff.symm rfl rfl)
  cases op with
  | insert k =>
      have item := Keydomet.mkValid_standsFor (N := N) k
      exact h.represents.counts_insertUnique_le B (x := Keydomet.mkValid N k)
        (Keydomet.probes_comparison item.valid item.terminated h.valid)
        (fun y hy => decided (nodeLess item y hy)) fun y hy => decided (keyLess item y hy)
  | find k | erase k =>
      have findKey := Keydomet.mkValid_ref_standsFor (N := N) k
      obtain ⟨n, counts, bound, none⟩ := h.represents.counts_find_le (h.probes k)
        (fun y hy => decided (nodeLess findKey y hy)) fun y hy => decided (keyLess findKey y hy)
      exact ⟨n, counts, bound.trans (Nat.le_succ _), none⟩

/-- The string comparisons that a hit charges to a class. -/
def chargesOf (N : PrefixSize) (cls : KeydometClass) (op : SetOp StdString) : Nat :=
  (if cls = elementClass N then 1 else 0) + if cls = keyClass N op then 1 else 0

theorem chargesOf_map (cls : KeydometClass) (f : StdString → StdString) (op : SetOp StdString) :
    chargesOf N cls (op.map f) = chargesOf N cls op := by
  cases op <;> rfl

/-- How often the search of an operation compares strings, when its key shares its prefix with
itself only. -/
theorem Implements.searchCounts_of_alone (h : Implements t s) (B : Balance) {op : SetOp StdString}
    (alone : ∀ y ∈ s, SharePrefix N y (cPart op.key) ↔
      y = cPart op.key ∧ N.toNat ≤ (cPart op.key).chars.length) (cls : KeydometClass) :
    SearchCounts (· == .increment cls .usedString) B t
      (if FilledHit N s (cPart op.key) then chargesOf N cls op else 0) op := by
  have sum : (if FilledHit N s (cPart op.key) then chargesOf N cls op else 0) =
      (if cPart op.key ∈ s ∧ N.toNat ≤ (cPart op.key).chars.length ∧ cls = elementClass N
        then 1 else 0) +
      if cPart op.key ∈ s ∧ N.toNat ≤ (cPart op.key).chars.length ∧ cls = keyClass N op
        then 1 else 0 := by
    unfold FilledHit chargesOf
    by_cases present : cPart op.key ∈ s <;>
      by_cases filled : N.toNat ≤ (cPart op.key).chars.length <;> simp [present, filled]
  have shared : ∀ y ∈ t.toList, SharePrefix N (cPart y.str) (cPart op.key) ↔
      cPart y.str = cPart op.key ∧ N.toNat ≤ (cPart op.key).chars.length := fun y hy =>
    alone _ ((h.represents.mem_iff _).mpr ⟨y, hy, rfl⟩)
  rw [sum]
  refine h.searchCounts_equal B
    (F := fun c => N.toNat ≤ (cPart op.key).chars.length ∧ cls = c) ?_ ?_
  · intro ρ _ k key y hy
    refine (Keydomet.counts_lt_usedString (h.valid y hy) key.valid cls).congr ?_
    refine if_congr ?_ rfl rfl
    rw [key.part, shared y hy, and_assoc]
    rfl
  · intro ρ _ k key y hy
    refine (Keydomet.counts_lt_usedString key.valid (h.valid y hy) cls).congr ?_
    refine if_congr ?_ rfl rfl
    rw [key.part, ← and_assoc, ← shared y hy]
    exact and_congr_left' ⟨SharePrefix.symm, SharePrefix.symm⟩

/-- In any set the elements that share the prefix of the key bound the string comparisons. -/
theorem Implements.searchCounts_collisions (h : Implements t s) (B : Balance)
    (op : SetOp StdString) :
    ∃ n, SearchCounts Effect.isStringComparison B t n op ∧
      n ≤ collisions N s (cPart op.key) + 2 ∧ (collisions N s (cPart op.key) = 0 → n = 0) := by
  refine h.searchCounts_le B (P := fun y => SharePrefix N y (cPart op.key)) ?_ ?_
  · intro ρ _ k key y hy
    rw [← key.part]
    exact Keydomet.counts_lt_string (h.valid y hy) key.valid
  · intro ρ _ k key y hy
    rw [← key.part]
    refine (Keydomet.counts_lt_string key.valid (h.valid y hy)).congr ?_
    exact if_congr ⟨SharePrefix.symm, SharePrefix.symm⟩ rfl rfl

/-! ## Runs -/

theorem next_within {K : Set StdString} (within : ∀ k ∈ s, k ∈ K) {op : SetOp StdString}
    (key : cPart op.key ∈ K) : ∀ k ∈ SetModel.next s (op.map cPart), k ∈ K := by
  intro k hk
  rcases Finset.mem_insert.mp (SetModel.next_subset s _ hk) with rfl | old
  · rwa [SetOp.key_map]
  · exact within k old

/-- The effects of a run are those of its searches and of the construction of its keys. -/
theorem Implements.run_counts {r : Nat → Nat → Prop} (zero : r 0 0)
    (add : ∀ a b c d, r a b → r c d → r (a + c) (b + d)) {B : Balance} {K : Set StdString}
    {θ : Type} [Nonempty θ] (p : θ → Effect → Bool)
    (cost : θ → Finset StdString → SetOp StdString → Nat)
    (searches : ∀ (i : θ) (t : KeydometSet N) (s : Finset StdString) (op : SetOp StdString),
      Implements t s → (∀ k ∈ s, k ∈ K) → cPart op.key ∈ K →
      ∃ n, SearchCounts (p i) B t n op ∧
        r ((Keydomet.constructionReads N op.key).countP (p i) + n) (cost i s (op.map cPart)))
    (h : Implements t s) (within : ∀ k ∈ s, k ∈ K) (ops : List (SetOp StdString))
    (keys : ∀ op ∈ ops, cPart op.key ∈ K) :
    ∃ observations last log,
      Traced.run (step B) t ops = .ok (observations, last) log ∧
      ∀ i, r (log.countP (p i))
        (Traced.total (cost i) SetModel.next s (ops.map (SetOp.map cPart))) := by
  have counts : ∀ (i : θ) (t : KeydometSet N) (s : Finset StdString) (op : SetOp StdString),
      (Implements t s ∧ ∀ k ∈ s, k ∈ K) → cPart op.key ∈ K →
      ∃ output next log, step B t op = .ok (output, next) log ∧
        r (log.countP (p i)) (cost i s (op.map cPart)) ∧
        Implements next (SetModel.next s (op.map cPart)) ∧
        ∀ k ∈ SetModel.next s (op.map cPart), k ∈ K := by
    rintro i t s op ⟨h, within⟩ key
    obtain ⟨n, search, bound⟩ := searches i t s op h within key
    obtain ⟨output, next, log, run, count, h'⟩ := h.step_counts search
    exact ⟨output, next, log, run, count ▸ bound, h', next_within within key⟩
  obtain ⟨⟨observations, last⟩, log, run, total⟩ := Traced.exists_ok_forall fun i => by
    obtain ⟨observations, last, log, run, total⟩ :=
      Traced.run_counts zero add (counts i) ⟨h, within⟩ ops keys
    exact ⟨(observations, last), log, run, total⟩
  refine ⟨observations, last, log, run, fun i => ?_⟩
  rw [Traced.total_map]
  exact total i

theorem Implements.run_counts_le {B : Balance} {θ : Type} [Nonempty θ] (p : θ → Effect → Bool)
    (elements : θ → Finset StdString → StdString → Nat)
    (silent : ∀ i k, (Keydomet.constructionReads N (k : StdString)).countP (p i) = 0)
    (searches : ∀ (i : θ) (t : KeydometSet N) (s : Finset StdString) (op : SetOp StdString),
      Implements t s → ∃ n, SearchCounts (p i) B t n op ∧ n ≤ elements i s (cPart op.key) + 2 ∧
        (elements i s (cPart op.key) = 0 → n = 0))
    (h : Implements t s) (ops : List (SetOp StdString)) :
    ∃ observations last log,
      Traced.run (step B) t ops = .ok (observations, last) log ∧
      ∀ i, log.countP (p i) ≤
        Traced.total (fun s op => if elements i s op.key = 0 then 0 else elements i s op.key + 2)
          SetModel.next s (ops.map (SetOp.map cPart)) := by
  refine h.run_counts (r := (· ≤ ·)) (K := Set.univ) le_rfl (fun _ _ _ _ => Nat.add_le_add) p
    (fun i s op => if elements i s op.key = 0 then 0 else elements i s op.key + 2) ?_
    (fun _ _ => trivial) ops fun _ _ => trivial
  intro i t s op h _ _
  obtain ⟨n, search, bound, none⟩ := searches i t s op h
  refine ⟨n, search, ?_⟩
  rw [silent, Nat.zero_add, SetOp.key_map]
  split
  next empty => exact (none empty).le
  next => exact bound

/-- Over any run of operations, on sets whose strings lie in a separated set together with the
keys of all operations, the static counters of string comparisons are incremented by the
operations whose key is in the set at that time and fills the prefix: once that of the class of
the elements, and once that of the class of the key. No other operation compares strings. -/
theorem string_comparisons_exact (B : Balance) {K : Set StdString} (separated : Separated N K)
    (h : Implements t s) (within : ∀ k ∈ s, k ∈ K) (ops : List (SetOp StdString))
    (keys : ∀ op ∈ ops, cPart op.key ∈ K) :
    ∃ observations last log,
      Traced.run (step B) t ops = .ok (observations, last) log ∧
      ∀ cls, log.count (.increment cls .usedString) =
        Traced.total (fun s op => if FilledHit N s op.key then chargesOf N cls op else 0)
          SetModel.next s (ops.map (SetOp.map cPart)) := by
  have : Nonempty KeydometClass := ⟨elementClass N⟩
  refine h.run_counts (r := Eq) rfl (fun _ _ _ _ => congrArg₂ (· + ·))
    (fun cls => (· == .increment cls .usedString))
    (fun cls s op => if FilledHit N s op.key then chargesOf N cls op else 0) ?_ within ops keys
  intro cls t s op h within key
  have alone := fun y hy => sharePrefix_iff separated (within y hy) key
  refine ⟨_, h.searchCounts_of_alone B alone cls, ?_⟩
  rw [Keydomet.countP_constructionReads fun _ => rfl, Nat.zero_add, SetOp.key_map, chargesOf_map]

theorem separated_two_keys :
    Separated .size16bit {⟨[97, 98, 99]⟩, ⟨[98, 99, 100]⟩} := by
  rintro s (rfl | rfl) t (rfl | rfl) shared
  · rfl
  · exact absurd shared (by decide)
  · exact absurd shared (by decide)
  · rfl

/-- Two keys with different prefixes: the hits of the one in the set compare strings. -/
theorem string_comparisons_exact_two_keys :
    ∃ observations last log,
      Traced.run (step (N := .size16bit) .unbalanced) .nil
        [.insert ⟨[97, 98, 99]⟩, .find ⟨[97, 98, 99]⟩, .insert ⟨[97, 98, 99]⟩,
          .find ⟨[98, 99, 100]⟩, .erase ⟨[97, 98, 99]⟩, .find ⟨[97, 98, 99]⟩] =
        .ok (observations, last) log ∧
      log.count (.increment ⟨.stdString, .size16bit⟩ .usedString) = 4 ∧
      log.count (.increment ⟨.constStdStringRef, .size16bit⟩ .usedString) = 2 := by
  obtain ⟨observations, last, log, run, count⟩ := string_comparisons_exact .unbalanced
    separated_two_keys implements_nil (by simp) [.insert ⟨[97, 98, 99]⟩, .find ⟨[97, 98, 99]⟩,
      .insert ⟨[97, 98, 99]⟩, .find ⟨[98, 99, 100]⟩, .erase ⟨[97, 98, 99]⟩,
      .find ⟨[97, 98, 99]⟩] (by decide)
  exact ⟨observations, last, log, run, (count _).trans (by decide), (count _).trans (by decide)⟩

/-- Over any run of operations, the number of string comparisons of each is bounded by the number
of strings in the set at that time that share the prefix of its key, plus two; if there are
none, then there is no string comparison. -/
theorem string_comparisons_bounded (B : Balance) (h : Implements t s)
    (ops : List (SetOp StdString)) :
    ∃ observations last log,
      Traced.run (step B) t ops = .ok (observations, last) log ∧
      log.countP Effect.isStringComparison ≤
        Traced.total (fun s op => if collisions N s op.key = 0 then 0
          else collisions N s op.key + 2) SetModel.next s (ops.map (SetOp.map cPart)) := by
  obtain ⟨observations, last, log, run, bound⟩ := h.run_counts_le
    (fun _ : Unit => Effect.isStringComparison) (fun _ => collisions N)
    (fun _ => Keydomet.countP_constructionReads fun _ => rfl)
    (fun _ t s op h => h.searchCounts_collisions B op) ops
  exact ⟨observations, last, log, run, bound ()⟩

/-- Two keys with the same prefix: the second insertion may compare strings, the first does
not. -/
theorem string_comparisons_bounded_same_prefix :
    ∃ observations last log,
      Traced.run (step (N := .size16bit) .unbalanced) .nil
        [.insert ⟨[97, 98, 99]⟩, .insert ⟨[97, 98, 100]⟩] = .ok (observations, last) log ∧
      log.countP Effect.isStringComparison ≤ 3 := by
  obtain ⟨observations, last, log, run, count⟩ := string_comparisons_bounded (N := .size16bit)
    .unbalanced implements_nil [.insert ⟨[97, 98, 99]⟩, .insert ⟨[97, 98, 100]⟩]
  exact ⟨observations, last, log, run, count.trans (by decide)⟩

end KeydometSet

end Kdmt

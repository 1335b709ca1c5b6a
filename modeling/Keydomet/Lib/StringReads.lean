import Keydomet.Lib.Reads
import Keydomet.Lib.StringComparisons

/-!
# Which bytes of strings the operations of a set read

The elements of a set keep their strings elsewhere, and a prefix is there to leave these alone.
An operation reads its own key once when it builds a keydomet of it: the bytes of the prefix, or
fewer if the terminator comes first. Then it reads strings only to compare them, from their
second byte to their first difference.

When different strings have different prefixes, those of the keys that are looked up included,
an operation compares no string but its own key, and that of the element with this key if the
prefix is filled: both of them twice, up to the terminator (`string_reads_exact`). In general the
strings that agree with the key up to a byte bound the number of times that this byte is read
(`string_reads_bounded`). The copy of a string that an insertion makes is not a read of these.
-/

namespace Kdmt

open Foundation

/-- Two strings have the same first `n` bytes. -/
def AgreeUpTo (n : Nat) (s t : StdString) : Prop :=
  n ≤ s.chars.length ∧ n ≤ t.chars.length ∧ s.chars.take n = t.chars.take n

instance (n : Nat) (s t : StdString) : Decidable (AgreeUpTo n s t) :=
  inferInstanceAs (Decidable (_ ∧ _ ∧ _))

theorem AgreeUpTo.symm {n : Nat} {s t : StdString} (h : AgreeUpTo n s t) : AgreeUpTo n t s :=
  ⟨h.2.1, h.1, h.2.2.symm⟩

theorem AgreeUpTo.mono {m n : Nat} {s t : StdString} (h : AgreeUpTo n s t) (le : m ≤ n) :
    AgreeUpTo m s t := by
  refine ⟨le.trans h.1, le.trans h.2.1, ?_⟩
  have same := congrArg (List.take m) h.2.2
  rwa [List.take_take, List.take_take, min_eq_left le] at same

theorem sharePrefix_iff_agreeUpTo {N : PrefixSize} {s t : StdString} :
    SharePrefix N s t ↔ AgreeUpTo N.toNat s t := Iff.rfl

theorem count_read (operand : Operand) (position : Nat) (log : List Effect) :
    log.count (.read operand position) = (readPositions operand log).count position := by
  rw [readPositions, List.count_filterMap, List.count]
  refine List.countP_congr fun e _ => ?_
  cases e with
  | read op i =>
      rw [beq_iff_eq, Effect.read.injEq, Effect.position?, beq_iff_eq]
      by_cases same : op = operand <;> simp [same]
  | increment cls counter =>
      rw [beq_iff_eq, Effect.position?, beq_iff_eq]
      simp

namespace Keydomet

variable {σ τ : Type} [StrImp σ] [StrImp τ] {N : PrefixSize}
variable {a : Keydomet σ N} {b : Keydomet τ N}

theorem le_firstDifference_iff {n : Nat} :
    n ≤ firstDifference a b ↔ AgreeUpTo n (cPart a.str) (cPart b.str) := le_agreement_iff

/-- No comparison reads a string that a prefix is built from. -/
theorem readPositions_compareReads_source (d : Nat) :
    readPositions .source (compareReads (.read .left) (.read .right) 1 1 d) = [] := by
  rw [readPositions, List.filterMap_eq_nil_iff]
  intro e he
  obtain ⟨k, -, rfl | rfl⟩ := mem_compareReads _ _ he <;> rfl

theorem readPositions_compare (ha : a.Valid) (hb : b.Valid) (ta : Terminated a.str)
    (tb : Terminated b.str) {r : Int} {log : List Effect} (run : a.compare b = .ok r log)
    (operand : Operand) :
    readPositions operand log =
      if operand ≠ .source ∧ a.ShareFilledPrefix b then List.range' 1 (firstDifference a b)
      else [] := by
  by_cases shared : a.ShareFilledPrefix b
  · obtain ⟨same, long⟩ := (shareFilledPrefix_iff ha hb).mp shared
    obtain ⟨filledLeft, filledRight, -⟩ := le_agreement_iff.mp shared
    by_cases source : operand = .source
    · obtain ⟨r', run', -⟩ := compare_fallback ha hb same long (decides_of_terminated ta tb)
      rw [run'] at run
      cases run
      rw [source, if_neg (by simp)]
      exact readPositions_compareReads_source _
    · obtain ⟨r', log', run', positions⟩ := PrefixCollision.readPositions_compare
        ⟨ha, hb, ta, tb, same, filledLeft, filledRight⟩
      rw [run'] at run
      cases run
      rw [if_pos ⟨source, shared⟩, positions operand source]
  · rw [if_neg fun both => shared both.2]
    rw [shareFilledPrefix_iff ha hb] at shared
    by_cases same : a.prefixRep = b.prefixRep
    · cases short : a.prefixRep.stringShorterThanPrefix with
      | false => exact absurd ⟨same, short⟩ shared
      | true =>
          rw [compare_of_short same short] at run
          cases run
          rfl
    · rw [compare_of_prefix_ne same] at run
      cases run
      rfl

/-- `operator<` reads a byte of either operand once, if the strings agree up to it, and on the
prefix. It never reads the first byte. -/
theorem counts_lt_read (ha : a.Valid) (hb : b.Valid) (ta : Terminated a.str)
    (tb : Terminated b.str) (operand : Operand) (position : Nat) :
    (a.lt b).Counts (· == .read operand position)
      (if operand ≠ .source ∧ 0 < position ∧
        AgreeUpTo (max N.toNat position) (cPart a.str) (cPart b.str) then 1 else 0) := by
  have compare : (a.compare b).Counts (· == .read operand position)
      (if operand ≠ .source ∧ 0 < position ∧
        AgreeUpTo (max N.toNat position) (cPart a.str) (cPart b.str) then 1 else 0) := by
    intro r log run
    have agree : AgreeUpTo (max N.toNat position) (cPart a.str) (cPart b.str) ↔
        a.ShareFilledPrefix b ∧ position ≤ firstDifference a b := by
      rw [← le_firstDifference_iff (a := a) (b := b), max_le_iff]
      rfl
    refine (count_read operand position log).trans ?_
    rw [readPositions_compare ha hb ta tb run]
    by_cases fallback : operand ≠ .source ∧ a.ShareFilledPrefix b
    · rw [if_pos fallback, List.count_range_1']
      refine if_congr ?_ rfl rfl
      rw [agree, and_iff_right fallback.1, and_iff_right fallback.2, Nat.succ_le_iff,
        Nat.lt_one_add_iff]
    · rw [if_neg fallback, if_neg fun all => fallback ⟨all.1, (agree.mp all.2.2).1⟩,
        List.count_nil]
  exact compare.map _

theorem countP_constructionReads_read (s : σ) (operand : Operand) (position : Nat) :
    (constructionReads N s).countP (· == .read operand position) =
      if operand = .source ∧ position < min N.toNat ((cPart s).chars.length + 1) then 1 else 0 := by
  refine (count_read operand position _).trans ?_
  by_cases source : operand = .source
  · have positions : readPositions operand (constructionReads N s) =
        List.range (copyReads N.toNat (rawBytes s)) := by
      rw [readPositions, constructionReads, List.filterMap_map, source]
      exact List.filterMap_some
    rw [positions, List.count_range]
    exact if_congr (and_iff_right source).symm rfl rfl
  · have none : readPositions operand (constructionReads N s) = [] := by
      rw [readPositions, List.filterMap_eq_nil_iff]
      intro e he
      obtain ⟨i, -, rfl⟩ := List.mem_map.mp he
      exact if_neg (Ne.symm source)
    rw [none, if_neg fun both => source both.1, List.count_nil]

end Keydomet

namespace KeydometSet

variable {N : PrefixSize} {t : KeydometSet N} {s : Finset StdString}

/-- How often an operation of a separated set reads a byte. -/
def readsOf (N : PrefixSize) (s : Finset StdString) (op : SetOp StdString) (position : Nat) :
    Operand → Nat
  | .source => if position < min N.toNat (op.key.chars.length + 1) then 1 else 0
  | .left | .right =>
      if FilledHit N s op.key ∧ 0 < position ∧ position ≤ op.key.chars.length then 2 else 0

/-- The strings of a set that a comparison with a key reads at a position, which is not the
first. -/
def readAt (N : PrefixSize) (s : Finset StdString) (k : StdString) (position : Nat) : Nat :=
  (s.filter fun y => 0 < position ∧ AgreeUpTo (max N.toNat position) y k).card

/-- In a separated set, a key agrees with itself only, as far as it goes. -/
theorem agreeUpTo_iff {K : Set StdString} (separated : Separated N K) {y k : StdString}
    (hy : y ∈ K) (hk : k ∈ K) {position : Nat} :
    AgreeUpTo (max N.toNat position) y k ↔
      y = k ∧ N.toNat ≤ k.chars.length ∧ position ≤ k.chars.length := by
  rw [← max_le_iff]
  constructor
  · intro agree
    have shared := sharePrefix_iff_agreeUpTo.mpr (agree.mono (le_max_left _ _))
    exact ⟨separated y hy k hk shared, agree.2.1⟩
  · rintro ⟨rfl, le⟩
    exact ⟨le, le, rfl⟩

/-- The bytes that the comparisons of an operation read, in a separated set. -/
theorem Implements.searchCounts_read (h : Implements t s) (B : Balance) {op : SetOp StdString}
    {K : Set StdString} (separated : Separated N K) (within : ∀ k ∈ s, k ∈ K)
    (key : cPart op.key ∈ K) (operand : Operand) (position : Nat) :
    SearchCounts (· == .read operand position) B t
      (if operand ≠ .source ∧ FilledHit N s (cPart op.key) ∧ 0 < position ∧
        position ≤ (cPart op.key).chars.length then 2 else 0) op := by
  have twice : (if operand ≠ .source ∧ FilledHit N s (cPart op.key) ∧ 0 < position ∧
        position ≤ (cPart op.key).chars.length then 2 else 0) =
      (if cPart op.key ∈ s ∧ operand ≠ .source ∧ 0 < position ∧
        N.toNat ≤ (cPart op.key).chars.length ∧ position ≤ (cPart op.key).chars.length
        then 1 else 0) +
      if cPart op.key ∈ s ∧ operand ≠ .source ∧ 0 < position ∧
        N.toNat ≤ (cPart op.key).chars.length ∧ position ≤ (cPart op.key).chars.length
        then 1 else 0 := by
    unfold FilledHit
    split_ifs <;> first | rfl | tauto
  have agrees : ∀ y ∈ t.toList,
      (operand ≠ .source ∧ 0 < position ∧
        AgreeUpTo (max N.toNat position) (cPart y.str) (cPart op.key)) ↔
      cPart y.str = cPart op.key ∧ operand ≠ .source ∧ 0 < position ∧
        N.toNat ≤ (cPart op.key).chars.length ∧
        position ≤ (cPart op.key).chars.length := by
    intro y hy
    rw [agreeUpTo_iff separated (within _ ((h.represents.mem_iff _).mpr ⟨y, hy, rfl⟩)) key]
    tauto
  rw [twice]
  refine h.searchCounts_equal B
    (F := fun _ => operand ≠ .source ∧ 0 < position ∧ N.toNat ≤ (cPart op.key).chars.length ∧
      position ≤ (cPart op.key).chars.length) ?_ ?_
  · intro ρ _ k hk y hy
    refine (Keydomet.counts_lt_read (h.valid y hy) hk.valid (terminated_stdString _)
      hk.terminated operand position).congr ?_
    rw [hk.part]
    exact if_congr (agrees y hy) rfl rfl
  · intro ρ _ k hk y hy
    refine (Keydomet.counts_lt_read hk.valid (h.valid y hy) hk.terminated
      (terminated_stdString _) operand position).congr ?_
    rw [hk.part]
    refine if_congr (Iff.trans ?_ (agrees y hy)) rfl rfl
    exact and_congr_right' (and_congr_right' ⟨AgreeUpTo.symm, AgreeUpTo.symm⟩)

theorem Implements.searchCounts_readAt (h : Implements t s) (B : Balance) (op : SetOp StdString)
    {operand : Operand} (compared : operand ≠ .source) (position : Nat) :
    ∃ n, SearchCounts (· == .read operand position) B t n op ∧
      n ≤ readAt N s (cPart op.key) position + 2 ∧
      (readAt N s (cPart op.key) position = 0 → n = 0) := by
  refine h.searchCounts_le B
    (P := fun y => 0 < position ∧ AgreeUpTo (max N.toNat position) y (cPart op.key)) ?_ ?_
  · intro ρ _ k hk y hy
    refine (Keydomet.counts_lt_read (h.valid y hy) hk.valid (terminated_stdString _)
      hk.terminated operand position).congr ?_
    rw [hk.part]
    exact if_congr (and_iff_right compared) rfl rfl
  · intro ρ _ k hk y hy
    refine (Keydomet.counts_lt_read hk.valid (h.valid y hy) hk.terminated
      (terminated_stdString _) operand position).congr ?_
    rw [hk.part]
    refine if_congr ((and_iff_right compared).trans ?_) rfl rfl
    exact and_congr_right' ⟨AgreeUpTo.symm, AgreeUpTo.symm⟩

/-! ## Runs -/

/-- Over any run of operations, on sets whose strings lie in a separated set together with the
keys of all operations, each operation reads its key to build a keydomet of it, up to the end of
the prefix or of the key. If its key is in the set and fills the prefix, the operation compares
it with its element in both orders, and reads either operand from the second byte to the
terminator. Prefixes and comparisons need no other reads. -/
theorem string_reads_exact (B : Balance) {K : Set StdString} (separated : Separated N K)
    (h : Implements t s) (within : ∀ k ∈ s, k ∈ K) (ops : List (SetOp StdString))
    (keys : ∀ op ∈ ops, cPart op.key ∈ K) :
    ∃ observations last log,
      Traced.run (step B) t ops = .ok (observations, last) log ∧
      ∀ operand position, log.count (.read operand position) =
        Traced.total (fun s op => readsOf N s op position operand) SetModel.next s
          (ops.map (SetOp.map cPart)) := by
  have : Nonempty (Operand × Nat) := ⟨(.source, 0)⟩
  have searches : ∀ (i : Operand × Nat) (t : KeydometSet N) (s : Finset StdString)
      (op : SetOp StdString), Implements t s → (∀ k ∈ s, k ∈ K) → cPart op.key ∈ K →
      ∃ n, SearchCounts (· == .read i.1 i.2) B t n op ∧
        (Keydomet.constructionReads N op.key).countP (· == .read i.1 i.2) + n =
          readsOf N s (op.map cPart) i.2 i.1 := by
    rintro ⟨operand, position⟩ t s op h within key
    refine ⟨_, h.searchCounts_read B separated within key operand position, ?_⟩
    rw [Keydomet.countP_constructionReads_read]
    cases operand <;> simp [readsOf]
  obtain ⟨observations, last, log, run, count⟩ := h.run_counts (r := Eq) rfl
    (fun _ _ _ _ => congrArg₂ (· + ·)) (fun i : Operand × Nat => (· == .read i.1 i.2))
    (fun i s op => readsOf N s op i.2 i.1) searches within ops keys
  exact ⟨observations, last, log, run, fun operand position => count (operand, position)⟩

/-- Two keys with different prefixes: the terminator of the one in the set is read by its hits,
but no byte of the other one after its prefix. -/
theorem string_reads_exact_two_keys :
    ∃ observations last log,
      Traced.run (step (N := .size16bit) .unbalanced) .nil
        [.insert ⟨[97, 98, 99]⟩, .find ⟨[97, 98, 99]⟩, .find ⟨[98, 99, 100]⟩,
          .erase ⟨[97, 98, 99]⟩, .find ⟨[97, 98, 99]⟩] = .ok (observations, last) log ∧
      log.count (.read .source 1) = 5 ∧ log.count (.read .source 2) = 0 ∧
      log.count (.read .left 0) = 0 ∧ log.count (.read .left 3) = 4 ∧
      log.count (.read .right 4) = 0 := by
  obtain ⟨observations, last, log, run, count⟩ := string_reads_exact .unbalanced
    separated_two_keys implements_nil (by simp) [.insert ⟨[97, 98, 99]⟩, .find ⟨[97, 98, 99]⟩,
      .find ⟨[98, 99, 100]⟩, .erase ⟨[97, 98, 99]⟩, .find ⟨[97, 98, 99]⟩] (by decide)
  refine ⟨observations, last, log, run, ?_, ?_, ?_, ?_, ?_⟩ <;> rw [count] <;> decide

/-- Over any run of operations, each reads a byte of the strings it compares at most as often as
there are strings in the set at that time that agree with its key up to this byte and on the
prefix, and twice more; if there are none, then it does not read it. -/
theorem string_reads_bounded (B : Balance) (h : Implements t s) (ops : List (SetOp StdString)) :
    ∃ observations last log,
      Traced.run (step B) t ops = .ok (observations, last) log ∧
      ∀ operand position, operand ≠ .source →
        log.count (.read operand position) ≤
          Traced.total (fun s op => if readAt N s op.key position = 0 then 0
            else readAt N s op.key position + 2) SetModel.next s (ops.map (SetOp.map cPart)) := by
  have : Nonempty ({operand : Operand // operand ≠ .source} × Nat) := ⟨⟨.left, by decide⟩, 0⟩
  obtain ⟨observations, last, log, run, count⟩ := h.run_counts_le
    (fun i : {operand : Operand // operand ≠ .source} × Nat => (· == .read i.1.1 i.2))
    (fun i s k => readAt N s k i.2)
    (fun i k => (Keydomet.countP_constructionReads_read k _ _).trans
      (if_neg fun both => i.1.2 both.1))
    (fun i t s op h => h.searchCounts_readAt B op i.1.2 i.2) ops
  exact ⟨observations, last, log, run, fun operand position compared =>
    count (⟨operand, compared⟩, position)⟩

/-- Two keys with the same prefix: the terminator of the first is not read by the second
insertion. -/
theorem string_reads_bounded_same_prefix :
    ∃ observations last log,
      Traced.run (step (N := .size16bit) .unbalanced) .nil
        [.insert ⟨[97, 98, 99]⟩, .insert ⟨[97, 98, 100]⟩] = .ok (observations, last) log ∧
      log.count (.read .left 1) ≤ 3 ∧ log.count (.read .left 3) = 0 := by
  obtain ⟨observations, last, log, run, count⟩ := string_reads_bounded (N := .size16bit)
    .unbalanced implements_nil [.insert ⟨[97, 98, 99]⟩, .insert ⟨[97, 98, 100]⟩]
  refine ⟨observations, last, log, run, ?_, ?_⟩
  · exact (count .left 1 (by decide)).trans (by decide)
  · exact Nat.eq_zero_of_le_zero ((count .left 3 (by decide)).trans (by decide))

end KeydometSet

end Kdmt

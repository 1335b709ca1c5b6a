import Keydomet.Foundation.OrderedSet
import Keydomet.Foundation.Run

/-!
# How often a search has an effect

`Counts p n` says that every successful run has exactly `n` effects that pass a test. The
effects of a search are those of its comparisons: one for each node on the way to a gap
(`descent`), and those made when the gap was found. So a search has an effect as often as there
are nodes on its way whose comparisons have it. A way visits no node twice, and always visits
the nodes on both sides of its gap.
-/

namespace Foundation

namespace Traced

variable {ρ ε σ ι β α : Type} {p : ε → Bool}

/-- Every successful run has so many effects that pass a test. -/
def Counts (p : ε → Bool) (n : Nat) (x : Traced ρ ε α) : Prop :=
  ∀ a log, x = .ok a log → log.countP p = n

namespace Counts

variable {x : Traced ρ ε α} {f : α → Traced ρ ε β} {n m : Nat}

theorem pure (a : α) : Counts p 0 (Pure.pure a : Traced ρ ε α) := by
  intro b log h
  cases h
  rfl

theorem bind (first : Counts p n x) (second : ∀ a, x.value = .ok a → Counts p m (f a)) :
    Counts p (n + m) (x >>= f) := by
  intro b log h
  obtain ⟨a, log₁, log₂, hx, hf, rfl⟩ := bind_eq_ok.mp h
  rw [List.countP_append, first a log₁ hx,
    second a (value_eq_ok.mpr ⟨log₁, hx⟩) b log₂ hf]

theorem bind_silent (silent : Counts p 0 x) (second : ∀ a, x.value = .ok a → Counts p m (f a)) :
    Counts p m (x >>= f) := by
  have both := silent.bind second
  rwa [Nat.zero_add] at both

theorem map (h : Counts p n x) (g : α → β) :
    Counts p n (x >>= fun a => (Pure.pure (g a) : Traced ρ ε β)) :=
  h.bind fun a _ => .pure (g a)

theorem of_emits (silent : x.Emits fun e => p e = false) : Counts p 0 x := by
  intro a log h
  rw [List.countP_eq_zero]
  intro e he
  rw [silent a log h e he]
  exact Bool.false_ne_true

theorem congr (h : Counts p n x) (same : n = m) : Counts p m x := same ▸ h

theorem mapM {P : σ → Prop} [DecidablePred P] {g : σ → Traced ρ ε α} {l : List σ}
    (h : ∀ s ∈ l, Counts p (if P s then 1 else 0) (g s)) :
    Counts p (l.countP fun s => decide (P s)) (l.mapM g) := by
  induction l with
  | nil => exact .pure _
  | cons s l ih =>
      obtain ⟨here, rest⟩ := List.forall_mem_cons.mp h
      rw [List.mapM_cons]
      refine Counts.congr (here.bind fun _ _ => (ih rest).map _) ?_
      rw [List.countP_cons, Nat.add_comm]
      by_cases holds : P s <;> simp [holds]

end Counts

/-- The sum of a cost over a run of a model, each input at the state that it finds. -/
def total (cost : α → ι → Nat) (next : α → ι → α) : α → List ι → Nat
  | _, [] => 0
  | a, input :: inputs => cost a input + total cost next (next a input) inputs

theorem total_map {κ : Type} (cost : α → ι → Nat) (next : α → ι → α) (f : κ → ι) (a : α)
    (inputs : List κ) :
    total cost next a (inputs.map f) =
      total (fun a input => cost a (f input)) (fun a input => next a (f input)) a inputs := by
  induction inputs generalizing a with
  | nil => rfl
  | cons input inputs ih => rw [List.map_cons, total, total, ih]

theorem total_of_fixed {a : α} {P : ι → Prop} [DecidablePred P] {c : Nat}
    {cost : α → ι → Nat} {next : α → ι → α} {inputs : List ι}
    (fixed : ∀ input ∈ inputs, next a input = a)
    (costs : ∀ input ∈ inputs, cost a input = if P input then c else 0) :
    total cost next a inputs = c * inputs.countP fun input => decide (P input) := by
  induction inputs with
  | nil => rfl
  | cons input inputs ih =>
      obtain ⟨stays, fixed⟩ := List.forall_mem_cons.mp fixed
      obtain ⟨here, costs⟩ := List.forall_mem_cons.mp costs
      rw [total, stays, here, ih fixed costs, List.countP_cons, Nat.mul_add, Nat.add_comm]
      by_cases holds : P input <;> simp [holds]

/-- The effects of a run are those of its steps. A model counts them, or bounds their number:
`r` may be any relation between two numbers that sums respect. -/
theorem run_counts {r : Nat → Nat → Prop} (zero : r 0 0)
    (add : ∀ a b c d, r a b → r c d → r (a + c) (b + d))
    {step : σ → ι → Traced ρ ε (β × σ)} {cost : α → ι → Nat} {next : α → ι → α}
    {R : σ → α → Prop} {admissible : ι → Prop}
    (counts : ∀ s a input, R s a → admissible input →
      ∃ output s' log, step s input = .ok (output, s') log ∧
        r (log.countP p) (cost a input) ∧ R s' (next a input))
    {s : σ} {a : α} (related : R s a) (inputs : List ι)
    (legal : ∀ input ∈ inputs, admissible input) :
    ∃ outputs last log, run step s inputs = .ok (outputs, last) log ∧
      r (log.countP p) (total cost next a inputs) := by
  induction inputs generalizing s a with
  | nil => exact ⟨[], s, [], rfl, zero⟩
  | cons input inputs ih =>
      obtain ⟨output, s', first, head, count, preserved⟩ :=
        counts s a input related (legal input List.mem_cons_self)
      obtain ⟨outputs, last, rest, tail, sum⟩ :=
        ih preserved fun i hi => legal i (List.mem_cons_of_mem input hi)
      refine ⟨output :: outputs, last, first ++ rest, ?_, ?_⟩
      · exact run_cons_eq_ok.mpr ⟨output, s', outputs, first, rest, head, tail, rfl, rfl⟩
      · rw [List.countP_append, total]
        exact add _ _ _ _ count sum

end Traced

theorem countP_eq_of_unique {α : Type} {q : α → Bool} {l : List α} (nodup : l.Nodup) {x : α}
    (hx : x ∈ l) (unique : ∀ y ∈ l, q y = true → y = x) :
    l.countP q = if q x then 1 else 0 := by
  induction l with
  | nil => exact absurd hx List.not_mem_nil
  | cons a l ih =>
      obtain ⟨fresh, nodup⟩ := List.nodup_cons.mp nodup
      rw [List.countP_cons]
      rcases List.mem_cons.mp hx with rfl | later
      · have none : l.countP q = 0 := by
          rw [List.countP_eq_zero]
          intro y hy passes
          exact fresh (unique y (List.mem_cons_of_mem x hy) passes ▸ hy)
        rw [none, Nat.zero_add]
      · have other : ¬ q a = true := fun passes =>
          fresh (unique a List.mem_cons_self passes ▸ later)
        rw [if_neg other, Nat.add_zero]
        exact ih nodup later fun y hy => unique y (List.mem_cons_of_mem a hy)

namespace SearchTree

variable {ρ ε κ : Type} {p : ε → Bool} {q : κ → Bool}

/-- The nodes on the way to a gap. -/
def descent : SearchTree κ → Nat → List κ
  | nil, _ => []
  | node _ l x r, i => x :: if i ≤ l.size then descent l i else descent r (i - l.size - 1)

theorem descent_subperm (t : SearchTree κ) (i : Nat) : (t.descent i).Subperm t.toList := by
  induction t generalizing i with
  | nil => exact List.Subperm.refl []
  | node c l x r ihl ihr =>
      rw [descent, toList_node]
      have front : (x :: (l.toList ++ r.toList)).Subperm (l.toList ++ x :: r.toList) :=
        List.perm_middle.symm.subperm
      refine List.Subperm.trans ((List.subperm_cons x).mpr ?_) front
      split
      · exact (ihl i).trans (List.sublist_append_left _ _).subperm
      · exact (ihr _).trans (List.sublist_append_right _ _).subperm

theorem mem_of_mem_descent {t : SearchTree κ} {i : Nat} {x : κ} (h : x ∈ t.descent i) :
    x ∈ t.toList :=
  (t.descent_subperm i).subset h

theorem gap_right {l : SearchTree κ} {below middle : List κ} {x : κ}
    (split : below = l.toList ++ x :: middle) :
    ¬ below.length ≤ l.size ∧ below.length - l.size - 1 = middle.length := by
  rw [split, List.length_append, length_toList, List.length_cons]
  omega

theorem gap_left {l : SearchTree κ} {below middle : List κ} (split : l.toList = below ++ middle) :
    below.length ≤ l.size := by
  rw [← length_toList, split, List.length_append]
  omega

/-- The way to a gap visits the nodes on both sides of it. -/
theorem mem_descent {t : SearchTree κ} {below above : List κ} {x : κ}
    (split : t.toList = below ++ x :: above) {i : Nat}
    (adjacent : i = below.length ∨ i = below.length + 1) : x ∈ t.descent i := by
  induction t generalizing below above i with
  | nil => simp at split
  | node c l y r ihl ihr =>
      rw [descent]
      rcases List.append_eq_append_iff.mp split with ⟨middle, hbelow, hrest⟩ | ⟨middle, hl, habove⟩
      · cases middle with
        | nil =>
            obtain ⟨rfl, -⟩ := List.cons.inj hrest
            exact List.mem_cons_self
        | cons z middle =>
            obtain ⟨rfl, hr⟩ := List.cons.inj hrest
            obtain ⟨far, rest⟩ := gap_right hbelow
            rw [if_neg (by omega)]
            exact List.mem_cons_of_mem _ (ihr hr (by omega))
      · cases middle with
        | nil =>
            obtain ⟨rfl, -⟩ := List.cons.inj habove
            exact List.mem_cons_self
        | cons z middle =>
            obtain ⟨rfl, rfl⟩ := List.cons.inj habove
            rw [List.append_cons] at hl
            have near := gap_left hl
            rw [List.length_append, List.length_singleton] at near
            rw [if_pos (by omega)]
            rw [← List.append_cons] at hl
            exact List.mem_cons_of_mem _ (ihl hl adjacent)

/-- A descent has an effect once for each node on its way whose test has it. -/
theorem counts_partitionPoint {goRight : κ → Traced ρ ε Bool} {t : SearchTree κ}
    {below above : List κ} (split : t.toList = below ++ above)
    (passes : ∀ x ∈ below, (goRight x).value = .ok true)
    (fails : ∀ x ∈ above, (goRight x).value = .ok false)
    (tests : ∀ x ∈ t.toList, (goRight x).Counts p (if q x then 1 else 0)) :
    (t.partitionPoint goRight).Counts p ((t.descent below.length).countP q) := by
  induction t generalizing below above with
  | nil => exact .pure _
  | node c l x r ihl ihr =>
      have inLeft : ∀ y ∈ l.toList, (goRight y).Counts p (if q y then 1 else 0) :=
        fun y hy => tests y (by simp [hy])
      have inRight : ∀ y ∈ r.toList, (goRight y).Counts p (if q y then 1 else 0) :=
        fun y hy => tests y (by simp [hy])
      have here := tests x (by simp)
      rw [partitionPoint, descent, List.countP_cons, Nat.add_comm]
      refine here.bind fun answer value => ?_
      rcases List.append_eq_append_iff.mp split with ⟨middle, hbelow, hrest⟩ | ⟨middle, hl, habove⟩
      · cases middle with
        | nil =>
            obtain rfl : x :: r.toList = above := hrest
            rw [fails x List.mem_cons_self] at value
            cases value
            rw [List.append_nil] at hbelow
            rw [if_neg Bool.false_ne_true, hbelow, length_toList, if_pos le_rfl, ← length_toList]
            exact ihl (List.append_nil _).symm (fun y hy => passes y (hbelow ▸ hy)) (by simp) inLeft
        | cons y middle =>
            obtain ⟨rfl, hr⟩ := List.cons.inj hrest
            rw [passes x (by simp [hbelow])] at value
            cases value
            obtain ⟨far, rest⟩ := gap_right hbelow
            rw [if_pos rfl, if_neg far, rest]
            exact (ihr hr (fun y hy => passes y (by simp [hbelow, hy])) fails inRight).map _
      · rw [fails x (by simp [habove])] at value
        cases value
        rw [if_neg Bool.false_ne_true, if_pos (gap_left hl)]
        exact ihl hl passes (fun y hy => fails y (by simp [habove, hy])) inLeft

end SearchTree

section Operations

variable {K L : Type} [LinearOrder K]

theorem SetModel.next_subset (s : Finset K) (op : SetOp K) :
    SetModel.next s op ⊆ insert op.key s := by
  cases op with
  | insert k => exact Finset.Subset.refl _
  | find k => exact Finset.subset_insert k s
  | erase k => exact (Finset.erase_subset k s).trans (Finset.subset_insert k s)

omit [LinearOrder K] in
@[simp] theorem SetOp.key_map (f : L → K) (op : SetOp L) : (op.map f).key = f op.key := by
  cases op <;> rfl

end Operations

/-! ## Searching in a tree that represents a set -/

namespace Represents

variable {ρ ε κ K : Type} [LinearOrder K] {p : ε → Bool} {key : κ → K} {t : SearchTree κ}
  {s : Finset K} {k : K} {c : KeyComparison ρ ε κ} {q q' : κ → Bool}

theorem split_lower (h : Represents key t s) (k : K) :
    ∃ below above, t.toList = below ++ above ∧ (∀ x ∈ below, key x < k) ∧
      (∀ x ∈ above, ¬ key x < k) ∧ below.length = rank s k := by
  by_cases present : k ∈ s
  · obtain ⟨below, x, above, split, hb, rfl, ha, len⟩ := h.split_of_mem present
    refine ⟨below, x :: above, split, hb, ?_, len⟩
    exact List.forall_mem_cons.mpr ⟨lt_irrefl _, fun y hy => (ha y hy).asymm⟩
  · obtain ⟨below, above, split, hb, ha, len⟩ := h.split_of_notMem present
    exact ⟨below, above, split, hb, fun y hy => (ha y hy).asymm, len⟩

theorem split_upper (h : Represents key t s) (k : K) :
    ∃ below above, t.toList = below ++ above ∧ (∀ x ∈ below, ¬ k < key x) ∧
      (∀ x ∈ above, k < key x) ∧ below.length = rank s k + if k ∈ s then 1 else 0 := by
  by_cases present : k ∈ s
  · obtain ⟨below, x, above, split, hb, rfl, ha, len⟩ := h.split_of_mem present
    refine ⟨below ++ [x], above, ?_, ?_, ha, ?_⟩
    · rw [split, List.append_assoc, List.singleton_append]
    · intro y hy
      rcases List.mem_append.mp hy with hy | hy
      · exact (hb y hy).asymm
      · rw [List.mem_singleton.mp hy]
        exact lt_irrefl _
    · rw [List.length_append, List.length_singleton, if_pos present, len]
  · obtain ⟨below, above, split, hb, ha, len⟩ := h.split_of_notMem present
    exact ⟨below, above, split, fun y hy => (hb y hy).asymm, ha,
      by rw [if_neg present, len, Nat.add_zero]⟩

/-- The gap behind the elements that are not after a key. -/
def upperGap (s : Finset K) (k : K) : Nat := rank s k + if k ∈ s then 1 else 0

/-- A lookup compares the nodes on its way with the key, and then the key with the node it
stopped before. -/
theorem counts_find (h : Represents key t s) (probes : Probes key k c t.toList)
    (nodeLess : ∀ x ∈ t.toList, (c.nodeLess x).Counts p (if q x then 1 else 0))
    (keyLess : ∀ x ∈ t.toList, (c.keyLess x).Counts p (if q' x then 1 else 0)) :
    (t.find c).Counts p
      ((t.descent (rank s k)).countP q + t.toList[rank s k]?.toList.countP q') := by
  obtain ⟨below, above, split, hb, ha, len⟩ := h.split_lower k
  rw [SearchTree.find]
  apply Traced.Counts.bind
  · rw [← len]
    apply SearchTree.counts_partitionPoint split _ _ nodeLess
    · exact fun x hx => (probes.nodeLess x (by simp [split, hx])).value_of (hb x hx)
    · exact fun x hx => (probes.nodeLess x (by simp [split, hx])).value_of_not (ha x hx)
  · intro j hj
    obtain rfl : rank s k = j := Except.ok.inj ((h.value_lowerBound probes).symm.trans hj)
    cases here : t.toList[rank s k]? with
    | none => exact .pure _
    | some x =>
        refine ((keyLess x (List.mem_of_getElem? here)).bind (m := 0) fun before _ => ?_).congr ?_
        · cases before <;> exact .pure _
        · rw [Option.toList_some, List.countP_singleton, Nat.add_zero]

/-- An insertion compares the key with the nodes on its way, and then the node it stopped behind
with the key. If that node is not equivalent, then the key is compared once more, with the node
under which it will hang. -/
theorem counts_insertUnique (h : Represents key t s) (B : Balance) {x : κ}
    (probes : Probes key (key x) c t.toList)
    (nodeLess : ∀ y ∈ t.toList, (c.nodeLess y).Counts p (if q y then 1 else 0))
    (keyLess : ∀ y ∈ t.toList, (c.keyLess y).Counts p (if q' y then 1 else 0)) :
    (t.insertUnique B c x).Counts p
      ((t.descent (upperGap s (key x))).countP q' +
        (t.toList.take (upperGap s (key x))).getLast?.toList.countP q +
        if key x ∈ s then 0 else (t.gapParent (rank s (key x))).toList.countP q') := by
  obtain ⟨below, above, split, hb, ha, len⟩ := h.split_upper (key x)
  rw [SearchTree.insertUnique]
  apply Traced.Counts.bind
  · rw [SearchTree.insertPoint]
    apply Traced.Counts.bind
    · rw [upperGap, ← len]
      apply SearchTree.counts_partitionPoint split
      · intro y hy
        rw [value_not_keyLess probes (by simp [split, hy]), decide_eq_true (hb y hy)]
      · intro y hy
        rw [value_not_keyLess probes (by simp [split, hy]), decide_eq_false (not_not.mpr (ha y hy))]
      · exact fun y hy => (keyLess y hy).map _
    · intro i hi
      obtain rfl : upperGap s (key x) = i :=
        Except.ok.inj ((h.value_upperBound probes).symm.trans hi)
      cases last : (t.toList.take (upperGap s (key x))).getLast? with
      | none => exact .pure _
      | some y =>
          have hy := List.mem_of_mem_take (List.mem_of_getLast? last)
          refine ((nodeLess y hy).bind (m := 0) fun before _ => ?_).congr ?_
          · cases before <;> exact .pure _
          · rw [Option.toList_some, List.countP_singleton, Nat.add_zero]
  · rintro ⟨i, fresh⟩ point
    obtain ⟨rfl, rfl⟩ :=
      Prod.mk.inj (Except.ok.inj ((h.value_insertPoint probes).symm.trans point))
    by_cases present : key x ∈ s
    · rw [if_pos present]
      simp only [present, not_true_eq_false, decide_false, Bool.false_eq_true, if_false]
      exact .pure _
    · rw [if_neg present]
      simp only [present, not_false_eq_true, decide_true, if_true]
      refine Traced.Counts.map ?_ _
      cases parent : t.gapParent (rank s (key x)) with
      | none => exact .pure _
      | some y =>
          refine ((keyLess y (List.mem_of_getElem? parent)).map _).congr ?_
          rw [Option.toList_some, List.countP_singleton]

/-- An effect of comparing the key with elements, but not elements with the key: a lookup has it
once, unless its key is after all elements. -/
theorem counts_find_right (h : Represents key t s) (probes : Probes key k c t.toList)
    (nodeLess : ∀ x ∈ t.toList, (c.nodeLess x).Counts p 0)
    (keyLess : ∀ x ∈ t.toList, (c.keyLess x).Counts p 1) :
    (t.find c).Counts p (if ∀ j ∈ s, j < k then 0 else 1) := by
  have never : ∀ x ∈ t.toList, (c.nodeLess x).Counts p (if false then 1 else 0) := nodeLess
  have always : ∀ x ∈ t.toList, (c.keyLess x).Counts p (if true then 1 else 0) := keyLess
  refine (h.counts_find probes never always).congr ?_
  rw [List.countP_eq_zero.mpr (by simp), Nat.zero_add, List.countP_true]
  by_cases last : ∀ j ∈ s, j < k
  · rw [if_pos last, h.getElem?_rank_eq_none_iff.mpr last]
    rfl
  · rw [if_neg last]
    cases here : t.toList[rank s k]? with
    | none => exact absurd (h.getElem?_rank_eq_none_iff.mp here) last
    | some x => rfl

/-! ### An effect of comparisons between equal keys -/

section Equal

variable {F F' : Prop} [Decidable F] [Decidable F']

theorem countP_descent_of_mem (h : Represents key t s) {below above : List κ} {x : κ}
    (split : t.toList = below ++ x :: above) {i : Nat}
    (adjacent : i = below.length ∨ i = below.length + 1) :
    (t.descent i).countP (fun y => decide (key y = key x ∧ F)) = if F then 1 else 0 := by
  obtain ⟨l, perm, sub⟩ := SearchTree.descent_subperm t i
  have nodup : (t.descent i).Nodup :=
    perm.nodup_iff.mp ((List.Nodup.of_map key h.nodup_map_key).sublist sub)
  rw [countP_eq_of_unique nodup (SearchTree.mem_descent split adjacent)]
  · simp
  · intro y hy equal
    have hx : x ∈ t.toList := by simp [split]
    exact List.inj_on_of_nodup_map h.nodup_map_key (SearchTree.mem_of_mem_descent hy) hx
      (of_decide_eq_true equal).1

theorem countP_eq_zero_of_notMem (h : Represents key t s) (absent : k ∉ s) {l : List κ}
    (members : l ⊆ t.toList) : l.countP (fun y => decide (key y = k ∧ F)) = 0 := by
  rw [List.countP_eq_zero]
  intro y hy equal
  exact absent ((h.mem_iff k).mpr ⟨y, members hy, (of_decide_eq_true equal).1⟩)

theorem countP_descent_equal (h : Represents key t s) {i : Nat}
    (adjacent : i = rank s k ∨ i = rank s k + 1) :
    (t.descent i).countP (fun y => decide (key y = k ∧ F)) = if k ∈ s ∧ F then 1 else 0 := by
  by_cases present : k ∈ s
  · obtain ⟨below, x, above, split, -, rfl, -, len⟩ := h.split_of_mem present
    rw [← len] at adjacent
    rw [h.countP_descent_of_mem split adjacent]
    simp [present]
  · rw [h.countP_eq_zero_of_notMem present (SearchTree.descent_subperm t _).subset,
      if_neg fun both => present both.1]

theorem countP_toList_equal (h : Represents key t s) {o : Option κ} (member : o.toList ⊆ t.toList)
    (found : k ∈ s → ∃ y, o = some y ∧ key y = k) :
    o.toList.countP (fun y => decide (key y = k ∧ F)) = if k ∈ s ∧ F then 1 else 0 := by
  by_cases present : k ∈ s
  · obtain ⟨y, rfl, rfl⟩ := found present
    rw [Option.toList_some, List.countP_singleton]
    simp [present]
  · rw [h.countP_eq_zero_of_notMem present member, if_neg fun both => present both.1]

/-- A lookup compares equal keys twice: an element with the key on the way, and the key with that
element at the end. -/
theorem counts_find_equal (h : Represents key t s) (probes : Probes key k c t.toList)
    (nodeLess : ∀ y ∈ t.toList, (c.nodeLess y).Counts p (if key y = k ∧ F then 1 else 0))
    (keyLess : ∀ y ∈ t.toList, (c.keyLess y).Counts p (if key y = k ∧ F' then 1 else 0)) :
    (t.find c).Counts p ((if k ∈ s ∧ F then 1 else 0) + if k ∈ s ∧ F' then 1 else 0) := by
  have way : ∀ y ∈ t.toList,
      (c.nodeLess y).Counts p (if decide (key y = k ∧ F) then 1 else 0) := by
    simpa using nodeLess
  have final : ∀ y ∈ t.toList,
      (c.keyLess y).Counts p (if decide (key y = k ∧ F') then 1 else 0) := by
    simpa using keyLess
  refine (h.counts_find probes way final).congr ?_
  rw [h.countP_descent_equal (.inl rfl), h.countP_toList_equal]
  · intro y hy
    exact List.mem_of_getElem? (Option.mem_toList.mp hy)
  · intro present
    obtain ⟨below, x, above, split, -, same, -, len⟩ := h.split_of_mem present
    exact ⟨x, by simp [split, ← len], same⟩

theorem counts_insertUnique_equal (h : Represents key t s) (B : Balance) {x : κ}
    (probes : Probes key (key x) c t.toList)
    (nodeLess : ∀ y ∈ t.toList, (c.nodeLess y).Counts p (if key y = key x ∧ F then 1 else 0))
    (keyLess : ∀ y ∈ t.toList, (c.keyLess y).Counts p (if key y = key x ∧ F' then 1 else 0)) :
    (t.insertUnique B c x).Counts p
      ((if key x ∈ s ∧ F then 1 else 0) + if key x ∈ s ∧ F' then 1 else 0) := by
  have final : ∀ y ∈ t.toList,
      (c.nodeLess y).Counts p (if decide (key y = key x ∧ F) then 1 else 0) := by
    simpa using nodeLess
  have way : ∀ y ∈ t.toList,
      (c.keyLess y).Counts p (if decide (key y = key x ∧ F') then 1 else 0) := by
    simpa using keyLess
  refine (h.counts_insertUnique B probes final way).congr ?_
  have side : (if key x ∈ s then 0 else (t.gapParent (rank s (key x))).toList.countP
      fun y => decide (key y = key x ∧ F')) = 0 := by
    split
    next present => rfl
    next absent =>
      apply h.countP_eq_zero_of_notMem absent
      exact fun y hy => List.mem_of_getElem? (Option.mem_toList.mp hy)
  rw [side, Nat.add_zero, Nat.add_comm, h.countP_toList_equal, h.countP_descent_equal]
  · rw [upperGap]
    split
    next => exact .inr rfl
    next => exact .inl rfl
  · intro y hy
    exact List.mem_of_mem_take (List.mem_of_getLast? (Option.mem_toList.mp hy))
  · intro present
    obtain ⟨below, y, above, split, -, same, -, len⟩ := h.split_of_mem present
    refine ⟨y, ?_, same⟩
    rw [upperGap, if_pos present, ← len]
    simp [split, List.take_append]

end Equal

/-! ### An effect of comparisons with some elements -/

theorem countP_key (h : Represents key t s) (P : K → Prop) [DecidablePred P] :
    t.toList.countP (fun x => decide (P (key x))) = (s.filter P).card := by
  have members : s.filter P = ((t.toList.map key).filter fun k => decide (P k)).toFinset := by
    ext k
    rw [← h.toFinset_map_key]
    simp
  rw [members, List.toFinset_card_of_nodup (h.nodup_map_key.filter _),
    ← List.countP_eq_length_filter, List.countP_map]
  rfl

theorem countP_toList_le_one {α : Type} (q : α → Bool) (o : Option α) : o.toList.countP q ≤ 1 :=
  List.countP_le_length.trans o.length_toList_le

theorem countP_eq_zero_of_subset {α : Type} {q : α → Bool} {l l' : List α} (none : l.countP q = 0)
    (members : l' ⊆ l) : l'.countP q = 0 := by
  rw [List.countP_eq_zero] at none ⊢
  exact fun x hx => none x (members hx)

/-- A lookup has an effect of comparisons with some elements at most once for each of these, and
once more; if there are none, then it does not have it. -/
theorem counts_find_le (h : Represents key t s) (probes : Probes key k c t.toList)
    (nodeLess : ∀ x ∈ t.toList, (c.nodeLess x).Counts p (if q x then 1 else 0))
    (keyLess : ∀ x ∈ t.toList, (c.keyLess x).Counts p (if q x then 1 else 0)) :
    ∃ n, (t.find c).Counts p n ∧ n ≤ t.toList.countP q + 1 ∧ (t.toList.countP q = 0 → n = 0) := by
  refine ⟨_, h.counts_find probes nodeLess keyLess, ?_, ?_⟩
  · have way := (SearchTree.descent_subperm t (rank s k)).countP_le q
    have final := countP_toList_le_one q t.toList[rank s k]?
    omega
  · intro none
    rw [countP_eq_zero_of_subset none (SearchTree.descent_subperm t _).subset,
      countP_eq_zero_of_subset none]
    intro y hy
    exact List.mem_of_getElem? (Option.mem_toList.mp hy)

theorem counts_insertUnique_le (h : Represents key t s) (B : Balance) {x : κ}
    (probes : Probes key (key x) c t.toList)
    (nodeLess : ∀ y ∈ t.toList, (c.nodeLess y).Counts p (if q y then 1 else 0))
    (keyLess : ∀ y ∈ t.toList, (c.keyLess y).Counts p (if q y then 1 else 0)) :
    ∃ n, (t.insertUnique B c x).Counts p n ∧ n ≤ t.toList.countP q + 2 ∧
      (t.toList.countP q = 0 → n = 0) := by
  refine ⟨_, h.counts_insertUnique B probes nodeLess keyLess, ?_, ?_⟩
  · have way := (SearchTree.descent_subperm t (upperGap s (key x))).countP_le q
    have final := countP_toList_le_one q (t.toList.take (upperGap s (key x))).getLast?
    have side := countP_toList_le_one q (t.gapParent (rank s (key x)))
    split <;> omega
  · intro none
    have side : (t.gapParent (rank s (key x))).toList.countP q = 0 :=
      countP_eq_zero_of_subset none fun y hy =>
        List.mem_of_getElem? (Option.mem_toList.mp hy)
    have final : (t.toList.take (upperGap s (key x))).getLast?.toList.countP q = 0 :=
      countP_eq_zero_of_subset none fun y hy =>
        List.mem_of_mem_take (List.mem_of_getLast? (Option.mem_toList.mp hy))
    rw [countP_eq_zero_of_subset none (SearchTree.descent_subperm t _).subset, final, side]
    split <;> rfl

end Represents

end Foundation

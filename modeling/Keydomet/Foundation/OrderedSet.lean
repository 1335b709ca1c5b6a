import Keydomet.Foundation.SearchTree
import Mathlib.Data.Finset.Sort

/-!
# Ordered containers of unique keys

The operations of `std::set` on a search tree. A container decides everything by
comparing a key with stored elements, in one argument order or the other; these two
comparisons may fault and log, and are all it is given. The sequence of comparisons
is the one of the usual red-black trees.

`Represents key t s` relates a tree to the mathematical set of the keys of its
elements. Each operation is specified on such a pair: it answers as the set does, and
leaves a tree that represents the changed set.
-/

namespace Foundation

variable {ρ ε κ K : Type}

/-- How a container compares a given key with its elements: `comp(element, key)` and
`comp(key, element)`. -/
structure KeyComparison (ρ ε κ : Type) where
  nodeLess : κ → Traced ρ ε Bool
  keyLess : κ → Traced ρ ε Bool

namespace SearchTree

/-- The first position whose element is not before the key. -/
def lowerBound (c : KeyComparison ρ ε κ) (t : SearchTree κ) : Traced ρ ε Nat :=
  t.partitionPoint c.nodeLess

/-- The first position whose element is after the key. -/
def upperBound (c : KeyComparison ρ ε κ) (t : SearchTree κ) : Traced ρ ε Nat :=
  t.partitionPoint fun x => return !(← c.keyLess x)

/-- The position of a key: the lower bound, unless the key is before its element. -/
def find (c : KeyComparison ρ ε κ) (t : SearchTree κ) : Traced ρ ε (Option Nat) := do
  let j ← t.lowerBound c
  match t.toList[j]? with
  | none => return none
  | some x => if ← c.keyLess x then return none else return some j

/-- The gap for a new key, or the position of the equivalent element: the descent stops
behind the elements that are not after the key, the last of which is then compared. -/
def insertPoint (c : KeyComparison ρ ε κ) (t : SearchTree κ) : Traced ρ ε (Nat × Bool) := do
  let i ← t.upperBound c
  match (t.toList.take i).getLast? with
  | none => return (i, true)
  | some x => if ← c.nodeLess x then return (i, true) else return (i - 1, false)

/-- The node under which the leaf in a gap hangs. -/
def gapParent (t : SearchTree κ) (i : Nat) : Option κ :=
  t.toList[if t.hangsRight i then i - 1 else i]?

/-- The comparison with the parent that selects the side of a new leaf. Its answer is
that of the search before it. -/
def selectSide (c : KeyComparison ρ ε κ) : Option κ → Traced ρ ε Unit
  | none => return ()
  | some parent => do
      let _ ← c.keyLess parent
      return ()

/-- Insert an element unless there is an equivalent one. The result is the container,
the position of the element with this key, and whether it is new. -/
def insertUnique (B : Balance) (c : KeyComparison ρ ε κ) (t : SearchTree κ) (k : κ) :
    Traced ρ ε (SearchTree κ × Nat × Bool) := do
  let (i, fresh) ← t.insertPoint c
  if fresh then
    selectSide c (t.gapParent i)
    return (B.afterInsert (t.insertAt i k), i, true)
  else
    return (t, i, false)

/-- What the elements around a hint say about a key, or nothing. -/
def hintPoint (c : KeyComparison ρ ε κ) (t : SearchTree κ) (hint : Nat) :
    Traced ρ ε (Option (Nat × Bool)) :=
  match t.toList[hint]? with
  | none =>
      match t.toList.getLast? with
      | none => return none
      | some last => do
          if ← c.nodeLess last then return some (t.size, true) else return none
  | some x => do
      if ← c.keyLess x then
        match (t.toList.take hint).getLast? with
        | none => return some (hint, true)
        | some previous => if ← c.nodeLess previous then return some (hint, true) else return none
      else if ← c.nodeLess x then
        match t.toList[hint + 1]? with
        | none => return some (hint + 1, true)
        | some next => if ← c.keyLess next then return some (hint + 1, true) else return none
      else
        return some (hint, false)

/-- Insert with a hint. If the hint says nothing, this is the insertion without. -/
def insertHint (B : Balance) (c : KeyComparison ρ ε κ) (t : SearchTree κ) (hint : Nat) (k : κ) :
    Traced ρ ε (SearchTree κ × Nat × Bool) := do
  match ← t.hintPoint c hint with
  | none => t.insertUnique B c k
  | some (i, true) =>
      -- A leaf to the left of the next element is linked without a comparison.
      if t.hangsRight i then selectSide c (t.gapParent i)
      return (B.afterInsert (t.insertAt i k), i, true)
  | some (i, false) => return (t, i, false)

/-- Both bounds of a key. The search parts at the first node that is equivalent to it. -/
def equalRange (c : KeyComparison ρ ε κ) : SearchTree κ → Traced ρ ε (Nat × Nat)
  | nil => return (0, 0)
  | node _ l x r => do
      if ← c.nodeLess x then
        let (first, last) ← equalRange c r
        return (l.size + 1 + first, l.size + 1 + last)
      else if ← c.keyLess x then
        equalRange c l
      else
        let first ← l.lowerBound c
        return (first, l.size + 1 + (← r.upperBound c))

/-- Erase the elements equivalent to a key, and count them. -/
def eraseKey (B : Balance) (c : KeyComparison ρ ε κ) (t : SearchTree κ) :
    Traced ρ ε (SearchTree κ × Nat) := do
  let (first, last) ← t.equalRange c
  return ((fun t => B.eraseAt t first)^[last - first] t, last - first)

end SearchTree

/-! ## The mathematical set -/

/-- An operation on a container, with its key. -/
inductive SetOp (K : Type) where
  | insert (k : K)
  | find (k : K)
  | erase (k : K)
deriving DecidableEq, Repr

def SetOp.key : SetOp K → K
  | insert k | find k | erase k => k

def SetOp.map {L : Type} (f : K → L) : SetOp K → SetOp L
  | insert k => .insert (f k)
  | find k => .find (f k)
  | erase k => .erase (f k)

/-- The answer to an operation: the position of the element with the inserted key and
whether it is new, the position of the key that was looked up, or the number of erased
elements. -/
inductive SetAnswer where
  | inserted (position : Nat) (fresh : Bool)
  | found (position : Option Nat)
  | erased (count : Nat)
deriving DecidableEq, Repr

/-- What can be observed of a container after an operation: the answer, the size, and
the keys in iteration order. -/
structure SetObservation (K : Type) where
  answer : SetAnswer
  size : Nat
  contents : List K
deriving DecidableEq, Repr

/-- An operation whose key is built as `x` and compared as `c` says. -/
def SearchTree.perform (B : Balance) (c : KeyComparison ρ ε κ) (x : κ) (t : SearchTree κ) :
    SetOp K → Traced ρ ε (SetAnswer × SearchTree κ)
  | .insert _ => do
      let (t', position, fresh) ← t.insertUnique B c x
      return (.inserted position fresh, t')
  | .find _ => do
      let position ← t.find c
      return (.found position, t)
  | .erase _ => do
      let (t', count) ← t.eraseKey B c
      return (.erased count, t')

variable [LinearOrder K]

/-- The number of keys below `k`: its position in iteration order. -/
def rank (s : Finset K) (k : K) : Nat := (s.filter (· < k)).card

namespace SetModel

def answer (s : Finset K) : SetOp K → SetAnswer
  | .insert k => .inserted (rank s k) (decide (k ∉ s))
  | .find k => .found (if k ∈ s then some (rank s k) else none)
  | .erase k => .erased (if k ∈ s then 1 else 0)

def next (s : Finset K) : SetOp K → Finset K
  | .insert k => insert k s
  | .find _ => s
  | .erase k => s.erase k

/-- The machine an ordered container of unique keys implements. -/
def step (s : Finset K) (op : SetOp K) : SetObservation K × Finset K :=
  (⟨answer s op, (next s op).card, (next s op).sort (· ≤ ·)⟩, next s op)

end SetModel

/-! ## The set a tree represents -/

/-- The elements of a tree ascend strictly by their keys, which are the members of `s`. -/
structure Represents (key : κ → K) (t : SearchTree κ) (s : Finset K) : Prop where
  ordered : t.toList.Pairwise fun x y => key x < key y
  mem_iff : ∀ k, k ∈ s ↔ ∃ x ∈ t.toList, key x = k

/-- On the elements of a list, the two comparisons answer with the order of the keys. -/
structure Probes (key : κ → K) (k : K) (c : KeyComparison ρ ε κ) (l : List κ) : Prop where
  nodeLess : ∀ x ∈ l, (c.nodeLess x).Answers (key x < k)
  keyLess : ∀ x ∈ l, (c.keyLess x).Answers (k < key x)

theorem Probes.of_subset {key : κ → K} {k : K} {c : KeyComparison ρ ε κ} {l l' : List κ}
    (probes : Probes key k c l) (subset : l' ⊆ l) : Probes key k c l' where
  nodeLess x hx := probes.nodeLess x (subset hx)
  keyLess x hx := probes.keyLess x (subset hx)

/-- A strictly ascending sequence splits around any key. -/
theorem exists_split {key : κ → K} {l : List κ} (ordered : l.Pairwise fun x y => key x < key y)
    (k : K) :
    ∃ below middle above, l = below ++ middle ++ above ∧ (∀ x ∈ below, key x < k) ∧
      (∀ x ∈ above, k < key x) ∧ (middle = [] ∨ ∃ x, middle = [x] ∧ key x = k) := by
  induction l with
  | nil => exact ⟨[], [], [], rfl, by simp, by simp, .inl rfl⟩
  | cons x l ih =>
      obtain ⟨first, rest⟩ := List.pairwise_cons.mp ordered
      rcases lt_trichotomy (key x) k with less | rfl | greater
      · obtain ⟨below, middle, above, rfl, hb, ha, hm⟩ := ih rest
        exact ⟨x :: below, middle, above, rfl, List.forall_mem_cons.mpr ⟨less, hb⟩, ha, hm⟩
      · exact ⟨[], [x], l, rfl, by simp, first, .inr ⟨x, rfl, rfl⟩⟩
      · refine ⟨[], [], x :: l, rfl, by simp, ?_, .inl rfl⟩
        exact List.forall_mem_cons.mpr ⟨greater, fun y hy => greater.trans (first y hy)⟩

namespace Represents

variable {key : κ → K} {t : SearchTree κ} {s : Finset K} {k : K}

theorem nil (key : κ → K) : Represents key .nil ∅ := ⟨List.Pairwise.nil, by simp⟩

theorem singleton (key : κ → K) (marked : Bool) (x : κ) :
    Represents key (.node marked .nil x .nil) {key x} := ⟨by simp, by simp [eq_comm]⟩

theorem nodup_map_key (h : Represents key t s) : (t.toList.map key).Nodup := by
  rw [List.Nodup, List.pairwise_map]
  exact h.ordered.imp fun less => less.ne

theorem toFinset_map_key (h : Represents key t s) : (t.toList.map key).toFinset = s := by
  ext k
  rw [List.mem_toFinset, List.mem_map, h.mem_iff]

theorem map_key_toList (h : Represents key t s) : t.toList.map key = s.sort (· ≤ ·) := by
  rw [← h.toFinset_map_key]
  refine ((List.toFinset_sort (· ≤ ·) h.nodup_map_key).mpr ?_).symm
  rw [List.pairwise_map]
  exact h.ordered.imp fun less => less.le

theorem size_eq (h : Represents key t s) : t.size = s.card := by
  rw [← SearchTree.length_toList, ← List.length_map (f := key), h.map_key_toList,
    Finset.length_sort]

theorem observation_eq (h : Represents key t s) (answer : SetAnswer) :
    (⟨answer, t.size, t.toList.map key⟩ : SetObservation K) =
      ⟨answer, s.card, s.sort (· ≤ ·)⟩ := by
  rw [h.size_eq, h.map_key_toList]

theorem length_below (h : Represents key t s) {below above : List κ}
    (split : t.toList = below ++ above) (hbelow : ∀ x ∈ below, key x < k)
    (habove : ∀ x ∈ above, ¬ key x < k) : below.length = rank s k := by
  have ascending := h.nodup_map_key
  rw [split, List.map_append] at ascending
  have same : (below.map key).toFinset = s.filter (· < k) := by
    ext j
    rw [List.mem_toFinset, Finset.mem_filter, h.mem_iff, split]
    constructor
    · intro hj
      obtain ⟨x, hx, rfl⟩ := List.mem_map.mp hj
      exact ⟨⟨x, List.mem_append_left _ hx, rfl⟩, hbelow x hx⟩
    · rintro ⟨⟨x, hx, rfl⟩, less⟩
      rcases List.mem_append.mp hx with inBelow | inAbove
      · exact List.mem_map_of_mem inBelow
      · exact absurd less (habove x inAbove)
  rw [rank, ← same, List.toFinset_card_of_nodup ascending.of_append_left, List.length_map]

theorem split_of_notMem (h : Represents key t s) (absent : k ∉ s) :
    ∃ below above, t.toList = below ++ above ∧ (∀ x ∈ below, key x < k) ∧
      (∀ x ∈ above, k < key x) ∧ below.length = rank s k := by
  obtain ⟨below, middle, above, split, hb, ha, hm⟩ := exists_split h.ordered k
  obtain rfl : middle = [] := by
    rcases hm with empty | ⟨x, rfl, hx⟩
    · exact empty
    · exact absurd ((h.mem_iff k).mpr ⟨x, by simp [split], hx⟩) absent
  rw [List.append_nil] at split
  exact ⟨below, above, split, hb, ha, h.length_below split hb fun x hx => (ha x hx).asymm⟩

theorem split_of_mem (h : Represents key t s) (present : k ∈ s) :
    ∃ below x above, t.toList = below ++ x :: above ∧ (∀ y ∈ below, key y < k) ∧ key x = k ∧
      (∀ y ∈ above, k < key y) ∧ below.length = rank s k := by
  obtain ⟨below, middle, above, split, hb, ha, hm⟩ := exists_split h.ordered k
  rcases hm with rfl | ⟨x, rfl, hx⟩
  · obtain ⟨x, hx, rfl⟩ := (h.mem_iff k).mp present
    rw [split, List.append_nil] at hx
    rcases List.mem_append.mp hx with inBelow | inAbove
    · exact absurd (hb x inBelow) (lt_irrefl _)
    · exact absurd (ha x inAbove) (lt_irrefl _)
  · rw [List.append_assoc, List.singleton_append] at split
    refine ⟨below, x, above, split, hb, hx, ha, h.length_below split hb ?_⟩
    rw [List.forall_mem_cons]
    exact ⟨hx.not_lt, fun y hy => (ha y hy).asymm⟩

/-! ## Searching -/

section Search

variable {c : KeyComparison ρ ε κ}

theorem value_lowerBound (h : Represents key t s) (probes : Probes key k c t.toList) :
    (t.lowerBound c).value = .ok (rank s k) := by
  by_cases present : k ∈ s
  · obtain ⟨below, x, above, split, hb, rfl, ha, len⟩ := h.split_of_mem present
    rw [← len]
    refine SearchTree.value_partitionPoint split (fun y hy => ?_) fun y hy => ?_
    · exact (probes.nodeLess y (by simp [split, hy])).value_of (hb y hy)
    · refine (probes.nodeLess y (by rw [split]; exact List.mem_append_right _ hy)).value_of_not ?_
      rcases List.mem_cons.mp hy with rfl | hy
      · exact lt_irrefl _
      · exact (ha y hy).asymm
  · obtain ⟨below, above, split, hb, ha, len⟩ := h.split_of_notMem present
    rw [← len]
    refine SearchTree.value_partitionPoint split (fun y hy => ?_) fun y hy => ?_
    · exact (probes.nodeLess y (by simp [split, hy])).value_of (hb y hy)
    · exact (probes.nodeLess y (by simp [split, hy])).value_of_not (ha y hy).asymm

theorem value_not_keyLess {l : List κ} (probes : Probes key k c l) {x : κ} (hx : x ∈ l) :
    (do return !(← c.keyLess x) : Traced ρ ε Bool).value = .ok (decide (¬ k < key x)) := by
  rw [Traced.value_bind_of_eq (Traced.answers_iff.mp (probes.keyLess x hx)), decide_not]
  rfl

theorem value_upperBound (h : Represents key t s) (probes : Probes key k c t.toList) :
    (t.upperBound c).value = .ok (rank s k + if k ∈ s then 1 else 0) := by
  by_cases present : k ∈ s
  · obtain ⟨below, x, above, split, hb, rfl, ha, len⟩ := h.split_of_mem present
    rw [if_pos present, ← len, ← List.length_singleton (a := x), ← List.length_append]
    rw [← List.singleton_append, ← List.append_assoc] at split
    refine SearchTree.value_partitionPoint split (fun y hy => ?_) fun y hy => ?_
    · rw [value_not_keyLess probes (by rw [split]; exact List.mem_append_left _ hy)]
      rcases List.mem_append.mp hy with hy | hy
      · rw [decide_eq_true (hb y hy).asymm]
      · rw [List.mem_singleton.mp hy, decide_eq_true (lt_irrefl _)]
    · rw [value_not_keyLess probes (by simp [split, hy]), decide_eq_false (not_not.mpr (ha y hy))]
  · obtain ⟨below, above, split, hb, ha, len⟩ := h.split_of_notMem present
    rw [if_neg present, ← len, Nat.add_zero]
    refine SearchTree.value_partitionPoint split (fun y hy => ?_) fun y hy => ?_
    · rw [value_not_keyLess probes (by simp [split, hy]), decide_eq_true (hb y hy).asymm]
    · rw [value_not_keyLess probes (by simp [split, hy]), decide_eq_false (not_not.mpr (ha y hy))]

theorem value_find (h : Represents key t s) (probes : Probes key k c t.toList) :
    (t.find c).value = .ok (if k ∈ s then some (rank s k) else none) := by
  rw [SearchTree.find, Traced.value_bind_of_eq (h.value_lowerBound probes)]
  by_cases present : k ∈ s
  · obtain ⟨below, x, above, split, -, rfl, -, len⟩ := h.split_of_mem present
    have here : t.toList[rank s (key x)]? = some x := by simp [split, ← len]
    have answer := (probes.keyLess x (by simp [split])).value_of_not (lt_irrefl _)
    simp only [here]
    rw [Traced.value_bind_of_eq answer, if_pos present]
    rfl
  · obtain ⟨below, above, split, -, ha, len⟩ := h.split_of_notMem present
    rw [if_neg present]
    cases above with
    | nil =>
        have past : t.toList[rank s k]? = none := by simp [split, ← len]
        simp only [past]
        rfl
    | cons x above =>
        have there : t.toList[rank s k]? = some x := by simp [split, ← len]
        have answer := (probes.keyLess x (by simp [split])).value_of (ha x List.mem_cons_self)
        simp only [there]
        rw [Traced.value_bind_of_eq answer]
        rfl

end Search

/-! ## Inserting -/

theorem gap_of_split (h : Represents key t s) {below above : List κ}
    (split : t.toList = below ++ above) (hb : ∀ x ∈ below, key x < k)
    (ha : ∀ x ∈ above, k < key x) : k ∉ s ∧ below.length = rank s k := by
  refine ⟨fun present => ?_, h.length_below split hb fun x hx => (ha x hx).asymm⟩
  obtain ⟨x, hx, rfl⟩ := (h.mem_iff k).mp present
  rw [split] at hx
  rcases List.mem_append.mp hx with inBelow | inAbove
  · exact lt_irrefl _ (hb x inBelow)
  · exact lt_irrefl _ (ha x inAbove)

theorem insertAt (h : Represents key t s) (B : Balance) {x : κ} (absent : key x ∉ s) :
    Represents key (B.afterInsert (t.insertAt (rank s (key x)) x)) (insert (key x) s) ∧
      (B.afterInsert (t.insertAt (rank s (key x)) x)).toList ⊆ x :: t.toList := by
  obtain ⟨below, above, split, hb, ha, len⟩ := h.split_of_notMem absent
  have contents : (B.afterInsert (t.insertAt (rank s (key x)) x)).toList =
      below ++ x :: above := by
    rw [B.toList_afterInsert, ← len, SearchTree.toList_insertAt x split]
  have ordered := h.ordered
  rw [split, List.pairwise_append] at ordered
  refine ⟨⟨?_, fun k => ?_⟩, ?_⟩
  · rw [contents, List.pairwise_append, List.pairwise_cons]
    refine ⟨ordered.1, ⟨ha, ordered.2.1⟩, fun y hy z hz => ?_⟩
    rcases List.mem_cons.mp hz with rfl | hz
    · exact hb y hy
    · exact (hb y hy).trans (ha z hz)
  · rw [contents, Finset.mem_insert, h.mem_iff, split]
    simp only [List.mem_append, List.mem_cons]
    constructor
    · rintro (rfl | ⟨y, hy, rfl⟩)
      · exact ⟨x, .inr (.inl rfl), rfl⟩
      · exact ⟨y, hy.imp_right .inr, rfl⟩
    · rintro ⟨y, hy | rfl | hy, rfl⟩
      · exact .inr ⟨y, .inl hy, rfl⟩
      · exact .inl rfl
      · exact .inr ⟨y, .inr hy, rfl⟩
  · rw [contents, split]
    intro y
    simp only [List.mem_append, List.mem_cons]
    rintro (hy | rfl | hy)
    · exact .inr (.inl hy)
    · exact .inl rfl
    · exact .inr (.inr hy)

section Insert

variable {c : KeyComparison ρ ε κ}

theorem value_insertPoint (h : Represents key t s) (probes : Probes key k c t.toList) :
    (t.insertPoint c).value = .ok (rank s k, decide (k ∉ s)) := by
  rw [SearchTree.insertPoint, Traced.value_bind_of_eq (h.value_upperBound probes)]
  by_cases present : k ∈ s
  · obtain ⟨below, x, above, split, -, rfl, -, len⟩ := h.split_of_mem present
    have last : (t.toList.take (rank s (key x) + 1)).getLast? = some x := by
      simp [split, ← len, List.take_append]
    have answer := (probes.nodeLess x (by simp [split])).value_of_not (lt_irrefl _)
    simp only [if_pos present, last]
    rw [Traced.value_bind_of_eq answer]
    simp [present]
  · obtain ⟨below, above, split, hb, -, len⟩ := h.split_of_notMem present
    have front : t.toList.take (rank s k) = below := by simp [split, ← len]
    simp only [if_neg present, Nat.add_zero, front]
    cases last : below.getLast? with
    | none => simp [present]
    | some x =>
        have hx := List.mem_of_getLast? last
        have answer := (probes.nodeLess x (by simp [split, hx])).value_of (hb x hx)
        simp only []
        rw [Traced.value_bind_of_eq answer]
        simp [present]

theorem value_selectSide {key : κ → K} (probes : Probes key k c t.toList) (i : Nat) :
    (SearchTree.selectSide c (t.gapParent i)).value = .ok () := by
  cases parent : t.gapParent i with
  | none => rfl
  | some x =>
      obtain ⟨r, run, -⟩ := probes.keyLess x (List.mem_of_getElem? parent)
      rw [SearchTree.selectSide, Traced.value_bind_of_eq run]
      rfl

/-- An insertion answers whether the key was new, and adds it. -/
theorem value_insertUnique (h : Represents key t s) (B : Balance) {x : κ}
    (probes : Probes key (key x) c t.toList) :
    ∃ t', (t.insertUnique B c x).value = .ok (t', rank s (key x), decide (key x ∉ s)) ∧
      Represents key t' (insert (key x) s) ∧ t'.toList ⊆ x :: t.toList := by
  rw [SearchTree.insertUnique, Traced.value_bind_of_eq (h.value_insertPoint probes)]
  by_cases present : key x ∈ s
  · refine ⟨t, by simp [present], ?_, List.subset_cons_self x _⟩
    rwa [Finset.insert_eq_of_mem present]
  · obtain ⟨represents, subset⟩ := h.insertAt B present
    refine ⟨_, ?_, represents, subset⟩
    simp only [present, not_false_eq_true, decide_true, if_true]
    rw [Traced.value_bind_of_eq (value_selectSide probes _)]
    rfl

theorem forall_lt_of_getLast? {l : List κ} (ordered : l.Pairwise fun x y => key x < key y) {b : κ}
    (last : l.getLast? = some b) (less : key b < k) : ∀ x ∈ l, key x < k := by
  obtain ⟨front, rfl⟩ := List.getLast?_eq_some_iff.mp last
  intro x hx
  rcases List.mem_append.mp hx with inFront | isLast
  · exact ((List.pairwise_append.mp ordered).2.2 x inFront b (List.mem_singleton_self b)).trans less
  · rwa [List.mem_singleton.mp isLast]

theorem forall_gt_of_head? {l : List κ} (ordered : l.Pairwise fun x y => key x < key y) {a : κ}
    (head : l.head? = some a) (greater : k < key a) : ∀ x ∈ l, k < key x := by
  cases l with
  | nil => simp at head
  | cons b l =>
      obtain rfl : b = a := Option.some.inj head
      rw [List.forall_mem_cons]
      exact ⟨greater, fun x hx => greater.trans ((List.pairwise_cons.mp ordered).1 x hx)⟩

/-- A gap whose neighbours are on either side of a key is the gap of that key. -/
theorem gap_of_neighbours (h : Represents key t s) {i : Nat} (hi : i ≤ t.toList.length)
    (previous : ∀ b ∈ (t.toList.take i).getLast?, key b < k)
    (next : ∀ a ∈ t.toList[i]?, k < key a) : (i, true) = (rank s k, decide (k ∉ s)) := by
  have below : ∀ x ∈ t.toList.take i, key x < k := by
    cases last : (t.toList.take i).getLast? with
    | none => simp [List.getLast?_eq_none_iff.mp last]
    | some b =>
        exact forall_lt_of_getLast? (h.ordered.sublist (List.take_sublist i _)) last
          (previous b last)
  have above : ∀ x ∈ t.toList.drop i, k < key x := by
    cases head : (t.toList.drop i).head? with
    | none => simp [List.head?_eq_none_iff.mp head]
    | some a =>
        rw [List.head?_drop] at head
        exact forall_gt_of_head? (h.ordered.sublist (List.drop_sublist i _))
          (by rw [List.head?_drop, head]) (next a head)
  obtain ⟨absent, len⟩ := h.gap_of_split (List.take_append_drop i t.toList).symm below above
  rw [List.length_take_of_le hi] at len
  rw [len, decide_eq_true absent]

theorem eq_rank_of_getElem? (h : Represents key t s) {i : Nat} {x : κ}
    (here : t.toList[i]? = some x) : i = rank s (key x) := by
  obtain ⟨bound, rfl⟩ := List.getElem?_eq_some_iff.mp here
  have split : t.toList = t.toList.take i ++ t.toList[i] :: t.toList.drop (i + 1) := by
    rw [← List.drop_eq_getElem_cons bound, List.take_append_drop]
  have ordered := h.ordered
  rw [split, List.pairwise_append, List.pairwise_cons] at ordered
  have len := h.length_below split (fun y hy => ordered.2.2 y hy _ List.mem_cons_self)
    (List.forall_mem_cons.mpr ⟨lt_irrefl _, fun y hy => (ordered.2.1.1 y hy).asymm⟩)
  rwa [List.length_take_of_le bound.le] at len

/-- A last comparison that either confirms a gap or leaves the question open. -/
theorem value_confirm {test : Traced ρ ε Bool} {P : Prop} (answers : test.Answers P)
    {gap found : Nat × Bool} (confirmed : P → gap = found) :
    ∃ r, (do if ← test then return some gap else return none :
      Traced ρ ε (Option (Nat × Bool))).value = .ok r ∧ ∀ point ∈ r, point = found := by
  obtain ⟨r, run, meaning⟩ := answers
  rw [Traced.value_bind_of_eq run]
  cases r with
  | true => exact ⟨some gap, rfl, fun _ hp => Option.some.inj hp ▸ confirmed (meaning.mp rfl)⟩
  | false => exact ⟨none, rfl, by simp⟩

/-- What a hint says about a key, if anything, is what a search would have found. -/
theorem value_hintPoint (h : Represents key t s) (probes : Probes key k c t.toList) (hint : Nat) :
    ∃ r, (t.hintPoint c hint).value = .ok r ∧
      ∀ point ∈ r, point = (rank s k, decide (k ∉ s)) := by
  rw [SearchTree.hintPoint]
  cases here : t.toList[hint]? with
  | none =>
      cases last : t.toList.getLast? with
      | none => exact ⟨none, rfl, by simp⟩
      | some b =>
          refine value_confirm (probes.nodeLess b (List.mem_of_getLast? last)) fun less => ?_
          rw [← SearchTree.length_toList]
          refine h.gap_of_neighbours le_rfl ?_ (by simp)
          rw [List.take_length, last]
          simpa using less
  | some x =>
      have hx := List.mem_of_getElem? here
      have bound : hint < t.toList.length := (List.getElem?_eq_some_iff.mp here).1
      obtain ⟨less, runLess, meaningLess⟩ := probes.keyLess x hx
      obtain ⟨more, runMore, meaningMore⟩ := probes.nodeLess x hx
      simp only []
      rw [Traced.value_bind_of_eq runLess]
      cases less with
      | true =>
          have next : ∀ a ∈ t.toList[hint]?, k < key a := by
            rw [here]
            simpa using meaningLess
          rw [if_pos rfl]
          cases last : (t.toList.take hint).getLast? with
          | none =>
              exact ⟨_, rfl, fun _ hp => Option.some.inj hp ▸
                h.gap_of_neighbours bound.le (by simp [last]) next⟩
          | some b =>
              have hb := List.mem_of_mem_take (List.mem_of_getLast? last)
              refine value_confirm (probes.nodeLess b hb) fun previous => ?_
              exact h.gap_of_neighbours bound.le (by simpa [last] using previous) next
      | false =>
          rw [if_neg Bool.false_ne_true, Traced.value_bind_of_eq runMore]
          cases more with
          | true =>
              have previous : ∀ b ∈ (t.toList.take (hint + 1)).getLast?, key b < k := by
                rw [List.take_add_one, here]
                simpa using meaningMore
              rw [if_pos rfl]
              cases next : t.toList[hint + 1]? with
              | none =>
                  exact ⟨_, rfl, fun _ hp => Option.some.inj hp ▸
                    h.gap_of_neighbours bound previous (by simp [next])⟩
              | some a =>
                  refine value_confirm (probes.keyLess a (List.mem_of_getElem? next)) fun less => ?_
                  exact h.gap_of_neighbours bound previous (by simpa [next] using less)
          | false =>
              have same : key x = k := le_antisymm
                (not_lt.mp fun less => Bool.false_ne_true (meaningLess.mpr less))
                (not_lt.mp fun more => Bool.false_ne_true (meaningMore.mpr more))
              have present : k ∈ s := (h.mem_iff k).mpr ⟨x, hx, same⟩
              refine ⟨_, rfl, fun _ hp => Option.some.inj hp ▸ ?_⟩
              rw [h.eq_rank_of_getElem? here, same, decide_eq_false (not_not.mpr present)]

/-- A hint changes the comparisons of an insertion, not its result. -/
theorem value_insertHint (h : Represents key t s) (B : Balance) {x : κ}
    (probes : Probes key (key x) c t.toList) (hint : Nat) :
    ∃ t', (t.insertHint B c hint x).value = .ok (t', rank s (key x), decide (key x ∉ s)) ∧
      Represents key t' (insert (key x) s) ∧ t'.toList ⊆ x :: t.toList := by
  obtain ⟨r, run, correct⟩ := h.value_hintPoint probes hint
  rw [SearchTree.insertHint, Traced.value_bind_of_eq run]
  cases r with
  | none => exact h.value_insertUnique B probes
  | some point =>
      obtain rfl := correct point rfl
      by_cases present : key x ∈ s
      · refine ⟨t, by simp [present], ?_, List.subset_cons_self x _⟩
        rwa [Finset.insert_eq_of_mem present]
      · obtain ⟨represents, subset⟩ := h.insertAt B present
        refine ⟨_, ?_, represents, subset⟩
        simp only [present, not_false_eq_true, decide_true]
        cases t.hangsRight (rank s (key x)) with
        | false => rfl
        | true =>
            rw [if_pos rfl, Traced.value_bind_of_eq (value_selectSide probes _)]
            rfl

end Insert

/-! ## Erasing -/

theorem eraseAt (h : Represents key t s) (B : Balance) (present : k ∈ s) :
    Represents key (B.eraseAt t (rank s k)) (s.erase k) ∧
      (B.eraseAt t (rank s k)).toList ⊆ t.toList := by
  obtain ⟨below, x, above, split, hb, rfl, ha, len⟩ := h.split_of_mem present
  have contents : (B.eraseAt t (rank s (key x))).toList = below ++ above := by
    rw [B.toList_eraseAt, ← len, split, List.eraseIdx_append_of_length_le le_rfl, Nat.sub_self,
      List.eraseIdx_cons_zero]
  have fewer : (B.eraseAt t (rank s (key x))).toList.Sublist t.toList := by
    rw [B.toList_eraseAt]
    exact List.eraseIdx_sublist _ _
  refine ⟨⟨h.ordered.sublist fewer, fun k => ?_⟩, fewer.subset⟩
  rw [contents, Finset.mem_erase, h.mem_iff, split]
  simp only [List.mem_append, List.mem_cons]
  constructor
  · rintro ⟨differ, y, hy | rfl | hy, rfl⟩
    · exact ⟨y, .inl hy, rfl⟩
    · exact absurd rfl differ
    · exact ⟨y, .inr hy, rfl⟩
  · rintro ⟨y, hy | hy, rfl⟩
    · exact ⟨(hb y hy).ne, y, .inl hy, rfl⟩
    · exact ⟨(ha y hy).ne', y, .inr (.inr hy), rfl⟩

/-- The parting search finds what the two searches find one after the other. -/
theorem value_equalRange {c : KeyComparison ρ ε κ} {t : SearchTree κ}
    (probes : Probes key k c t.toList) :
    (t.equalRange c).value = do
      let first ← (t.lowerBound c).value
      let last ← (t.upperBound c).value
      return (first, last) := by
  induction t with
  | nil => rfl
  | node marked l x r ihl ihr =>
      have inLeft : Probes key k c l.toList := probes.of_subset fun y hy => by simp [hy]
      have inRight : Probes key k c r.toList := probes.of_subset fun y hy => by simp [hy]
      have here : x ∈ (SearchTree.node marked l x r).toList := by simp
      have less := Traced.answers_iff.mp (probes.nodeLess x here)
      have more := Traced.answers_iff.mp (probes.keyLess x here)
      have notMore := value_not_keyLess probes here
      rw [SearchTree.equalRange, Traced.value_bind_of_eq less]
      by_cases before : key x < k
      · rw [decide_eq_true before] at less ⊢
        rw [decide_eq_true before.asymm] at notMore
        have lower : ((SearchTree.node marked l x r).lowerBound c).value =
            (l.size + 1 + ·) <$> (r.lowerBound c).value :=
          SearchTree.value_partitionPoint_right less
        have upper : ((SearchTree.node marked l x r).upperBound c).value =
            (l.size + 1 + ·) <$> (r.upperBound c).value :=
          SearchTree.value_partitionPoint_right notMore
        rw [if_pos rfl, Traced.value_bind, ihr inRight, lower, upper]
        cases (r.lowerBound c).value <;> cases (r.upperBound c).value <;> rfl
      · rw [decide_eq_false before] at less ⊢
        have lower : ((SearchTree.node marked l x r).lowerBound c).value =
            (l.lowerBound c).value :=
          SearchTree.value_partitionPoint_left less
        rw [if_neg Bool.false_ne_true, Traced.value_bind_of_eq more, lower]
        by_cases after : k < key x
        · rw [decide_eq_false (not_not.mpr after)] at notMore
          have upper : ((SearchTree.node marked l x r).upperBound c).value =
              (l.upperBound c).value :=
            SearchTree.value_partitionPoint_left notMore
          rw [decide_eq_true after, if_pos rfl, upper]
          exact ihl inLeft
        · rw [decide_eq_true after] at notMore
          have upper : ((SearchTree.node marked l x r).upperBound c).value =
              (l.size + 1 + ·) <$> (r.upperBound c).value :=
            SearchTree.value_partitionPoint_right notMore
          rw [decide_eq_false after, if_neg Bool.false_ne_true, Traced.value_bind, upper]
          cases (l.lowerBound c).value with
          | error reason => rfl
          | ok first =>
              change (r.upperBound c >>= _).value = _
              rw [Traced.value_bind]
              cases (r.upperBound c).value <;> rfl

theorem value_eraseKey (h : Represents key t s) (B : Balance) {c : KeyComparison ρ ε κ}
    (probes : Probes key k c t.toList) :
    ∃ t', (t.eraseKey B c).value = .ok (t', if k ∈ s then 1 else 0) ∧
      Represents key t' (s.erase k) ∧ t'.toList ⊆ t.toList := by
  have range : (t.equalRange c).value =
      .ok (rank s k, rank s k + if k ∈ s then 1 else 0) := by
    rw [value_equalRange probes, h.value_lowerBound probes, h.value_upperBound probes]
    rfl
  rw [SearchTree.eraseKey, Traced.value_bind_of_eq range]
  dsimp only
  rw [Nat.add_sub_cancel_left]
  by_cases present : k ∈ s
  · obtain ⟨represents, subset⟩ := h.eraseAt B present
    exact ⟨_, by simp [present], represents, subset⟩
  · rw [Finset.erase_eq_of_notMem present]
    exact ⟨t, by simp [present], h, List.Subset.refl _⟩

/-- Every operation answers as the set does, and leaves a tree that represents the changed
set. -/
theorem value_perform (h : Represents key t s) (B : Balance) {c : KeyComparison ρ ε κ} {x : κ}
    (probes : Probes key (key x) c t.toList) {op : SetOp K} (same : op.key = key x) :
    ∃ t', (t.perform B c x op).value = .ok (SetModel.answer s op, t') ∧
      Represents key t' (SetModel.next s op) ∧ t'.toList ⊆ x :: t.toList := by
  cases op with
  | insert k =>
      obtain rfl : k = key x := same
      obtain ⟨t', run, represents, subset⟩ := h.value_insertUnique B probes
      refine ⟨t', ?_, represents, subset⟩
      rw [SearchTree.perform, Traced.value_bind_of_eq run]
      rfl
  | find k =>
      obtain rfl : k = key x := same
      refine ⟨t, ?_, h, List.subset_cons_self x _⟩
      rw [SearchTree.perform, Traced.value_bind_of_eq (h.value_find probes)]
      rfl
  | erase k =>
      obtain rfl : k = key x := same
      obtain ⟨t', run, represents, subset⟩ := h.value_eraseKey B probes
      refine ⟨t', ?_, represents, List.subset_cons_of_subset x subset⟩
      rw [SearchTree.perform, Traced.value_bind_of_eq run]
      rfl

/-! ## Comparisons made -/

section Effects

variable {P : ε → Prop} {c : KeyComparison ρ ε κ}

theorem getElem?_rank_eq_none_iff (h : Represents key t s) :
    t.toList[rank s k]? = none ↔ ∀ j ∈ s, j < k := by
  rw [List.getElem?_eq_none_iff, SearchTree.length_toList, h.size_eq, rank,
    ← Finset.card_filter_eq_iff]
  have bound := Finset.card_filter_le s (· < k)
  omega

/-- A lookup of a key after all elements compares each element it visits with the key, and
never the key with an element. -/
theorem emits_find (h : Represents key t s) (probes : Probes key k c t.toList)
    (last : ∀ j ∈ s, j < k) (effects : ∀ x ∈ t.toList, (c.nodeLess x).Emits P) :
    (t.find c).Emits P := by
  rw [SearchTree.find]
  refine (SearchTree.emits_partitionPoint effects).bind fun j hj => ?_
  obtain rfl : rank s k = j := Except.ok.inj ((h.value_lowerBound probes).symm.trans hj)
  rw [h.getElem?_rank_eq_none_iff.mpr last]
  exact .pure _

/-- A lookup of any other key ends with a comparison of the key with an element. -/
theorem performs_find (h : Represents key t s) (probes : Probes key k c t.toList)
    (notLast : ¬ ∀ j ∈ s, j < k) (effects : ∀ x ∈ t.toList, (c.keyLess x).Performs P) :
    (t.find c).Performs P := by
  rw [SearchTree.find]
  refine .bind_right fun j hj => ?_
  obtain rfl : rank s k = j := Except.ok.inj ((h.value_lowerBound probes).symm.trans hj)
  cases here : t.toList[rank s k]? with
  | none => exact absurd (h.getElem?_rank_eq_none_iff.mp here) notLast
  | some x => exact (effects x (List.mem_of_getElem? here)).bind_left _

end Effects

end Represents

namespace SearchTree

variable {P : ε → Prop} {c : KeyComparison ρ ε κ} {t : SearchTree κ}

theorem emits_selectSide (keyLess : ∀ x ∈ t.toList, (c.keyLess x).Emits P) (i : Nat) :
    (selectSide c (t.gapParent i)).Emits P := by
  cases parent : t.gapParent i with
  | none => exact .pure _
  | some x => exact (keyLess x (List.mem_of_getElem? parent)).bind fun _ _ => .pure _

theorem emits_insertUnique (B : Balance) (k : κ)
    (nodeLess : ∀ x ∈ t.toList, (c.nodeLess x).Emits P)
    (keyLess : ∀ x ∈ t.toList, (c.keyLess x).Emits P) : (t.insertUnique B c k).Emits P := by
  have point : (t.insertPoint c).Emits P := by
    rw [insertPoint]
    refine (emits_partitionPoint fun x hx => (keyLess x hx).bind fun _ _ => .pure _).bind
      fun i _ => ?_
    cases last : (t.toList.take i).getLast? with
    | none => exact .pure _
    | some x =>
        refine (nodeLess x (List.mem_of_mem_take (List.mem_of_getLast? last))).bind fun _ _ => ?_
        split <;> exact .pure _
  rw [insertUnique]
  refine point.bind ?_
  rintro ⟨i, fresh⟩ -
  cases fresh with
  | true => exact (emits_selectSide keyLess i).bind fun _ _ => .pure _
  | false => exact .pure _

theorem emits_insertHint (B : Balance) (hint : Nat) (k : κ)
    (nodeLess : ∀ x ∈ t.toList, (c.nodeLess x).Emits P)
    (keyLess : ∀ x ∈ t.toList, (c.keyLess x).Emits P) : (t.insertHint B c hint k).Emits P := by
  have point : (t.hintPoint c hint).Emits P := by
    rw [hintPoint]
    cases here : t.toList[hint]? with
    | none =>
        cases last : t.toList.getLast? with
        | none => exact .pure _
        | some x =>
            refine (nodeLess x (List.mem_of_getLast? last)).bind fun _ _ => ?_
            split <;> exact .pure _
    | some x =>
        have hx := List.mem_of_getElem? here
        refine (keyLess x hx).bind fun before _ => ?_
        cases before with
        | true =>
            cases last : (t.toList.take hint).getLast? with
            | none => exact .pure _
            | some y =>
                have hy := List.mem_of_mem_take (List.mem_of_getLast? last)
                refine (nodeLess y hy).bind fun _ _ => ?_
                split <;> exact .pure _
        | false =>
            refine (nodeLess x hx).bind fun after _ => ?_
            cases after with
            | true =>
                cases next : t.toList[hint + 1]? with
                | none => exact .pure _
                | some y =>
                    refine (keyLess y (List.mem_of_getElem? next)).bind fun _ _ => ?_
                    split <;> exact .pure _
            | false => exact .pure _
  rw [insertHint]
  refine point.bind fun found _ => ?_
  rcases found with _ | ⟨i, fresh⟩
  · exact emits_insertUnique B k nodeLess keyLess
  · cases fresh with
    | false => exact .pure _
    | true =>
        dsimp only
        cases t.hangsRight i with
        | false => exact .pure _
        | true =>
            refine Traced.Emits.bind ?_ fun _ _ => .pure _
            exact emits_selectSide keyLess i

theorem performs_insertHint (B : Balance) (hint : Nat) (k : κ) (nonempty : t.toList ≠ [])
    (nodeLess : ∀ x ∈ t.toList, (c.nodeLess x).Performs P)
    (keyLess : ∀ x ∈ t.toList, (c.keyLess x).Performs P) :
    (t.insertHint B c hint k).Performs P := by
  rw [insertHint]
  refine Traced.Performs.bind_left ?_ _
  rw [hintPoint]
  cases here : t.toList[hint]? with
  | none =>
      cases last : t.toList.getLast? with
      | none => exact absurd (List.getLast?_eq_none_iff.mp last) nonempty
      | some x => exact (nodeLess x (List.mem_of_getLast? last)).bind_left _
  | some x => exact (keyLess x (List.mem_of_getElem? here)).bind_left _

end SearchTree

end Foundation

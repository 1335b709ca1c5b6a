import Keydomet.Foundation.OrderedSet
import Keydomet.Foundation.Run
import Mathlib.Data.Finmap

/-!
# Ordered maps

The operations of `std::map` on a search tree whose elements are pairs of a key and a value.
Keys are built from what the caller gives, and looked up through comparisons that the caller
gives: these may be of another type than the keys, with the comparator `less<>`.

`MapKeys` is what a map uses of its keys, and `Lawful` what it relies on. Any map with lawful
keys is an implementation of one machine, the finite map of `MapModel` (`step_refines`), so two
maps with lawful keys of different types cannot be told apart.
-/

namespace Foundation

variable {ρ ε σ τ κ K V : Type}

/-- How a key is compared with the elements of a map. -/
def KeyComparison.onKeys (c : KeyComparison ρ ε κ) : KeyComparison ρ ε (κ × V) where
  nodeLess x := c.nodeLess x.1
  keyLess x := c.keyLess x.1

namespace SearchTree

def modifyAt (f : κ → κ) : SearchTree κ → Nat → SearchTree κ
  | nil, _ => nil
  | node m l x r, i =>
      if i < l.size then node m (modifyAt f l i) x r
      else if i = l.size then node m l (f x) r
      else node m l x (modifyAt f r (i - l.size - 1))

theorem toList_modifyAt (f : κ → κ) {t : SearchTree κ} {below above : List κ} {x : κ}
    (split : t.toList = below ++ x :: above) :
    (t.modifyAt f below.length).toList = below ++ f x :: above := by
  induction t generalizing below above with
  | nil => simp at split
  | node m l y r ihl ihr =>
      rw [modifyAt]
      rcases List.append_eq_append_iff.mp split with ⟨middle, hbelow, hrest⟩ | ⟨middle, hl, habove⟩
      · have beyond : ¬ below.length < l.size := by
          rw [hbelow, List.length_append, length_toList]
          omega
        rw [if_neg beyond]
        cases middle with
        | nil =>
            obtain ⟨rfl, rfl⟩ := List.cons.inj hrest
            rw [List.append_nil] at hbelow
            rw [hbelow, length_toList, if_pos rfl, toList_node]
        | cons z middle =>
            obtain ⟨rfl, hr⟩ := List.cons.inj hrest
            have far : ¬ below.length = l.size := by
              rw [hbelow, List.length_append, length_toList, List.length_cons]
              omega
            have rest : below.length - l.size - 1 = middle.length := by
              rw [hbelow, List.length_append, length_toList, List.length_cons]
              omega
            rw [if_neg far, rest, toList_node, ihr hr, hbelow]
            simp
      · cases middle with
        | nil =>
            obtain ⟨rfl, rfl⟩ := List.cons.inj habove
            rw [List.append_nil] at hl
            rw [← hl, length_toList, if_neg (lt_irrefl _), if_pos rfl, toList_node]
        | cons z middle =>
            obtain ⟨rfl, rfl⟩ := List.cons.inj habove
            have near : below.length < l.size := by
              rw [← length_toList, hl, List.length_append, List.length_cons]
              omega
            rw [if_pos near, toList_node, ihl hl]
            simp

/-- Whether a key is missing, asked of the element at its lower bound. -/
def missingAt (c : KeyComparison ρ ε κ) (t : SearchTree κ) (j : Nat) : Traced ρ ε Bool :=
  match t.toList[j]? with
  | none => return true
  | some x => c.keyLess x

/-- `operator[]`: the position of a key, which is added with a default value if it is missing. -/
def subscript (B : Balance) (c : KeyComparison ρ ε κ) (t : SearchTree (κ × V)) (k : κ)
    (fallback : V) : Traced ρ ε (SearchTree (κ × V) × Nat) := do
  let j ← t.lowerBound c.onKeys
  if ← t.missingAt c.onKeys j then
    let (t', position, _) ← t.insertHint B c.onKeys j (k, fallback)
    return (t', position)
  else
    return (t, j)

def assign [Inhabited V] (B : Balance) (c : KeyComparison ρ ε κ) (t : SearchTree (κ × V)) (k : κ)
    (v : V) : Traced ρ ε (SearchTree (κ × V)) := do
  let (t', position) ← t.subscript B c k default
  return t'.modifyAt (fun x => (x.1, v)) position

end SearchTree

/-! ## The machine -/

/-- An operation on a map. Keys to insert and keys to look up are given in two forms. -/
inductive MapOp (σ τ V : Type) where
  | insert (k : σ) (v : V)
  | assign (k : σ) (v : V)
  | find (k : τ)
  | erase (k : τ)
deriving DecidableEq, Repr

def MapOp.map {σ' τ' : Type} (f : σ → σ') (g : τ → τ') : MapOp σ τ V → MapOp σ' τ' V
  | insert k v => .insert (f k) v
  | assign k v => .assign (f k) v
  | find k => .find (g k)
  | erase k => .erase (g k)

/-- The answer to an operation: the position of the element with the inserted key and whether it
is new, the position and the value of the key that was looked up, or the number of erased
elements. -/
inductive MapAnswer (V : Type) where
  | inserted (position : Nat) (fresh : Bool)
  | assigned
  | found (entry : Option (Nat × V))
  | erased (count : Nat)
deriving DecidableEq, Repr

/-- What a map uses of its keys: how to build one, to compare one that was built with the
elements, and to compare a key that is looked up with them. -/
structure MapKeys (ρ ε σ τ κ : Type) where
  build : σ → Traced ρ ε κ
  comparison : κ → KeyComparison ρ ε κ
  lookup : τ → Traced ρ ε (KeyComparison ρ ε κ)

/-- One operation of a map: `insert`, an assignment through `operator[]`, `find`, or the latter
followed by erasing the iterator it returns. -/
def MapKeys.step [Inhabited V] (M : MapKeys ρ ε σ τ κ) (B : Balance) (t : SearchTree (κ × V)) :
    MapOp σ τ V → Traced ρ ε (MapAnswer V × SearchTree (κ × V))
  | .insert k v => do
      let item ← M.build k
      let (t', position, fresh) ← t.insertUnique B (M.comparison item).onKeys (item, v)
      return (.inserted position fresh, t')
  | .assign k v => do
      let item ← M.build k
      let t' ← t.assign B (M.comparison item) item v
      return (.assigned, t')
  | .find k => do
      let c ← M.lookup k
      let position ← t.find c.onKeys
      return (.found (position.bind fun i => t.toList[i]?.map fun x => (i, x.2)), t)
  | .erase k => do
      let c ← M.lookup k
      match ← t.find c.onKeys with
      | none => return (.erased 0, t)
      | some i => return (.erased 1, B.eraseAt t i)

/-! ## The finite map a tree represents -/

section Model

variable [LinearOrder K]

def MapModel.step (m : Finmap fun _ : K => V) :
    MapOp K K V → MapAnswer V × Finmap fun _ : K => V
  | .insert k v =>
      (.inserted (rank m.keys k) (decide (k ∉ m.keys)), if k ∈ m.keys then m else m.insert k v)
  | .assign k v => (.assigned, m.insert k v)
  | .find k => (.found ((m.lookup k).map fun v => (rank m.keys k, v)), m)
  | .erase k => (.erased (if k ∈ m.keys then 1 else 0), m.erase k)

/-- The elements of a tree ascend strictly by their keys, which are those of the map, and have
its values. -/
structure RepresentsMap (key : κ → K) (t : SearchTree (κ × V)) (m : Finmap fun _ : K => V) :
    Prop where
  represents : Represents (fun x => key x.1) t m.keys
  values : ∀ x ∈ t.toList, m.lookup (key x.1) = some x.2

theorem keys_insert (m : Finmap fun _ : K => V) (k : K) (v : V) :
    (m.insert k v).keys = insert k m.keys := by
  ext j
  rw [Finmap.mem_keys, Finmap.mem_insert, Finset.mem_insert, Finmap.mem_keys]

theorem rank_insert_self (s : Finset K) (k : K) : rank (insert k s) k = rank s k := by
  rw [rank, rank, Finset.filter_insert, if_neg (lt_irrefl k)]

theorem Probes.onKeys {key : κ → K} {k : K} {c : KeyComparison ρ ε κ} {l : List (κ × V)}
    (probes : Probes key k c (l.map Prod.fst)) : Probes (fun x => key x.1) k c.onKeys l where
  nodeLess x hx := probes.nodeLess x.1 (List.mem_map_of_mem hx)
  keyLess x hx := probes.keyLess x.1 (List.mem_map_of_mem hx)

theorem Represents.value_missingAt {key : κ → K} {t : SearchTree κ} {s : Finset K} {k : K}
    {c : KeyComparison ρ ε κ} (h : Represents key t s) (probes : Probes key k c t.toList) :
    (t.missingAt c (rank s k)).value = .ok (decide (k ∉ s)) := by
  rw [SearchTree.missingAt]
  by_cases present : k ∈ s
  · obtain ⟨below, x, above, split, -, rfl, -, len⟩ := h.split_of_mem present
    have here : t.toList[rank s (key x)]? = some x := by simp [split, ← len]
    rw [here, decide_eq_false (not_not.mpr present)]
    exact (probes.keyLess x (by simp [split])).value_of_not (lt_irrefl _)
  · obtain ⟨below, above, split, -, ha, len⟩ := h.split_of_notMem present
    rw [decide_eq_true present, split, ← len, List.getElem?_append_right le_rfl, Nat.sub_self]
    cases above with
    | nil => rfl
    | cons x above =>
        have less := ha x List.mem_cons_self
        exact (probes.keyLess x (by simp [split])).value_of less

theorem Represents.modifyAt {key : κ → K} {t : SearchTree κ} {s : Finset K}
    (h : Represents key t s) {f : κ → κ} {below above : List κ} {x : κ}
    (split : t.toList = below ++ x :: above) (same : key (f x) = key x) :
    Represents key (t.modifyAt f below.length) s := by
  have keys : (t.modifyAt f below.length).toList.map key = t.toList.map key := by
    rw [SearchTree.toList_modifyAt f split, split]
    simp [same]
  have ordered := h.ordered
  rw [← List.pairwise_map, ← keys, List.pairwise_map] at ordered
  refine ⟨ordered, fun k => ?_⟩
  rw [← h.toFinset_map_key, ← keys, List.mem_toFinset, List.mem_map]

namespace RepresentsMap

variable {key : κ → K} {t t' : SearchTree (κ × V)} {m : Finmap fun _ : K => V} {k : K}
  {c : KeyComparison ρ ε κ}

theorem nil (key : κ → K) : RepresentsMap key (.nil : SearchTree (κ × V)) ∅ :=
  ⟨.nil _, by simp⟩

theorem contents_eq (h : RepresentsMap key t m) :
    (t.toList.map fun x => (key x.1, some x.2)) =
      (m.keys.sort (· ≤ ·)).map fun k => (k, m.lookup k) := by
  rw [← h.represents.map_key_toList, List.map_map]
  apply List.map_congr_left
  intro x hx
  rw [Function.comp_apply, h.values x hx]

theorem value_at (h : RepresentsMap key t m) :
    ((if k ∈ m.keys then some (rank m.keys k) else none : Option Nat).bind fun i =>
      t.toList[i]?.map fun x => (i, x.2)) = (m.lookup k).map fun v => (rank m.keys k, v) := by
  by_cases present : k ∈ m.keys
  · obtain ⟨below, x, above, split, -, rfl, -, len⟩ := h.represents.split_of_mem present
    have here : t.toList[rank m.keys (key x.1)]? = some x := by simp [split, ← len]
    rw [if_pos present, Option.bind_some, here, h.values x (by simp [split])]
    rfl
  · have none := Finmap.lookup_eq_none.mpr (mt Finmap.mem_keys.mpr present)
    rw [if_neg present, Option.bind_none, none]
    rfl

theorem insert_new (h : RepresentsMap key t m) {x : κ} {v : V} (absent : key x ∉ m.keys)
    (represents : Represents (fun y => key y.1) t' (insert (key x) m.keys))
    (subset : t'.toList ⊆ (x, v) :: t.toList) : RepresentsMap key t' (m.insert (key x) v) := by
  refine ⟨by rwa [keys_insert], fun y hy => ?_⟩
  rcases List.mem_cons.mp (subset hy) with rfl | old
  · exact Finmap.lookup_insert m
  · have other : key y.1 ≠ key x := by
      intro same
      exact absent (same ▸ (h.represents.mem_iff _).mpr ⟨y, old, rfl⟩)
    rw [Finmap.lookup_insert_of_ne m other, h.values y old]

theorem eraseAt (h : RepresentsMap key t m) (B : Balance) (present : k ∈ m.keys) :
    RepresentsMap key (B.eraseAt t (rank m.keys k)) (m.erase k) ∧
      (B.eraseAt t (rank m.keys k)).toList ⊆ t.toList := by
  obtain ⟨represents, subset⟩ := h.represents.eraseAt B present
  refine ⟨⟨by rwa [Finmap.keys_erase], fun y hy => ?_⟩, subset⟩
  have kept := (represents.mem_iff _).mpr ⟨y, hy, rfl⟩
  rw [Finmap.lookup_erase_ne (Finset.ne_of_mem_erase kept), h.values y (subset hy)]

theorem setValue (h : RepresentsMap key t m) (present : k ∈ m.keys) (v : V) :
    RepresentsMap key (t.modifyAt (fun x => (x.1, v)) (rank m.keys k)) (m.insert k v) ∧
      (t.modifyAt (fun x => (x.1, v)) (rank m.keys k)).toList.map Prod.fst =
        t.toList.map Prod.fst := by
  obtain ⟨below, x, above, split, hb, rfl, ha, len⟩ := h.represents.split_of_mem present
  have contents := SearchTree.toList_modifyAt (fun x => (x.1, v)) split
  rw [← len]
  refine ⟨⟨?_, fun y hy => ?_⟩, by simp [contents, split]⟩
  · rw [keys_insert, Finset.insert_eq_of_mem present]
    exact h.represents.modifyAt split rfl
  · rw [contents, List.mem_append, List.mem_cons] at hy
    rcases hy with inBelow | rfl | inAbove
    · rw [Finmap.lookup_insert_of_ne m (hb y inBelow).ne, h.values y (by simp [split, inBelow])]
    · exact Finmap.lookup_insert m
    · rw [Finmap.lookup_insert_of_ne m (ha y inAbove).ne', h.values y (by simp [split, inAbove])]

theorem value_insertUnique (h : RepresentsMap key t m) (B : Balance) {x : κ} {v : V}
    (probes : Probes key (key x) c (t.toList.map Prod.fst)) :
    ∃ t', (t.insertUnique B c.onKeys (x, v)).value =
        .ok (t', rank m.keys (key x), decide (key x ∉ m.keys)) ∧
      RepresentsMap key t' (if key x ∈ m.keys then m else m.insert (key x) v) ∧
      t'.toList ⊆ (x, v) :: t.toList := by
  by_cases present : key x ∈ m.keys
  · refine ⟨t, ?_, by rwa [if_pos present], List.subset_cons_self _ _⟩
    rw [SearchTree.insertUnique,
      Traced.value_bind_of_eq (h.represents.value_insertPoint probes.onKeys)]
    simp [present]
  · obtain ⟨t', inserted, represents, subset⟩ :=
      h.represents.value_insertUnique B (x := (x, v)) probes.onKeys
    rw [if_neg present]
    exact ⟨t', inserted, h.insert_new present represents subset, subset⟩

theorem value_subscript (h : RepresentsMap key t m) (B : Balance) {x : κ} (fallback : V)
    (probes : Probes key (key x) c (t.toList.map Prod.fst)) :
    ∃ t', (t.subscript B c x fallback).value = .ok (t', rank m.keys (key x)) ∧
      RepresentsMap key t' (if key x ∈ m.keys then m else m.insert (key x) fallback) ∧
      t'.toList ⊆ (x, fallback) :: t.toList := by
  rw [SearchTree.subscript, Traced.value_bind_of_eq (h.represents.value_lowerBound probes.onKeys),
    Traced.value_bind_of_eq (h.represents.value_missingAt probes.onKeys)]
  by_cases present : key x ∈ m.keys
  · refine ⟨t, ?_, by rwa [if_pos present], List.subset_cons_self _ _⟩
    rw [decide_eq_false (not_not.mpr present)]
    rfl
  · obtain ⟨t', inserted, represents, subset⟩ := h.represents.value_insertHint B
      (x := (x, fallback)) probes.onKeys (rank m.keys (key x))
    refine ⟨t', ?_, by rw [if_neg present]; exact h.insert_new present represents subset, subset⟩
    rw [decide_eq_true present, if_pos rfl, Traced.value_bind_of_eq inserted]
    rfl

theorem value_assign [Inhabited V] (h : RepresentsMap key t m) (B : Balance) {x : κ} (v : V)
    (probes : Probes key (key x) c (t.toList.map Prod.fst)) :
    ∃ t', (t.assign B c x v).value = .ok t' ∧ RepresentsMap key t' (m.insert (key x) v) ∧
      t'.toList.map Prod.fst ⊆ x :: t.toList.map Prod.fst := by
  obtain ⟨t', position, h', subset⟩ := h.value_subscript B default probes
  rw [SearchTree.assign, Traced.value_bind_of_eq position]
  have keys : (if key x ∈ m.keys then m else m.insert (key x) default).keys =
      insert (key x) m.keys := by
    split
    next present => rw [Finset.insert_eq_of_mem present]
    next => exact keys_insert m (key x) default
  obtain ⟨final, unchanged⟩ := h'.setValue (k := key x) (by rw [keys]; simp) v
  rw [keys, rank_insert_self] at final unchanged
  refine ⟨_, rfl, ?_, ?_⟩
  · have same : (if key x ∈ m.keys then m else m.insert (key x) default).insert (key x) v =
        m.insert (key x) v := by
      split
      next => rfl
      next => exact Finmap.insert_insert m
    rwa [same] at final
  · rw [unchanged]
    exact List.map_subset Prod.fst subset

end RepresentsMap

/-! ## Maps with lawful keys -/

/-- The key of an operation satisfies the condition on keys of its kind. -/
def MapOp.KeyIn (p : σ → Prop) (q : τ → Prop) : MapOp σ τ V → Prop
  | insert k _ | assign k _ => p k
  | find k | erase k => q k

/-- What a map relies on: from the strings in `p` and `q`, keys to insert and keys to look up
are built without a fault, and comparisons with good keys answer with the order of `key`. -/
structure MapKeys.Lawful (M : MapKeys ρ ε σ τ κ) (key : κ → K) (built : σ → K) (sought : τ → K)
    (Good : κ → Prop) (p : σ → Prop) (q : τ → Prop) : Prop where
  build : ∀ k, p k → ∃ x, (M.build k).value = .ok x ∧ key x = built k ∧ Good x
  comparison : ∀ x, Good x → ∀ l, (∀ y ∈ l, Good y) → Probes key (key x) (M.comparison x) l
  lookup : ∀ k, q k → ∃ c, (M.lookup k).value = .ok c ∧
    ∀ l, (∀ y ∈ l, Good y) → Probes key (sought k) c l

namespace MapKeys

variable {key : κ → K} {built : σ → K} {sought : τ → K} {Good : κ → Prop} {p : σ → Prop}
  {q : τ → Prop}

/-- A tree of good keys, which represents a finite map. -/
structure Implements (key : κ → K) (Good : κ → Prop) (t : SearchTree (κ × V))
    (m : Finmap fun _ : K => V) : Prop extends RepresentsMap key t m where
  good : ∀ x ∈ t.toList.map Prod.fst, Good x

theorem implements_nil (key : κ → K) (Good : κ → Prop) :
    Implements key Good (.nil : SearchTree (κ × V)) ∅ :=
  ⟨.nil key, by simp [SearchTree.toList]⟩

theorem Implements.of_subset {t t' : SearchTree (κ × V)} {m m' : Finmap fun _ : K => V}
    (h : Implements key Good t m) (h' : RepresentsMap key t' m') {x : κ} (hx : Good x)
    (subset : t'.toList.map Prod.fst ⊆ x :: t.toList.map Prod.fst) :
    Implements key Good t' m' := by
  refine ⟨h', fun y hy => ?_⟩
  rcases List.mem_cons.mp (subset hy) with rfl | old
  · exact hx
  · exact h.good y old

/-- Each operation answers as the finite map does, and leaves a tree that represents the changed
map. -/
theorem Lawful.step_refines [Inhabited V] {M : MapKeys ρ ε σ τ κ}
    (lawful : M.Lawful key built sought Good p q) (B : Balance) {t : SearchTree (κ × V)}
    {m : Finmap fun _ : K => V} (h : Implements key Good t m) (op : MapOp σ τ V)
    (legal : op.KeyIn p q) :
    ∃ t', (M.step B t op).value = .ok ((MapModel.step m (op.map built sought)).1, t') ∧
      Implements key Good t' (MapModel.step m (op.map built sought)).2 := by
  cases op with
  | insert k v =>
      obtain ⟨x, run, same, hx⟩ := lawful.build k legal
      obtain ⟨t', inserted, represents, subset⟩ :=
        h.value_insertUnique B (v := v) (lawful.comparison x hx _ h.good)
      refine ⟨t', ?_, ?_⟩
      · rw [step, Traced.value_bind_of_eq run, Traced.value_bind_of_eq inserted, same]
        rfl
      · rw [same] at represents
        exact h.of_subset represents hx (List.map_subset Prod.fst subset)
  | assign k v =>
      obtain ⟨x, run, same, hx⟩ := lawful.build k legal
      obtain ⟨t', assigned, represents, subset⟩ :=
        h.value_assign B v (lawful.comparison x hx _ h.good)
      refine ⟨t', ?_, ?_⟩
      · rw [step, Traced.value_bind_of_eq run, Traced.value_bind_of_eq assigned]
        rfl
      · rw [same] at represents
        exact h.of_subset represents hx subset
  | find k =>
      obtain ⟨c, run, probes⟩ := lawful.lookup k legal
      refine ⟨t, ?_, h⟩
      rw [step, Traced.value_bind_of_eq run,
        Traced.value_bind_of_eq (h.represents.value_find (probes _ h.good).onKeys)]
      exact congrArg (fun entry => Except.ok (MapAnswer.found entry, t)) h.value_at
  | erase k =>
      obtain ⟨c, run, probes⟩ := lawful.lookup k legal
      rw [step, Traced.value_bind_of_eq run,
        Traced.value_bind_of_eq (h.represents.value_find (probes _ h.good).onKeys)]
      by_cases present : sought k ∈ m.keys
      · obtain ⟨represents, subset⟩ := h.toRepresentsMap.eraseAt B present
        refine ⟨_, ?_, ⟨represents, fun y hy => h.good y (List.map_subset Prod.fst subset hy)⟩⟩
        simp [MapOp.map, MapModel.step, present]
      · have unchanged : m.erase (sought k) = m := by
          apply Finmap.ext_lookup
          intro j
          by_cases here : j = sought k
          · rw [here, Finmap.lookup_erase,
              Finmap.lookup_eq_none.mpr (mt Finmap.mem_keys.mpr present)]
          · rw [Finmap.lookup_erase_ne here]
        refine ⟨t, ?_, ?_⟩
        · simp [MapOp.map, MapModel.step, present]
        · simpa [MapOp.map, MapModel.step, unchanged] using h

/-- Over every run, a map with lawful keys answers as the finite map does, and ends with its
keys and values in order. -/
theorem Lawful.run_refines [Inhabited V] {M : MapKeys ρ ε σ τ κ}
    (lawful : M.Lawful key built sought Good p q) (B : Balance) (ops : List (MapOp σ τ V))
    (legal : ∀ op ∈ ops, op.KeyIn p q) :
    ∃ t, (Traced.run (M.step B) .nil ops).value =
        .ok ((Traced.modelRun MapModel.step ∅ (ops.map (MapOp.map built sought))).1, t) ∧
      Implements key Good t
        (Traced.modelRun MapModel.step ∅ (ops.map (MapOp.map built sought))).2 := by
  have refines : ∀ (t : SearchTree (κ × V)) (m : Finmap fun _ : K => V) (op : MapOp σ τ V),
      Implements key Good t m → op.KeyIn p q →
      ∃ next, (M.step B t op).value = .ok ((MapModel.step m (op.map built sought)).1, next) ∧
        Implements key Good next (MapModel.step m (op.map built sought)).2 :=
    fun _ _ op h keyIn => lawful.step_refines B h op keyIn
  obtain ⟨t, run, final⟩ := Traced.run_refines refines (implements_nil key Good) ops legal
  rw [Traced.modelRun_map]
  exact ⟨t, run, final⟩

end MapKeys

end Model

end Foundation

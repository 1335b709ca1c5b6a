import Mathlib.Data.List.Dedup
import Mathlib.Data.List.Perm.Basic
import Mathlib.Tactic.Common

/-!
# Views into a growing vector

A vector whose storage moves when its capacity grows. Each move begins a new generation,
and a `View` of an element carries the generation it was made in: reading a view of an
older generation has no result.

A set of views is compared by contents. `Indexes` says that it holds one current view of
each element of a vector without duplicates, so that membership can be tested in the set
(`Indexes.contains_eq`). The invariant survives an element added without a move
(`Indexes.insert_back`); after a move the set has to be rebuilt (`indexes_insertAll`).
-/

namespace Foundation

/-- How the capacity of a vector develops. -/
structure GrowthPolicy where
  /-- The capacity of a new vector. -/
  initial : Nat
  /-- The capacity after an element was added to a vector of this size and capacity. -/
  next : Nat → Nat → Nat
  le_next : ∀ size capacity, capacity ≤ next size capacity
  lt_next : ∀ size capacity, size < next size capacity

/-- Capacities that double when a vector is full. -/
def GrowthPolicy.doubling : GrowthPolicy where
  initial := 0
  next size capacity := if size < capacity then capacity else max (2 * capacity) (size + 1)
  le_next size capacity := by split <;> omega
  lt_next size capacity := by split <;> omega

/-- A vector, with the generation of its storage. -/
structure GrowingVector (α : Type) where
  elements : List α
  capacity : Nat
  generation : Nat
  fits : elements.length ≤ capacity

/-- A view of an element, as of some generation of the storage. -/
structure View where
  generation : Nat
  index : Nat
deriving DecidableEq, Repr

/-- A set of views, listed without its order being specified. -/
abbrev ViewSet := List View

namespace GrowingVector

variable {α : Type}

def empty (policy : GrowthPolicy) : GrowingVector α := ⟨[], policy.initial, 0, Nat.zero_le _⟩

def size (v : GrowingVector α) : Nat := v.elements.length

/-- Add an element. If the capacity grows, the storage moves. -/
def emplaceBack (policy : GrowthPolicy) (v : GrowingVector α) (a : α) : GrowingVector α where
  elements := v.elements ++ [a]
  capacity := policy.next v.size v.capacity
  generation :=
    if v.capacity < policy.next v.size v.capacity then v.generation + 1 else v.generation
  fits := by
    rw [List.length_append]
    exact policy.lt_next _ _

/-- The current view of a position. -/
def view (v : GrowingVector α) (index : Nat) : View := ⟨v.generation, index⟩

/-- The current views of all elements. -/
def views (v : GrowingVector α) : List View := (List.range v.size).map v.view

/-- The element behind a view, unless the storage has moved since the view was made. -/
def read (v : GrowingVector α) (w : View) : Option α :=
  if w.generation = v.generation then v.elements[w.index]? else none

@[simp] theorem elements_emplaceBack (policy : GrowthPolicy) (v : GrowingVector α) (a : α) :
    (v.emplaceBack policy a).elements = v.elements ++ [a] := rfl

@[simp] theorem read_view (v : GrowingVector α) (index : Nat) :
    v.read (v.view index) = v.elements[index]? := if_pos rfl

@[simp] theorem length_views (v : GrowingVector α) : v.views.length = v.size := by simp [views]

/-- The views can be read, and these are their contents. -/
def Shows (v : GrowingVector α) (ws : List View) (contents : List α) : Prop :=
  List.Forall₂ (fun w a => v.read w = some a) ws contents

theorem shows_views (v : GrowingVector α) : v.Shows v.views v.elements := by
  refine List.forall₂_iff_get.mpr ⟨v.length_views, ?_⟩
  intro i _ inside
  simp [views, inside]

theorem Shows.mapM_read {v : GrowingVector α} {ws : List View} {contents : List α}
    (h : v.Shows ws contents) : ws.mapM v.read = some contents := by
  induction h with
  | nil => rfl
  | cons here _ ih =>
      rw [List.mapM_cons, here, ih]
      rfl

theorem Shows.perm {v : GrowingVector α} {ws ws' : List View} {contents : List α}
    (h : v.Shows ws contents) (perm : ws'.Perm ws) :
    ∃ contents', v.Shows ws' contents' ∧ contents'.Perm contents :=
  List.perm_comp_forall₂ perm h

/-- Without a move, the views of the elements before show what they did. -/
theorem Shows.emplaceBack {policy : GrowthPolicy} {v : GrowingVector α} {ws : List View}
    {contents : List α} (h : v.Shows ws contents) {a : α}
    (stays : ¬ v.capacity < (v.emplaceBack policy a).capacity) :
    (v.emplaceBack policy a).Shows ws contents := by
  have same : (v.emplaceBack policy a).generation = v.generation := if_neg stays
  refine h.imp ?_
  intro w b here
  obtain ⟨current, element⟩ := Option.ite_none_right_eq_some.mp here
  have inside := (List.getElem?_eq_some_iff.mp element).1
  rw [read, if_pos (current.trans same.symm), elements_emplaceBack,
    List.getElem?_append_left inside, element]

/-! ## Sets of views -/

section Sets

variable [DecidableEq α]

/-- Is there a view with these contents? A hash table compares some of its views with the
argument; all of them are read here. -/
def contains (v : GrowingVector α) (s : ViewSet) (a : α) : Option Bool := do
  let contents ← s.mapM v.read
  return decide (a ∈ contents)

/-- Insert a view, unless there is one with the same contents. -/
def insert (v : GrowingVector α) (s : ViewSet) (w : View) : Option ViewSet := do
  let a ← v.read w
  let known ← v.contains s a
  return if known then s else w :: s

/-- Insert views one after the other. -/
def insertAll (v : GrowingVector α) (s : ViewSet) (ws : List View) : Option ViewSet :=
  ws.foldlM v.insert s

variable {v : GrowingVector α} {s : ViewSet} {contents : List α}

theorem Shows.contains_eq (h : v.Shows s contents) (a : α) :
    v.contains s a = some (decide (a ∈ contents)) := by
  rw [contains, h.mapM_read]
  rfl

theorem Shows.insert_known (h : v.Shows s contents) {w : View} {a : α} (here : v.read w = some a)
    (known : a ∈ contents) : v.insert s w = some s := by
  rw [insert, here, Option.bind_eq_bind, Option.bind_some, h.contains_eq, decide_eq_true known]
  rfl

theorem Shows.insert_new (h : v.Shows s contents) {w : View} {a : α} (here : v.read w = some a)
    (new : a ∉ contents) : v.insert s w = some (w :: s) := by
  rw [insert, here, Option.bind_eq_bind, Option.bind_some, h.contains_eq, decide_eq_false new]
  rfl

theorem Shows.insertAll (h : v.Shows s contents) {ws : List View} {new : List α}
    (shown : v.Shows ws new) (nodup : new.Nodup) (disjoint : new.Disjoint contents) :
    v.insertAll s ws = some (ws.reverse ++ s) := by
  induction shown generalizing s contents with
  | nil => rfl
  | @cons w a ws new here rest ih =>
      obtain ⟨notLater, nodup⟩ := List.nodup_cons.mp nodup
      obtain ⟨notKnown, disjoint⟩ := List.disjoint_cons_left.mp disjoint
      have extended : v.Shows (w :: s) (a :: contents) := .cons here h
      rw [GrowingVector.insertAll, List.foldlM_cons, h.insert_new here notKnown]
      refine (ih extended nodup (List.disjoint_cons_right.mpr ⟨notLater, disjoint⟩)).trans ?_
      rw [List.reverse_cons, List.append_assoc]
      rfl

/-- A set holds one current view of each element, and the elements are different. -/
structure Indexes (v : GrowingVector α) (s : ViewSet) : Prop where
  current : ∀ w ∈ s, w.generation = v.generation
  exact : (s.map View.index).Perm (List.range v.size)
  nodup : v.elements.Nodup

omit [DecidableEq α] in
theorem indexes_iff : v.Indexes s ↔ s.Perm v.views ∧ v.elements.Nodup := by
  constructor
  · rintro ⟨current, exact, nodup⟩
    have own : s.map (fun w => v.view w.index) = s := by
      conv_rhs => rw [← List.map_id s]
      apply List.map_congr_left
      intro w hw
      rw [view, ← current w hw, id]
    refine ⟨?_, nodup⟩
    rw [← own, views, ← Function.comp_def, ← List.map_map]
    exact exact.map v.view
  · rintro ⟨perm, nodup⟩
    refine ⟨?_, ?_, nodup⟩
    · intro w hw
      obtain ⟨i, -, rfl⟩ := List.mem_map.mp (perm.mem_iff.mp hw)
      rfl
    · have indices := perm.map View.index
      rw [views, List.map_map] at indices
      exact indices.trans (.of_eq (List.map_id _))

namespace Indexes

omit [DecidableEq α] in
theorem shows (h : v.Indexes s) : ∃ contents, v.Shows s contents ∧ contents.Perm v.elements :=
  v.shows_views.perm (indexes_iff.mp h).1

omit [DecidableEq α] in
theorem length_eq (h : v.Indexes s) : s.length = v.size := by
  rw [← List.length_map (f := View.index), h.exact.length_eq, List.length_range]

/-- Membership in the vector can be tested in the set. -/
theorem contains_eq (h : v.Indexes s) (a : α) :
    v.contains s a = some (decide (a ∈ v.elements)) := by
  obtain ⟨contents, shown, perm⟩ := h.shows
  rw [shown.contains_eq]
  simp only [perm.mem_iff]

theorem insert_known (h : v.Indexes s) {w : View} {a : α} (here : v.read w = some a)
    (known : a ∈ v.elements) : v.insert s w = some s := by
  obtain ⟨contents, shown, perm⟩ := h.shows
  exact shown.insert_known here (perm.mem_iff.mpr known)

/-- Without a move, inserting a view of the element just added keeps the invariant. -/
theorem insert_back {policy : GrowthPolicy} (h : v.Indexes s) {a : α} (new : a ∉ v.elements)
    (stays : ¬ v.capacity < (v.emplaceBack policy a).capacity) :
    ∃ s', (v.emplaceBack policy a).insert s ((v.emplaceBack policy a).view v.size) = some s' ∧
      (v.emplaceBack policy a).Indexes s' := by
  have same : (v.emplaceBack policy a).generation = v.generation := if_neg stays
  have size : (v.emplaceBack policy a).size = v.size + 1 := by simp [GrowingVector.size]
  obtain ⟨contents, shown, perm⟩ := h.shows
  have here : (v.emplaceBack policy a).read ((v.emplaceBack policy a).view v.size) = some a := by
    simp [GrowingVector.size]
  refine ⟨_, (shown.emplaceBack stays).insert_new here (mt perm.mem_iff.mp new), ?_, ?_, ?_⟩
  · intro w hw
    rcases List.mem_cons.mp hw with rfl | old
    · rfl
    · rw [same, h.current w old]
  · rw [size, List.range_succ, List.map_cons]
    exact (h.exact.cons v.size).trans (List.perm_append_singleton _ _).symm
  · rw [elements_emplaceBack, ← List.concat_eq_append]
    exact h.nodup.concat new

end Indexes

theorem indexes_insertAll (nodup : v.elements.Nodup) :
    ∃ s, v.insertAll [] v.views = some s ∧ v.Indexes s := by
  have empty : v.Shows [] [] := .nil
  refine ⟨_, empty.insertAll v.shows_views nodup (List.disjoint_nil_right _), ?_⟩
  rw [List.append_nil]
  exact indexes_iff.mpr ⟨List.reverse_perm _, nodup⟩

end Sets

end GrowingVector

end Foundation

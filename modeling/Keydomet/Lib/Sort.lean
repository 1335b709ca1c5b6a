import Keydomet.Foundation.Sorting
import Keydomet.Lib.Order

/-!
# Sorting keydomets

`std::sort` over a vector of keydomets, compared with the reference sort of the
plain strings. `operator<` of keydomets orders by the C strings, which form a linear
order, so the sorted sequence of strings depends on nothing but the strings.
-/

namespace Kdmt

open Foundation

variable {σ : Type} [StrImp σ] {N : PrefixSize}

/-- Turn each string into a keydomet, sort the keydomets, and take their strings. -/
def sortKeydomets (S : StdSort Fault Effect) (N : PrefixSize) (l : List σ) : Code (List σ) := do
  let keydomets ← l.mapM (Keydomet.ofStr N)
  let sorted ← S.sort Keydomet.lt keydomets
  return sorted.map Keydomet.getStr

def sortStrings (S : StdSort Fault Effect) (l : List StdString) : Code (List StdString) :=
  S.sort StdString.less l

theorem Keydomet.lt_answersOn {l : List σ} (terminated : ∀ s ∈ l, Terminated s) :
    AnswersOn Keydomet.lt
      (fun a b : Keydomet σ N => cstr a.str < cstr b.str) (l.map (mkValid N)) := by
  simp only [AnswersOn, List.forall_mem_map]
  exact fun s hs t ht => Traced.answers_iff.mpr
    (value_lt (mkValid_valid N s) (mkValid_valid N t) (terminated s hs) (terminated t ht))

theorem StdString.less_answersOn (l : List StdString) :
    AnswersOn StdString.less (fun a b => a.chars < b.chars) l :=
  fun _ _ _ _ => ⟨_, rfl, decide_eq_true_iff⟩

/-- Sorting the keydomets of any terminated strings yields a permutation of the
strings whose C strings are those of the reference sort, in its order. -/
theorem sortKeydomets_spec (S S' : StdSort Fault Effect) (N : PrefixSize) (l : List σ)
    (reference : List StdString) (terminated : ∀ s ∈ l, Terminated s)
    (perm : (l.map cstr).Perm (reference.map StdString.chars)) :
    ∃ strs sorted, (sortKeydomets S N l).value = .ok strs ∧ strs.Perm l ∧
      (sortStrings S' reference).value = .ok sorted ∧
      strs.map cstr = sorted.map StdString.chars := by
  have sameKeys : ((l.map (Keydomet.mkValid N)).map fun k => cstr k.str).Perm
      (reference.map StdString.chars) := by
    simpa [Function.comp_def] using perm
  obtain ⟨ks, sorted, run, rearranged, run', -, same⟩ :=
    S.sort_map_eq S' (Keydomet.lt_answersOn terminated) (StdString.less_answersOn reference)
      sameKeys
  refine ⟨ks.map Keydomet.getStr, sorted, ?_, ?_, run', ?_⟩
  · have built : (l.mapM (Keydomet.ofStr N)).value = .ok (l.map (Keydomet.mkValid N)) :=
      Traced.value_mapM_of_eq fun s hs => Keydomet.value_ofStr (terminated s hs)
    rw [sortKeydomets, Traced.value_bind_of_eq built, Traced.value_bind_of_eq run]
    rfl
  · simpa [Function.comp_def, Keydomet.getStr] using rearranged.map Keydomet.getStr
  · simpa [Function.comp_def, Keydomet.getStr] using same

theorem map_cstr_of_nulFree {l : List StdString} (nulFree : ∀ s ∈ l, 0 ∉ s.chars) :
    l.map cstr = l.map StdString.chars :=
  List.map_congr_left fun s hs => by rw [cstr_stdString, cString_of_notMem (nulFree s hs)]

/-- Whatever order the keydomets start in, sorting them yields the strings in the
order of the reference sort, whichever routines sort the two sequences. -/
theorem sort_order_independent (N : PrefixSize) (S' : StdSort Fault Effect) (l : List StdString)
    (nulFree : ∀ s ∈ l, 0 ∉ s.chars) :
    ∃ sorted, (sortStrings S' l).value = .ok sorted ∧
      ∀ (S : StdSort Fault Effect) (l' : List StdString), l'.Perm l →
        (sortKeydomets S N l').value = .ok sorted := by
  obtain ⟨sorted, run', -⟩ := S'.sort_by_key StdString.chars (StdString.less_answersOn l)
  refine ⟨sorted, run', fun S l' perm => ?_⟩
  have nulFree' : ∀ s ∈ l', 0 ∉ s.chars := fun s hs => nulFree s (perm.mem_iff.mp hs)
  obtain ⟨strs, sorted', run, rearranged, again, same⟩ :=
    sortKeydomets_spec S S' N l' l (fun s _ => terminated_stdString s)
      (by rw [map_cstr_of_nulFree nulFree']; exact perm.map _)
  obtain rfl : sorted = sorted' := Except.ok.inj (run'.symm.trans again)
  rw [map_cstr_of_nulFree fun s hs => nulFree' s (rearranged.mem_iff.mp hs)] at same
  rw [run, StdString.chars_injective.list_map same]

/-- "b", "ab", "a", "ab" with a two-byte prefix: insertion sort and itself. -/
theorem sort_order_independent_b_ab_a_ab :
    ∃ sorted,
      (sortStrings (.insertion _ _) [⟨[98]⟩, ⟨[97, 98]⟩, ⟨[97]⟩, ⟨[97, 98]⟩]).value = .ok sorted ∧
      ∀ (S : StdSort Fault Effect) (l' : List StdString),
        l'.Perm [⟨[98]⟩, ⟨[97, 98]⟩, ⟨[97]⟩, ⟨[97, 98]⟩] →
          (sortKeydomets S .size16bit l').value = .ok sorted :=
  sort_order_independent .size16bit (.insertion _ _) _ (by decide)

end Kdmt

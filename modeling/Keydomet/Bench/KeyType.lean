import Keydomet.Lib.Container

/-!
# The key types of the benchmark containers

The benchmarks fill `std::set<StrT, less<>>` with `StrT` a `std::string`, a view of one, or a
keydomet of one. `KeyType` is what they use of `StrT`, together with the facts every such
container rests on: keys built from strings compare by what the order of the type looks
at, which is the whole string, or the part of it before the first NUL.
-/

namespace Kdmt

open Foundation

/-- A view of all characters of a string, whose terminator is behind it. -/
def StringView.ofString (s : StdString) : StringView := .ofChars s.chars [0]

/-- The string of the same characters. -/
def StringView.toStdString (v : StringView) : StdString := ⟨v.chars⟩

@[simp] theorem StringView.toStdString_ofString (s : StdString) :
    (StringView.ofString s).toStdString = s := by
  rw [toStdString, ofString, chars_ofChars]

/-- How a container compares a view with its elements: by their characters. -/
def StringView.comparison (k : StringView) : KeyComparison Fault Effect StringView where
  nodeLess v := v.toStdString.less k.toStdString
  keyLess v := k.toStdString.less v.toStdString

theorem StringView.probes_comparison (k : StringView) (l : List StringView) :
    Probes toStdString k.toStdString k.comparison l where
  nodeLess _ _ := Traced.answers_iff.mpr rfl
  keyLess _ _ := Traced.answers_iff.mpr rfl

end Kdmt

namespace Kdmt.Bench

open Foundation

/-- A key type of a benchmark container. -/
class KeyType (κ : Type) where
  /-- `StrT{str}`. -/
  ofString : StdString → Code κ
  /-- `less<>` between a key and the elements of a container. -/
  comparison : κ → KeyComparison Fault Effect κ
  /-- The string of a key. -/
  getStr : κ → StdString
  /-- The part of a string that the order looks at. -/
  compared : StdString → StdString
  /-- A key as the constructor leaves it. -/
  WellBuilt : κ → Prop
  compared_of_nulFree : ∀ s : StdString, 0 ∉ s.chars → compared s = s
  ofString_spec : ∀ s, ∃ x, (ofString s).value = .ok x ∧ WellBuilt x ∧ getStr x = s
  probes : ∀ (x : κ) (l : List κ), WellBuilt x → (∀ y ∈ l, WellBuilt y) →
    Probes (fun y => compared (getStr y)) (compared (getStr x)) (comparison x) l

instance : KeyType StdString where
  ofString s := return s
  comparison := StdString.comparison
  getStr s := s
  compared s := s
  WellBuilt _ := True
  compared_of_nulFree _ _ := rfl
  ofString_spec s := ⟨s, rfl, trivial, rfl⟩
  probes x l _ _ := x.probes_comparison l

instance (N : PrefixSize) : KeyType (Keydomet StdString N) where
  ofString := Keydomet.ofStr N
  comparison := Keydomet.comparison
  getStr := Keydomet.getStr
  compared := cPart
  WellBuilt := Keydomet.Valid
  compared_of_nulFree _ := cPart_of_nulFree
  ofString_spec s := ⟨Keydomet.mkValid N s, Keydomet.value_ofStr (terminated_stdString s),
    Keydomet.mkValid_valid N s, rfl⟩
  probes x _ hx valid := Keydomet.probes_comparison hx (terminated_stdString x.str) valid

instance : KeyType StringView where
  ofString s := return .ofString s
  comparison := StringView.comparison
  getStr := StringView.toStdString
  compared s := s
  WellBuilt _ := True
  compared_of_nulFree _ _ := rfl
  ofString_spec s := ⟨.ofString s, rfl, trivial, StringView.toStdString_ofString s⟩
  probes x l _ _ := x.probes_comparison l

/-! ## Filling a container -/

open KeyType

variable {κ : Type} [KeyType κ]

/-- What the order looks at in a key. -/
abbrev sortKey (x : κ) : StdString := compared κ (getStr x)

/-- Build a key from each string and insert it through an insert iterator, whose hint is
the position after the element inserted last. -/
def insertThrough (B : Balance) : SearchTree κ → Nat → List StdString → Code (SearchTree κ)
  | t, _, [] => return t
  | t, hint, s :: strs => do
      let item ← ofString s
      let (t', position, _) ← t.insertHint B (comparison item) hint item
      insertThrough B t' (position + 1) strs

/-- A container of well built keys, and the set of what their order looks at. -/
structure Holds (t : SearchTree κ) (s : Finset StdString) : Prop where
  represents : Represents sortKey t s
  wellBuilt : ∀ x ∈ t.toList, WellBuilt x

theorem holds_nil : Holds (.nil : SearchTree κ) ∅ := ⟨.nil _, by simp⟩

/-- Filling a container adds the strings, and nothing else. -/
theorem value_insertThrough (B : Balance) {t : SearchTree κ} {s : Finset StdString}
    (h : Holds t s) (hint : Nat) (strs : List StdString) :
    ∃ t', (insertThrough B t hint strs).value = .ok t' ∧
      Holds t' (s ∪ (strs.map (compared κ)).toFinset) ∧
      ∀ x ∈ t'.toList, x ∈ t.toList ∨ getStr x ∈ strs := by
  induction strs generalizing t s hint with
  | nil => exact ⟨t, rfl, by simpa using h, fun x hx => .inl hx⟩
  | cons str strs ih =>
      obtain ⟨item, built, wellBuilt, rfl⟩ := ofString_spec (κ := κ) str
      obtain ⟨t', inserted, represents, subset⟩ :=
        h.represents.value_insertHint B (x := item) (probes item _ wellBuilt h.wellBuilt) hint
      have h' : Holds t' (insert (sortKey item) s) :=
        ⟨represents, fun x hx =>
          (List.mem_cons.mp (subset hx)).elim (· ▸ wellBuilt) (h.wellBuilt x)⟩
      obtain ⟨t'', rest, holds, members⟩ := ih h' (rank s (sortKey item) + 1)
      refine ⟨t'', ?_, ?_, fun x hx => ?_⟩
      · rw [insertThrough, Traced.value_bind_of_eq built, Traced.value_bind_of_eq inserted]
        exact rest
      · rwa [List.map_cons, List.toFinset_cons, Finset.union_insert, ← Finset.insert_union]
      · rcases members x hx with old | new
        · rcases List.mem_cons.mp (subset old) with rfl | older
          · exact .inr List.mem_cons_self
          · exact .inl older
        · exact .inr (List.mem_cons_of_mem _ new)

end Kdmt.Bench

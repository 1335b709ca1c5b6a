import Keydomet.Foundation.OrderedMap
import Keydomet.Lib.Container

/-!
# Maps with keydomets as keys

`std::map<keydomet<StrImp, N>, V, less<>>`, which takes the place of a `std::map<StrImp, V>`.
Keys are inserted as keydomets. They are looked up through the keydomet that `make_find_key`
builds, or through the keydomet of a string of any other type, as the transparent comparator
permits.

Both kinds of keys are lawful, so the map implements the finite map on the parts before the
first NUL (`keydomet_map_refines`). Where these tell the keys apart, it cannot be told from a map
of the strings themselves (`map_drop_in_replacement`).
-/

namespace Kdmt

open Foundation

variable {σ τ V : Type} [StrImp σ] [StrImp τ] {N : PrefixSize}

/-! ## Keys that are keydomets -/

/-- A constructed keydomet of a terminated string in `S`. -/
structure Keydomet.Good (S : Set σ) (k : Keydomet σ N) : Prop where
  valid : k.Valid
  terminated : Terminated k.str
  mem : k.str ∈ S

theorem Keydomet.mkValid_good {S : Set σ} {s : σ} (terminated : Terminated s) (mem : s ∈ S) :
    (mkValid N s).Good S :=
  ⟨mkValid_valid N s, terminated, mem⟩

theorem Keydomet.probes_cPart {S : Set σ} {k : Keydomet τ N} (hk : k.Valid)
    (tk : Terminated k.str) {l : List (Keydomet σ N)} (good : ∀ x ∈ l, x.Good S) :
    Probes (fun x => cPart x.str) (cPart k.str) k.comparison l where
  nodeLess x hx := lt_answers (good x hx).valid hk (good x hx).terminated tk
  keyLess x hx := lt_answers hk (good x hx).valid tk (good x hx).terminated

theorem cPart_lt_iff {S : Set StdString} (distinct : Set.InjOn cPart S) {a b : StdString}
    (ha : a ∈ S) (hb : b ∈ S) : cPart a < cPart b ↔ a < b := by
  by_cases same : a = b
  · subst same
    exact iff_of_false (lt_irrefl _) (lt_irrefl _)
  · have differ : cString a.chars ≠ cString b.chars := by
      intro h
      exact same (distinct ha hb (by rw [cPart, cPart, cstr_stdString, cstr_stdString, h]))
    have lt := cString_lt_iff_of_ne differ
    rwa [← cstr_stdString, ← cstr_stdString] at lt

/-- Where the parts tell strings apart, comparisons answer with the order of the strings. -/
theorem Keydomet.probes_getStr {S : Set StdString} (distinct : Set.InjOn cPart S)
    {f : Keydomet τ N} (hf : f.Valid) (tf : Terminated f.str) {k : StdString} (hk : k ∈ S)
    (same : cPart f.str = cPart k) {l : List (Keydomet StdString N)} (good : ∀ x ∈ l, x.Good S) :
    Probes getStr k f.comparison l := by
  have parts := probes_cPart hf tf good
  rw [same] at parts
  refine ⟨fun x hx => ?_, fun x hx => ?_⟩
  · have answers := parts.nodeLess x hx
    rwa [cPart_lt_iff distinct (good x hx).mem hk] at answers
  · have answers := parts.keyLess x hx
    rwa [cPart_lt_iff distinct hk (good x hx).mem] at answers

namespace KeydometMap

/-- Keys that are looked up through keydomets of strings of several types. -/
def mixedKeys (σ : Type) [StrImp σ] {ι : Type} (L : ι → Type) [∀ i, StrImp (L i)]
    (N : PrefixSize) : MapKeys Fault Effect σ (Σ i, L i) (Keydomet σ N) where
  build k := Keydomet.ofStr N k
  comparison k := k.comparison
  lookup k := do
    let findKey ← Keydomet.ofStr N k.2
    return findKey.comparison

/-- Keys that are looked up through `make_find_key`. -/
def keys (N : PrefixSize) : MapKeys Fault Effect StdString StdString (Keydomet StdString N) where
  build k := Keydomet.ofStr N k
  comparison k := k.comparison
  lookup k := do
    let findKey ← makeFindKey N k
    return findKey.comparison

/-- Terminated strings make lawful keys, which stand for their parts before the first NUL. -/
theorem mixedKeys_lawful {ι : Type} {L : ι → Type} [∀ i, StrImp (L i)] (N : PrefixSize) :
    (mixedKeys σ L N).Lawful (fun k => cPart k.str) cPart (fun k => cPart k.2)
      (Keydomet.Good Set.univ) Terminated (fun k => Terminated k.2) where
  build k terminated :=
    ⟨_, Keydomet.value_ofStr terminated, rfl, Keydomet.mkValid_good terminated trivial⟩
  comparison k hk l good := Keydomet.probes_cPart hk.valid hk.terminated good
  lookup k terminated := by
    refine ⟨(Keydomet.mkValid N k.2).comparison, ?_, fun l good => ?_⟩
    · rw [mixedKeys, Traced.value_bind_of_eq (Keydomet.value_ofStr terminated)]
      rfl
    · exact Keydomet.probes_cPart (Keydomet.mkValid_valid N k.2) terminated good

/-- Strings with different parts before the first NUL make lawful keys, which stand for
themselves. -/
theorem keys_lawful {S : Set StdString} (distinct : Set.InjOn cPart S) (N : PrefixSize) :
    (keys N).Lawful Keydomet.getStr id id (Keydomet.Good S) (· ∈ S) (· ∈ S) where
  build k hk := by
    have terminated := terminated_stdString k
    exact ⟨_, Keydomet.value_ofStr terminated, rfl, Keydomet.mkValid_good terminated hk⟩
  comparison k hk l good :=
    Keydomet.probes_getStr distinct hk.valid hk.terminated hk.mem rfl good
  lookup k hk := by
    refine ⟨(Keydomet.mkValid N (StdStringRef.mk k)).comparison, ?_, fun l good => ?_⟩
    · rw [keys, Traced.value_bind_of_eq (KeydometSet.value_makeFindKey k)]
      rfl
    · exact Keydomet.probes_getStr distinct (Keydomet.mkValid_valid N _)
        (terminated_stdStringRef ⟨k⟩) hk (cPart_stdStringRef ⟨k⟩) good

end KeydometMap

/-- The keys of a `std::map<std::string, V>`. -/
def StringMap.keys : MapKeys Fault Effect StdString StdString StdString where
  build k := return k
  comparison k := k.comparison
  lookup k := return k.comparison

theorem StringMap.keys_lawful (S : Set StdString) :
    keys.Lawful id id id (fun _ => True) (· ∈ S) (· ∈ S) where
  build k _ := ⟨k, rfl, rfl, trivial⟩
  comparison k _ l _ := k.probes_comparison l
  lookup k _ := ⟨k.comparison, rfl, fun l _ => k.probes_comparison l⟩

/-! ## Runs -/

/-- A map of keydomets of any string type, looked up through keydomets of any string types,
implements the finite map on the parts before the first NUL: over every run of operations with
terminated strings, it gives the answers of this map, and ends with its entries in order. -/
theorem keydomet_map_refines [Inhabited V] {ι : Type} {L : ι → Type} [∀ i, StrImp (L i)]
    (N : PrefixSize) (B : Balance) (ops : List (MapOp σ (Σ i, L i) V))
    (terminated : ∀ op ∈ ops, op.KeyIn Terminated fun k => Terminated k.2) :
    ∃ answers t m,
      (Traced.run ((KeydometMap.mixedKeys σ L N).step B) .nil ops).value = .ok (answers, t) ∧
      Traced.modelRun MapModel.step ∅ (ops.map (MapOp.map cPart fun k => cPart k.2)) =
        (answers, m) ∧
      (t.toList.map fun x => (cPart x.1.str, some x.2)) =
        (m.keys.sort (· ≤ ·)).map fun k => (k, m.lookup k) := by
  obtain ⟨t, run, final⟩ := (KeydometMap.mixedKeys_lawful N).run_refines B ops terminated
  exact ⟨_, t, _, run, rfl, final.contents_eq⟩

/-- Two strings with one part before the first NUL, looked up through a view into an array that
goes on after it. -/
theorem keydomet_map_refines_nul_inside :
    ∃ answers t m,
      (Traced.run ((KeydometMap.mixedKeys StdString (fun _ : Unit => StringView) .size16bit).step
          .unbalanced) .nil [.insert ⟨[97, 0, 98]⟩ 1, .assign ⟨[97]⟩ 2,
            .find ⟨(), .ofChars [97] [0, 99]⟩]).value = .ok (answers, t) ∧
      Traced.modelRun MapModel.step ∅
          [.insert ⟨[97]⟩ 1, .assign ⟨[97]⟩ 2, .find ⟨[97]⟩] = (answers, m) ∧
      (t.toList.map fun x => (cPart x.1.str, some x.2)) =
        (m.keys.sort (· ≤ ·)).map fun k => (k, m.lookup k) :=
  keydomet_map_refines (σ := StdString) (L := fun _ : Unit => StringView) .size16bit .unbalanced
    [.insert ⟨[97, 0, 98]⟩ 1, .assign ⟨[97]⟩ 2, .find ⟨(), .ofChars [97] [0, 99]⟩]
    (by simp [MapOp.KeyIn, Terminated])

/-- A map of keydomets is a drop-in replacement for a map of strings: over every run of
operations with keys that differ before the first NUL, the two give the same answers, and end
with the same keys and values in the same order. -/
theorem map_drop_in_replacement [Inhabited V] (N : PrefixSize) (B B' : Balance)
    (ops : List (MapOp StdString StdString V)) (S : Set StdString)
    (within : ∀ op ∈ ops, op.KeyIn (· ∈ S) (· ∈ S)) (distinct : Set.InjOn cPart S) :
    ∃ answers t t',
      (Traced.run ((KeydometMap.keys N).step B) .nil ops).value = .ok (answers, t) ∧
      (Traced.run (StringMap.keys.step B') .nil ops).value = .ok (answers, t') ∧
      (t.toList.map fun x => (x.1.getStr, x.2)) = t'.toList := by
  obtain ⟨t, run, final⟩ := (KeydometMap.keys_lawful distinct N).run_refines B ops within
  obtain ⟨t', run', final'⟩ := (StringMap.keys_lawful S).run_refines B' ops within
  refine ⟨_, t, t', run, run', ?_⟩
  have same := final.contents_eq.trans final'.contents_eq.symm
  have keep : Function.Injective fun x : StdString × V => (x.1, some x.2) := by
    rintro ⟨a, v⟩ ⟨b, w⟩ h
    obtain ⟨rfl, rfl⟩ : a = b ∧ v = w := by simpa using h
    rfl
  apply List.map_injective_iff.mpr keep
  rw [List.map_map]
  exact same

/-- A NUL inside a key does no harm while no other key goes on differently after it. -/
theorem map_drop_in_replacement_one_nul :
    ∃ answers t t',
      (Traced.run ((KeydometMap.keys .size16bit).step .unbalanced) .nil
        [.insert ⟨[97, 98, 0, 99]⟩ 1, .assign ⟨[97, 98, 99]⟩ 2, .find ⟨[97, 98, 99]⟩,
          .erase ⟨[97, 98, 0, 99]⟩]).value = .ok (answers, t) ∧
      (Traced.run (StringMap.keys.step .unbalanced) .nil
        [.insert ⟨[97, 98, 0, 99]⟩ 1, .assign ⟨[97, 98, 99]⟩ 2, .find ⟨[97, 98, 99]⟩,
          .erase ⟨[97, 98, 0, 99]⟩]).value = .ok (answers, t') ∧
      (t.toList.map fun x => (x.1.getStr, x.2)) = t'.toList :=
  map_drop_in_replacement .size16bit .unbalanced .unbalanced _
    {⟨[97, 98, 0, 99]⟩, ⟨[97, 98, 99]⟩} (by simp [MapOp.KeyIn])
    (by simp [Set.InjOn, cPart, cString])

end Kdmt

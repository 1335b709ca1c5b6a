import Keydomet.Bench.Inputs
import Mathlib.Data.List.Forall2

/-!
# The containers cache of the random providers

`get_rand_input` keeps one provider for each pair of lengths, and one cache of
containers for all of them. The key of a container packs its size and the total length
of its keys, so providers that split the same total differently share an entry.

The model records for each entry the extra length of the provider that filled it, which
decides its contents. Every history of calls behaves as the model does
(`step_refines`), and on the model the histories that serve each provider its own
keys are characterized exactly.
-/

namespace Kdmt.Bench

open Foundation KeyType

/-! ## The static data -/

/-- The providers of `get_rand_keys_provider`, the containers of `get_rand_input`, and the
number of shuffles made. -/
structure RandInputs (κ : Type) where
  providers : UInt32 → UInt32 → Option RandKeysProvider
  containersCache : Cache (SearchTree κ)
  draws : Nat

namespace RandInputs

variable {κ : Type} [KeyType κ]

def initial : RandInputs κ := ⟨fun _ _ => none, fun _ => .nil, 0⟩

def setProvider (self : RandInputs κ) (keyLen extraLen : UInt32) (p : RandKeysProvider) :
    RandInputs κ :=
  { self with
    providers := fun k e =>
      if k = keyLen ∧ e = extraLen then some p else self.providers k e }

/-- `get_rand_keys_provider`: the provider of two lengths, made when first asked for. -/
def getRandKeysProvider (self : RandInputs κ) (keyLen extraLen : UInt32) :
    RandKeysProvider × RandInputs κ :=
  match self.providers keyLen extraLen with
  | some provider => (provider, self)
  | none =>
      let provider := { keyLen, extraLen }
      (provider, self.setProvider keyLen extraLen provider)

end RandInputs

/-- A call of `get_rand_input`, or of `get_container` on the input it returned. An input
refers to the one provider of its lengths. -/
inductive ProviderCall where
  | getRandInput (keyLen extraLen : UInt32)
  | getContainer (keyLen extraLen : UInt32) (containerSize : UInt32)
deriving DecidableEq, Repr

namespace RandInputs

variable {κ : Type} [KeyType κ]

/-- One call. The output is the contents of the container that was returned. -/
def step (env : Environment) (self : RandInputs κ) :
    ProviderCall → Code (Option (List StdString) × RandInputs κ)
  | .getRandInput keyLen extraLen =>
      return (none, (self.getRandKeysProvider keyLen extraLen).2)
  | .getContainer keyLen extraLen containerSize => do
      let (provider, self) := self.getRandKeysProvider keyLen extraLen
      let input : InputProvider κ RandKeysProvider := ⟨provider, self.containersCache⟩
      let (container, input, draws) ←
        input.getContainer env self.draws containerSize.toUInt64
      let self := self.setProvider keyLen extraLen input.keyProvider
      return (some (container.toList.map getStr),
        { self with containersCache := input.containerCache, draws })

end RandInputs

/-! ## Which provider filled an entry -/

/-- For a container size and a total key length, the extra length of the provider that
filled the entry. -/
abbrev FilledBy := UInt32 → UInt32 → Option UInt32

/-- The first keys of a provider, in ascending order. Only its extra length matters. -/
def keysInOrder (extraLen n : UInt32) : List StdString :=
  (seqKeys 0 extraLen.toNat n.toNat).sort (· ≤ ·)

namespace FilledBy

/-- The extra length that decides what a call is served. -/
def server (m : FilledBy) (keyLen extraLen n : UInt32) : UInt32 :=
  (m n (keyLen + extraLen)).getD extraLen

/-- The model of a call: the first call for a size and a total length fills the entry. -/
def step (m : FilledBy) : ProviderCall → Option (List StdString) × FilledBy
  | .getRandInput _ _ => (none, m)
  | .getContainer keyLen extraLen n =>
      (some (keysInOrder (m.server keyLen extraLen n) n), fun n' len =>
        if n' = n ∧ len = keyLen + extraLen then some (m.server keyLen extraLen n) else m n' len)

end FilledBy

/-! ## The code follows the model -/

/-- A provider with its lengths, whose complete build lists are its own keys. -/
structure OwnLists (keyLen extraLen : UInt32) (p : RandKeysProvider) : Prop where
  keyLen_eq : p.keyLen = keyLen
  extraLen_eq : p.extraLen = extraLen
  build : ∀ n : UInt32, (p.buildCache (packed n (keyLen + extraLen))).length = n.toNat →
    (p.buildCache (packed n (keyLen + extraLen))).Perm
      ((List.range n.toNat).map (getSeqStr keyLen.toNat extraLen.toNat))

theorem ownLists_new (keyLen extraLen : UInt32) :
    OwnLists keyLen extraLen { keyLen, extraLen } where
  keyLen_eq := rfl
  extraLen_eq := rfl
  build n hn := by
    have empty : n.toNat = 0 := hn.symm
    rw [empty]
    exact .refl _

/-- The cache key of a list of a provider with its lengths. -/
theorem OwnLists.cacheKey_eq {keyLen extraLen : UInt32} {p : RandKeysProvider}
    (h : OwnLists keyLen extraLen p) (n : UInt32) :
    p.cacheKey n = packed n (keyLen + extraLen) := by
  rw [RandKeysProvider.cacheKey, RandKeysProvider.getKeyLen, h.keyLen_eq, h.extraLen_eq]

theorem OwnLists.sequentialKeys_eq {keyLen extraLen : UInt32} {p : RandKeysProvider}
    (h : OwnLists keyLen extraLen p) (n : Nat) :
    p.sequentialKeys n = (List.range n).map (getSeqStr keyLen.toNat extraLen.toNat) := by
  rw [RandKeysProvider.sequentialKeys, h.keyLen_eq, h.extraLen_eq]

theorem OwnLists.store {keyLen extraLen : UInt32} {p : RandKeysProvider}
    (h : OwnLists keyLen extraLen p) {n : UInt32} {keys : List StdString}
    (perm : keys.Perm (p.sequentialKeys n.toNat)) :
    OwnLists keyLen extraLen (p.store ⟨n, .buildContainer⟩ keys) where
  keyLen_eq := h.keyLen_eq
  extraLen_eq := h.extraLen_eq
  build n' complete := by
    have stored : (p.store ⟨n, .buildContainer⟩ keys).buildCache (packed n' (keyLen + extraLen)) =
        if n' = n then keys else p.buildCache (packed n' (keyLen + extraLen)) := by
      rw [← h.cacheKey_eq]
      refine (p.entry_assign .buildContainer .buildContainer _ _ keys).trans (if_congr ?_ rfl rfl)
      simp [p.cacheKey_injective.eq_iff]
    rw [stored] at complete ⊢
    by_cases same : n' = n
    · subst same
      rw [if_pos rfl, ← h.sequentialKeys_eq]
      exact perm
    · rw [if_neg same] at complete ⊢
      exact h.build n' complete

/-- Asking a provider for keys to build from yields its own keys, in some order. -/
theorem OwnLists.getKeys {keyLen extraLen : UInt32} {p : RandKeysProvider}
    (h : OwnLists keyLen extraLen p) (env : Environment) (draws : Nat) (n : UInt32) :
    ∃ keys p' draws', p.getKeys env draws n .buildContainer = .ok (keys, p', draws') ∧
      keys.Perm ((List.range n.toNat).map (getSeqStr keyLen.toNat extraLen.toNat)) ∧
      OwnLists keyLen extraLen p' := by
  by_cases hit : (p.entry .buildContainer (p.cacheKey n)).length = n.toNat
  · refine ⟨_, p, draws, p.getKeys_hit env draws ⟨n, .buildContainer⟩ hit, ?_, h⟩
    rw [h.cacheKey_eq] at hit ⊢
    exact h.build n hit
  · have shuffled := env.shuffle_perm draws (p.sequentialKeys n.toNat)
    refine ⟨_, _, _, p.getKeys_miss env draws ⟨n, .buildContainer⟩ hit, ?_, h.store shuffled⟩
    rw [← h.sequentialKeys_eq]
    exact shuffled

theorem OwnLists.containerKey_eq {κ : Type} {keyLen extraLen : UInt32} {p : RandKeysProvider}
    (own : OwnLists keyLen extraLen p) (cache : Cache (SearchTree κ)) (n : UInt32) :
    InputProvider.containerKey ⟨p, cache⟩ n.toUInt64 = packed n (keyLen + extraLen) := by
  rw [Bench.containerKey_eq, UInt32.toUInt32_toUInt64]
  exact own.cacheKey_eq n

section Containers

variable {κ : Type} [KeyType κ]

theorem HoldsKeys.contents_eq {t : SearchTree κ} {keys : List StdString} (h : HoldsKeys t keys) :
    t.toList.map getStr = keys.toFinset.sort (· ≤ ·) := by
  rw [← h.holds.represents.map_key_toList]
  exact List.map_congr_left fun x hx => (compared_of_nulFree _ (h.nulFree x hx)).symm

theorem toFinset_map_range (keyLen extraLen n : Nat) :
    ((List.range n).map (getSeqStr keyLen extraLen)).toFinset = seqKeys keyLen extraLen n := by
  ext s
  simp [seqKeys]

theorem value_insertThrough_own (B : Balance) {keyLen extraLen n : Nat} {keys : List StdString}
    (own : keys.Perm ((List.range n).map (getSeqStr keyLen extraLen))) :
    ∃ t, (insertThrough B (.nil : SearchTree κ) 0 keys).value = .ok t ∧
      t.toList.map getStr = (seqKeys keyLen extraLen n).sort (· ≤ ·) := by
  have nulFree : ∀ s ∈ keys, 0 ∉ s.chars := by
    intro s hs
    obtain ⟨seq, -, rfl⟩ := List.mem_map.mp (own.mem_iff.mp hs)
    exact nulFree_getSeqStr keyLen extraLen seq
  obtain ⟨t, run, holds⟩ := value_insertThrough_nil (κ := κ) B nulFree
  refine ⟨t, run, ?_⟩
  rw [(holds.perm own).contents_eq, toFinset_map_range]

theorem size_of_contents {t : SearchTree κ} {e n : UInt32}
    (contents : t.toList.map getStr = keysInOrder e n) : t.size = n.toNat := by
  rw [← SearchTree.length_toList, ← List.length_map (f := getStr), contents, keysInOrder,
    Finset.length_sort, card_seqKeys]

/-- `get_container` fills an empty entry with the keys of a random provider. -/
theorem getContainer_fill (env : Environment) {keyLen extraLen : UInt32} {p : RandKeysProvider}
    (own : OwnLists keyLen extraLen p) (cache : Cache (SearchTree κ)) (draws : Nat) {n : UInt32}
    (empty : cache (packed n (keyLen + extraLen)) = .nil) (pos : n ≠ 0) :
    ∃ t p' draws',
      (InputProvider.getContainer env ⟨p, cache⟩ draws n.toUInt64).value =
        .ok (t, ⟨p', Function.update cache (packed n (keyLen + extraLen)) t⟩, draws') ∧
      t.toList.map getStr = keysInOrder extraLen n ∧ OwnLists keyLen extraLen p' := by
  have wide : n.toUInt64.toNat = n.toNat := UInt32.toNat_toUInt64 n
  have entry : InputProvider.containerCache ⟨p, cache⟩
      (InputProvider.containerKey ⟨p, cache⟩ n.toUInt64) = .nil := by
    rw [own.containerKey_eq]
    exact empty
  obtain ⟨keys, p', draws', gotten, perm, own'⟩ := own.getKeys env draws n
  have count : keys.length = n.toNat := by rw [perm.length_eq, List.length_map, List.length_range]
  obtain ⟨t, filled, contents⟩ := value_insertThrough_own (κ := κ) env.balance perm
  have fetched : InputProvider.getKeys env ⟨p, cache⟩ draws n.toUInt64.toUInt32 .buildContainer =
      .ok (keys, ⟨p', cache⟩, draws') := by
    rw [UInt32.toUInt32_toUInt64, InputProvider.getKeys_of_ok gotten]
  refine ⟨t, p', draws', ?_, contents, own'⟩
  rw [← own.containerKey_eq cache]
  apply value_getContainer_miss env ?miss ?empty fetched
  case miss =>
    intro size
    rw [entry, wide] at size
    exact pos (UInt32.toNat_inj.mp size.symm)
  case empty => rw [entry, SearchTree.size]
  case enough => rw [wide, count]
  case inserted => rw [entry, wide, ← count, List.take_length, filled]
  case size => rw [wide, size_of_contents contents]

/-- The static data after a history of calls, next to the model of that history. -/
structure Reflects (st : RandInputs κ) (m : FilledBy) : Prop where
  providers : ∀ k e p, st.providers k e = some p → OwnLists k e p
  unfilled : ∀ n len, m n len = none → st.containersCache (packed n len) = .nil
  filled : ∀ n len e, m n len = some e →
    (st.containersCache (packed n len)).toList.map getStr = keysInOrder e n

theorem reflects_initial : Reflects (RandInputs.initial : RandInputs κ) fun _ _ => none where
  providers _ _ _ h := by simp [RandInputs.initial] at h
  unfilled _ _ _ := rfl
  filled _ _ _ h := by simp at h

theorem Reflects.setProvider {st : RandInputs κ} {m : FilledBy} (h : Reflects st m)
    {keyLen extraLen : UInt32} {p : RandKeysProvider} (own : OwnLists keyLen extraLen p) :
    Reflects (st.setProvider keyLen extraLen p) m := by
  refine ⟨fun k e q hq => ?_, h.unfilled, h.filled⟩
  simp only [RandInputs.setProvider] at hq
  by_cases same : k = keyLen ∧ e = extraLen
  · obtain ⟨rfl, rfl⟩ := same
    rw [if_pos ⟨rfl, rfl⟩] at hq
    exact Option.some.inj hq ▸ own
  · rw [if_neg same] at hq
    exact h.providers k e q hq

theorem Reflects.getRandKeysProvider {st : RandInputs κ} {m : FilledBy} (h : Reflects st m)
    (keyLen extraLen : UInt32) :
    OwnLists keyLen extraLen (st.getRandKeysProvider keyLen extraLen).1 ∧
      Reflects (st.getRandKeysProvider keyLen extraLen).2 m := by
  rw [RandInputs.getRandKeysProvider]
  cases existing : st.providers keyLen extraLen with
  | some p => exact ⟨h.providers _ _ p existing, h⟩
  | none => exact ⟨ownLists_new _ _, h.setProvider (ownLists_new _ _)⟩

/-- The outcome of `get_container`: the entry, which is the model's, and the rest of the
cache as it was. -/
structure Serves (m : FilledBy) (cache : Cache (SearchTree κ)) (keyLen extraLen n : UInt32)
    (container : SearchTree κ) (input : InputProvider κ RandKeysProvider) : Prop where
  contents : container.toList.map getStr = keysInOrder (m.server keyLen extraLen n) n
  own : OwnLists keyLen extraLen input.keyProvider
  entry : input.containerCache (packed n (keyLen + extraLen)) = container
  elsewhere : ∀ k, k ≠ packed n (keyLen + extraLen) → input.containerCache k = cache k

theorem serves_hit (env : Environment) {keyLen extraLen : UInt32} {p : RandKeysProvider}
    (own : OwnLists keyLen extraLen p) (cache : Cache (SearchTree κ)) (draws : Nat) {n : UInt32}
    {m : FilledBy} (contents : (cache (packed n (keyLen + extraLen))).toList.map getStr =
      keysInOrder (m.server keyLen extraLen n) n) :
    ∃ t input draws',
      (InputProvider.getContainer env ⟨p, cache⟩ draws n.toUInt64).value = .ok (t, input, draws') ∧
        Serves m cache keyLen extraLen n t input := by
  have size := size_of_contents contents
  rw [← UInt32.toNat_toUInt64, ← own.containerKey_eq cache] at size
  refine ⟨_, ⟨p, cache⟩, draws, ?_, contents, own, rfl, fun _ _ => rfl⟩
  rw [getContainer_hit env draws size, own.containerKey_eq, Traced.value_ok]

theorem Reflects.getContainer {st : RandInputs κ} {m : FilledBy} (h : Reflects st m)
    (env : Environment) {keyLen extraLen : UInt32} {p : RandKeysProvider}
    (own : OwnLists keyLen extraLen p) (n : UInt32) :
    ∃ t input draws',
      (InputProvider.getContainer env ⟨p, st.containersCache⟩ st.draws n.toUInt64).value =
        .ok (t, input, draws') ∧
      Serves m st.containersCache keyLen extraLen n t input := by
  cases filler : m n (keyLen + extraLen) with
  | some e =>
      refine serves_hit env own _ _ ?_
      rw [h.filled n _ e filler, FilledBy.server, filler, Option.getD_some]
  | none =>
      have empty := h.unfilled n _ filler
      by_cases zero : n = 0
      · subst zero
        refine serves_hit env own _ _ ?_
        rw [empty]
        simp [keysInOrder, seqKeys]
      · obtain ⟨t, p', draws', run, contents, own'⟩ :=
          getContainer_fill env own st.containersCache st.draws empty zero
        refine ⟨t, _, draws', run, ?_, own', Function.update_self _ _ _,
          fun k hk => Function.update_of_ne hk _ _⟩
        rw [contents, FilledBy.server, filler, Option.getD_none]

theorem Reflects.served {st : RandInputs κ} {m : FilledBy} (h : Reflects st m)
    {keyLen extraLen n : UInt32} {t : SearchTree κ} {input : InputProvider κ RandKeysProvider}
    (served : Serves m st.containersCache keyLen extraLen n t input) (draws : Nat) :
    Reflects { st.setProvider keyLen extraLen input.keyProvider with
      containersCache := input.containerCache, draws }
      (m.step (.getContainer keyLen extraLen n)).2 := by
  refine ⟨(h.setProvider served.own).providers, fun n' len unfilled => ?_,
    fun n' len e filled => ?_⟩
  · simp only [FilledBy.step] at unfilled
    by_cases same : n' = n ∧ len = keyLen + extraLen
    · simp [same] at unfilled
    · rw [if_neg same] at unfilled
      refine (served.elsewhere _ fun h => same (packed_inj.mp h)).trans (h.unfilled n' len unfilled)
  · simp only [FilledBy.step] at filled
    by_cases same : n' = n ∧ len = keyLen + extraLen
    · obtain ⟨rfl, rfl⟩ := same
      rw [if_pos ⟨rfl, rfl⟩, Option.some.injEq] at filled
      rw [← filled, ← served.contents, ← served.entry]
    · rw [if_neg same] at filled
      have untouched := served.elsewhere (packed n' len) fun h => same (packed_inj.mp h)
      exact (congrArg (fun t => t.toList.map getStr) untouched).trans (h.filled n' len e filled)

/-- One call: the output is the one of the model, and the static data reflect the model
after it. -/
theorem step_refines (env : Environment) {st : RandInputs κ} {m : FilledBy} (h : Reflects st m)
    (call : ProviderCall) :
    ∃ st', (RandInputs.step env st call).value = .ok ((m.step call).1, st') ∧
      Reflects st' (m.step call).2 := by
  cases call with
  | getRandInput k e => exact ⟨_, rfl, (h.getRandKeysProvider k e).2⟩
  | getContainer k e n =>
      obtain ⟨own, h'⟩ := h.getRandKeysProvider k e
      obtain ⟨t, input, draws', run, served⟩ := h'.getContainer env own n
      refine ⟨_, ?_, h'.served served draws'⟩
      rw [RandInputs.step, Traced.value_bind_of_eq run]
      exact congrArg (fun contents => Except.ok (some contents, _)) served.contents

end Containers

/-! ## Which histories serve each provider its own keys -/

/-- A call of `get_container` returns the keys of the provider it was made on. -/
def ServesOwn : ProviderCall → Option (List StdString) → Prop
  | .getRandInput _ _, _ => True
  | .getContainer keyLen extraLen n, output =>
      output = some ((seqKeys keyLen.toNat extraLen.toNat n.toNat).sort (· ≤ ·))

/-- Two calls do not ask for containers of one size, and of keys of one total length,
from providers that split this length differently. -/
def Compatible : ProviderCall → ProviderCall → Prop
  | .getContainer keyLen extraLen n, .getContainer keyLen' extraLen' n' =>
      n = n' → n ≠ 0 → keyLen + extraLen = keyLen' + extraLen' → extraLen = extraLen'
  | _, _ => True

namespace FilledBy

/-- The entry that a call finds, if any, was filled with its own keys. -/
def Agrees (m : FilledBy) : ProviderCall → Prop
  | .getRandInput _ _ => True
  | .getContainer keyLen extraLen n =>
      n ≠ 0 → ∀ e ∈ m n (keyLen + extraLen), e = extraLen

theorem keysInOrder_inj {e e' n : UInt32} (pos : n ≠ 0) :
    keysInOrder e n = keysInOrder e' n ↔ e = e' := by
  constructor
  · intro same
    have sets := congrArg List.toFinset same
    rw [keysInOrder, keysInOrder, Finset.sort_toFinset, Finset.sort_toFinset] at sets
    have hn : 0 < n.toNat := Nat.pos_of_ne_zero fun h => pos (UInt32.toNat_inj.mp h)
    exact UInt32.toNat_inj.mp (seqKeys_inj hn sets)
  · rintro rfl
    rfl

theorem keysInOrder_zero (e : UInt32) : keysInOrder e 0 = [] := by simp [keysInOrder, seqKeys]

theorem server_eq_iff {m : FilledBy} {keyLen extraLen n : UInt32} :
    m.server keyLen extraLen n = extraLen ↔ ∀ e ∈ m n (keyLen + extraLen), e = extraLen := by
  rw [server]
  cases m n (keyLen + extraLen) <;> simp

theorem servesOwn_step {m : FilledBy} (call : ProviderCall) :
    ServesOwn call (m.step call).1 ↔ m.Agrees call := by
  cases call with
  | getRandInput k e => exact Iff.rfl
  | getContainer k e n =>
      change some (keysInOrder (m.server k e n) n) = some (keysInOrder e n) ↔ _
      rw [Option.some.injEq, Agrees]
      by_cases zero : n = 0
      · subst zero
        simp [keysInOrder_zero]
      · rw [keysInOrder_inj zero, server_eq_iff]
        exact ⟨fun h _ => h, fun h => h zero⟩

/-- After a call that was served its own keys, a later one agrees with the model exactly if
it did before and is compatible with the first. -/
theorem agrees_step {m : FilledBy} {call : ProviderCall} (own : m.Agrees call)
    (later : ProviderCall) :
    (m.step call).2.Agrees later ↔ m.Agrees later ∧ Compatible call later := by
  cases call with
  | getRandInput k e => simp [step, Compatible]
  | getContainer k e n =>
      cases later with
      | getRandInput k' e' => simp [Agrees, Compatible]
      | getContainer k' e' n' =>
          simp only [Agrees, step, Compatible]
          by_cases same : n' = n ∧ k' + e' = k + e
          · obtain ⟨rfl, sum⟩ := same
            rw [if_pos ⟨rfl, sum⟩, sum]
            by_cases zero : n' = 0
            · simp [zero]
            · -- The entry was filled with the keys of the first call.
              have server := server_eq_iff.mpr (own zero)
              have filler := own zero
              simp only [zero, not_false_eq_true, true_implies, ne_eq, server, Option.mem_def,
                Option.some.injEq, forall_eq']
              exact ⟨fun h => ⟨fun x hx => (filler x hx).trans h, h⟩, fun h => h.2⟩
          · rw [if_neg same]
            refine (and_iff_left fun size _ sum => ?_).symm
            exact absurd ⟨size.symm, sum.symm⟩ same

/-- A history serves each provider its own keys exactly if its calls are compatible with
one another, and with what had been filled before. -/
theorem servesOwn_iff (m : FilledBy) (calls : List ProviderCall) :
    List.Forall₂ ServesOwn calls (Traced.modelRun FilledBy.step m calls).1 ↔
      (∀ call ∈ calls, m.Agrees call) ∧ calls.Pairwise Compatible := by
  induction calls generalizing m with
  | nil => simp [Traced.modelRun]
  | cons call calls ih =>
      rw [Traced.modelRun, List.forall₂_cons, servesOwn_step, ih, List.forall_mem_cons,
        List.pairwise_cons]
      constructor
      · rintro ⟨own, later, pairwise⟩
        have both := fun c hc => (agrees_step own c).mp (later c hc)
        exact ⟨⟨own, fun c hc => (both c hc).1⟩, fun c hc => (both c hc).2, pairwise⟩
      · rintro ⟨⟨own, before⟩, compatible, pairwise⟩
        exact ⟨own, fun c hc => (agrees_step own c).mpr ⟨before c hc, compatible c hc⟩, pairwise⟩

end FilledBy

/-- Every history of calls runs, with the outputs of the model. -/
theorem value_run {κ : Type} [KeyType κ] (env : Environment) (calls : List ProviderCall) :
    ∃ last, (Traced.run (RandInputs.step env) (RandInputs.initial : RandInputs κ) calls).value =
      .ok ((Traced.modelRun FilledBy.step (fun _ _ => none) calls).1, last) := by
  obtain ⟨last, run, -⟩ := Traced.run_refines (R := Reflects)
    (fun _ _ call h (_ : True) => step_refines env h call) (reflects_initial (κ := κ)) calls
    fun _ _ => trivial
  exact ⟨last, run⟩

/-- Over any history of calls, every `get_container` returns the keys of the provider it was
called on exactly if no two of the calls ask for containers of the same size, not empty,
from providers with the same total length and different extra lengths. -/
theorem serves_own_keys_iff {κ : Type} [KeyType κ] (env : Environment)
    (calls : List ProviderCall) :
    ∃ outputs last,
      (Traced.run (RandInputs.step env) (RandInputs.initial : RandInputs κ) calls).value =
        .ok (outputs, last) ∧
      (List.Forall₂ ServesOwn calls outputs ↔ calls.Pairwise Compatible) := by
  obtain ⟨last, run⟩ := value_run (κ := κ) env calls
  refine ⟨_, last, run, ?_⟩
  rw [FilledBy.servesOwn_iff]
  refine and_iff_right fun call _ => ?_
  cases call <;> simp [FilledBy.Agrees]

/-- A provider of keys with two letters and two fillers is served the key "---" of a
provider with one letter and three fillers; its own first key is "--". -/
theorem second_provider_served_keys_of_first :
    ∃ last,
      (Traced.run (RandInputs.step .plain)
        (RandInputs.initial : RandInputs (Keydomet StdString .size32bit))
        [.getRandInput 1 3, .getContainer 1 3 1, .getRandInput 2 2, .getContainer 2 2 1]).value =
        .ok ([none, some [⟨[45, 45, 45]⟩], none, some [⟨[45, 45, 45]⟩]], last) ∧
      ¬ ServesOwn (.getContainer 2 2 1) (some [⟨[45, 45, 45]⟩]) := by
  obtain ⟨last, run⟩ := value_run (κ := Keydomet StdString .size32bit) .plain
    [.getRandInput 1 3, .getContainer 1 3 1, .getRandInput 2 2, .getContainer 2 2 1]
  refine ⟨last, run.trans ?_, ?_⟩
  · simp [Traced.modelRun, FilledBy.step, FilledBy.server, keysInOrder, seqKeys, getSeqStr,
      seqDigits, fillerChar]
  · simp [ServesOwn, seqKeys, getSeqStr, seqDigits]

end Kdmt.Bench

import Keydomet.Foundation.Cyclic
import Keydomet.Bench.Bodies

/-!
# Hits of full lookup passes

The loop of lookups goes through the operation keys again and again. When its iterations
make up full passes, each operation key that is in the container is found once in every
pass. The container holds the first `n` keys of the provider's pool and the operation keys
are the first `m`, so every pass has `min n m` hits, for strings and for keydomets.
-/

namespace Kdmt.Bench

open Foundation KeyType ListedKeys

/-! ## Lookups -/

theorem isHit_find (s : Finset StdString) (k : StdString) :
    isHit (SetModel.step s (.find k)).1 = decide (k ∈ s) := by
  by_cases present : k ∈ s <;> simp [isHit, SetModel.step, SetModel.answer, present]

/-- The hits of a loop of lookups, as long as the counter does not wrap around. -/
theorem countP_isHit_lookups {opKeys : List StdString} (nonempty : opKeys ≠ [])
    (s : Finset StdString) (iterations : Nat) (ops : UInt64)
    (bound : ops.toNat + iterations < 2 ^ 64) :
    (Traced.modelRun SetModel.step s
      (loopOperations .lookups opKeys iterations ops)).1.countP isHit =
    Nat.count (fun i => (opKeys[(ops.toNat + i) % opKeys.length]?).any (· ∈ s)) iterations := by
  induction iterations generalizing ops with
  | zero => rfl
  | succ iterations ih =>
      obtain ⟨opKey, here⟩ := getElem?_mod_eq_some nonempty ops
      have next : (ops + 1).toNat = ops.toNat + 1 := by
        rw [UInt64.toNat_add]
        exact Nat.mod_eq_of_lt (by simpa using (by omega : ops.toNat + 1 < 2 ^ 64))
      have rest := ih (ops + 1) (by omega)
      have keep : (SetModel.step s (operation .lookups (ops + 1) opKey)).2 = s := rfl
      have first : isHit (SetModel.step s (operation .lookups (ops + 1) opKey)).1 =
          decide (opKey ∈ s) := isHit_find s opKey
      rw [loopOperations, here, Nat.count_succ']
      simp only [Traced.modelRun, List.countP_cons, keep, first, rest, next, Nat.add_zero, here,
        Option.any_some, Nat.add_assoc, Nat.add_comm 1]

/-- Full passes over the operation keys find each key that is in the set once in every pass. -/
theorem hits_full_passes {opKeys : List StdString} (nonempty : opKeys ≠ [])
    (s : Finset StdString) {iterations : UInt64} {q : Nat}
    (passes : iterations.toNat = q * opKeys.length) :
    (hits (Traced.modelRun SetModel.step s
      (loopOperations .lookups opKeys iterations.toNat 0)).1).toNat =
    q * opKeys.countP (· ∈ s) := by
  have count := countP_isHit_lookups nonempty s iterations.toNat 0
    (by simpa using iterations.toNat_lt)
  simp only [UInt64.toNat_zero, Nat.zero_add] at count
  have cyclic := count_cyclic (fun k => decide (k ∈ s)) opKeys q
  rw [← passes] at cyclic
  have small : q * opKeys.countP (· ∈ s) < 2 ^ 64 :=
    Nat.lt_of_le_of_lt (Nat.mul_le_mul_left q List.countP_le_length)
      (passes ▸ iterations.toNat_lt)
  rw [hits, count, cyclic, UInt64.toNat_ofNat', Nat.mod_eq_of_lt small]

/-! ## The pipeline -/

section Pipeline

variable {π : Type} [KeysProvider π] [ListedKeys π]

theorem countP_pool {p : π} (clean : CleanPool p) {n m : UInt32} (served : Supplies p n)
    (served' : Supplies p m) {opKeys : List StdString} (perm : opKeys.Perm (pool p m.toNat)) :
    opKeys.countP (· ∈ (pool p n.toNat).toFinset) = min n.toNat m.toNat := by
  rw [perm.countP_eq]
  simp only [List.mem_toFinset]
  rcases Nat.le_total n.toNat m.toNat with le | le
  · rw [countP_mem_of_subset (clean.nodup _) (clean.nodup _) (pool_subset p le),
      length_pool p n served, Nat.min_eq_left le]
  · rw [List.countP_eq_length.mpr, length_pool p m served', Nat.min_eq_right le]
    intro k hk
    exact decide_eq_true (pool_subset p le hk)

theorem Ran.found_full_passes {κ : Type} [KeyType κ] {p q : π} {cache : Cache (SearchTree κ)}
    {iterations : UInt64} {n m : UInt32} {passes : Nat} {found : UInt64}
    {input : InputProvider κ π} {draws : Nat}
    (ran : Ran p q cache .lookups iterations.toNat n m (pool p n.toNat) found input draws)
    (clean : CleanPool p) (served : Supplies p n) (served' : Supplies p m) (pos : m ≠ 0)
    (full : iterations.toNat = passes * m.toNat) :
    found.toNat = passes * min n.toNat m.toNat := by
  obtain ⟨nonempty, -⟩ := opKeys_spec clean ran.lists served' pos ran.complete
  have perm := stored_perm ran.lists (r := ⟨m, .benchOps⟩) served' ran.complete
  rw [← ran.complete] at full
  rw [ran.found_eq, hits_full_passes nonempty _ full, countP_pool clean served served' perm]

/-- After any history of calls on an input of the provider, a run of lookups over a container
of size `n` with `m` operation keys finds so many keys, in either benchmark. -/
def LookupsFind (env : Environment) (p : π) (draws : Nat) (iterations : UInt64) (n m : UInt32)
    (found : Nat) : Prop :=
  (∀ (N : PrefixSize) (calls : List InputCall) results input draws',
    (Traced.run (inputCall env) ((.new p : InputProvider (Keydomet StdString N) π), draws)
      calls).value = .ok (results, input, draws') →
    ∃ final, (keydometBench env .lookups iterations.toNat n.toUInt64.toInt64 m.toUInt64.toInt64
        input draws').value = .ok final ∧ final.found.toNat = found) ∧
  ∀ (calls : List InputCall) results input draws',
    (Traced.run (inputCall env) ((.new p : InputProvider StdString π), draws) calls).value =
      .ok (results, input, draws') →
    ∃ final, (stringBench env .lookups iterations.toNat n.toUInt64.toInt64 m.toUInt64.toInt64
        input draws').value = .ok final ∧ final.found.toNat = found

theorem lookupsFind_full_passes (env : Environment) {p : π} (fresh : ∀ r, stored p r = [])
    (clean : CleanPool p) (draws : Nat) {iterations : UInt64} {n m : UInt32} {q : Nat}
    (served : Supplies p n) (served' : Supplies p m) (pos : m ≠ 0)
    (passes : iterations.toNat = q * m.toNat) :
    LookupsFind env p draws iterations n m (q * min n.toNat m.toNat) := by
  have number : m.toUInt64.toInt64.toUInt64.toUInt32 = m := UInt32.toUInt32_toUInt64 m
  constructor
  · intro N calls results input draws' ran
    have own := (ownContainers_new fresh draws).of_run clean ran
    obtain ⟨found, input', draws'', body, done⟩ := value_keydometBody clean own.lists env rfl
      number pos served served' (clean.nodup _) (length_pool p n served) (own.servesKeys served)
      .lookups iterations.toNat
    obtain ⟨final, bench, same⟩ := Traced.exists_value_of_map_eq (found_keydometBody ..) body
    exact ⟨final, bench, same ▸ done.found_full_passes clean served served' pos passes⟩
  · intro calls results input draws' ran
    have own := (ownContainers_new fresh draws).of_run clean ran
    obtain ⟨found, input', draws'', body, done⟩ := value_stringBody StdString clean own.lists env
      rfl number pos served served' (clean.nodup _) (length_pool p n served) (own.servesKeys served)
      .lookups iterations.toNat
    obtain ⟨final, bench, same⟩ := Traced.exists_value_of_map_eq (found_stringBody ..) body
    exact ⟨final, bench, same ▸ done.found_full_passes clean served served' pos passes⟩

end Pipeline

/-- Hits of full lookup passes. When the iterations of the loop of lookups, a machine number,
make up `q` passes over `m` operation keys, the loop finds `q * min n m` keys in a container of
size `n`, in both benchmarks and for every prefix size: with a random provider, and with a
provider of a file with enough different lines, none of which contains a NUL. -/
theorem full_passes_find (env : Environment) (draws : Nat) {iterations : UInt64} {n m : UInt32}
    {q : Nat} (pos : 1 ≤ m) (passes : iterations.toNat = q * m.toNat) :
    (∀ keyLen extraLen : UInt32,
      LookupsFind env ({ keyLen, extraLen } : RandKeysProvider) draws iterations n m
        (q * min n.toNat m.toNat)) ∧
    (∀ policy file (lines : List StdString), max n.toNat m.toNat ≤ lines.toFinset.card →
      (∀ line ∈ lines, 0 ∉ line.chars) →
      ∃ provider draws',
        DatasetKeysProvider.ofFile env policy file (.ok lines) draws = .ok (provider, draws') ∧
        LookupsFind env provider draws' iterations n m (q * min n.toNat m.toNat)) := by
  have pos' : m ≠ 0 := by
    rintro rfl
    exact absurd pos (by decide)
  constructor
  · intro keyLen extraLen
    exact lookupsFind_full_passes env (fun r => KeyCaches.entry_new r.use _)
      (RandKeysProvider.cleanPool _) draws trivial trivial pos' passes
  · intro policy file lines enough nulFree
    obtain ⟨rawContent, opened, nodup, length, members⟩ :=
      DatasetKeysProvider.ofFile_ok env policy file lines draws
    have clean : CleanPool ({ rawContent } : DatasetKeysProvider) :=
      ⟨fun k => nodup.sublist (List.take_sublist _ _),
        fun k s hs => nulFree s (members s (List.mem_of_mem_take hs))⟩
    have served : ∀ k : UInt32, k.toNat ≤ max n.toNat m.toNat →
        Supplies ({ rawContent } : DatasetKeysProvider) k :=
      fun k le => (le.trans enough).trans_eq length.symm
    exact ⟨_, _, opened, lookupsFind_full_passes env (fun r => KeyCaches.entry_new r.use _) clean _
      (served n (Nat.le_max_left _ _)) (served m (Nat.le_max_right _ _)) pos' passes⟩

/-- Two passes over three operation keys, in a container of two keys. -/
theorem full_passes_find_two_of_three :
    (∀ keyLen extraLen : UInt32,
      LookupsFind .plain ({ keyLen, extraLen } : RandKeysProvider) 0 6 2 3 4) ∧
    (∀ policy file (lines : List StdString), 3 ≤ lines.toFinset.card →
      (∀ line ∈ lines, 0 ∉ line.chars) →
      ∃ provider draws',
        DatasetKeysProvider.ofFile .plain policy file (.ok lines) 0 = .ok (provider, draws') ∧
        LookupsFind .plain provider draws' 6 2 3 4) :=
  full_passes_find .plain 0 (n := 2) (m := 3) (q := 2) (by decide) (by decide)

end Kdmt.Bench

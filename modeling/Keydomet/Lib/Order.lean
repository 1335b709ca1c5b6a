import Keydomet.Lib.Compare

/-!
# `compare` is the order of the strings

`compare_spec` is the specification of `compare` on keydomets whose prefixes
describe their strings: it returns, and the sign of its result is the
lexicographic order of the two C strings. Everything said about keydomets as keys
of a container, and about sorting them, rests on this one theorem.
-/

namespace Kdmt.Keydomet

open Foundation

variable {σ τ : Type} [StrImp σ] [StrImp τ] {N : PrefixSize}

theorem exists_head_of_long {a : σ} {b : τ}
    (same : PrefixRep.encode N (cstr a) = PrefixRep.encode N (cstr b))
    (long : (PrefixRep.encode N (cstr a)).stringShorterThanPrefix = false) :
    ∃ c s t, c ≠ 0 ∧ rawBytes a = c :: s ∧ rawBytes b = c :: t := by
  have firstBytes := (PrefixRep.encode_inj (zero_notMem_cstr _) (zero_notMem_cstr _)).mp same
  have filled : ¬ (cstr a).length < N.toNat := by
    rw [← PrefixRep.encode_short_iff (zero_notMem_cstr _), long]
    exact Bool.false_ne_true
  obtain ⟨n, hn⟩ := Nat.exists_eq_succ_of_ne_zero (Nat.ne_of_gt N.toNat_pos)
  rw [hn] at firstBytes filled
  unfold cstr at firstBytes filled
  cases ha : rawBytes a with
  | nil => simp [ha] at filled
  | cons c s =>
      have hc : c ≠ 0 := by
        rintro rfl
        simp [ha] at filled
      rw [ha, cString_cons_of_ne hc] at firstBytes
      cases hb : rawBytes b with
      | nil => simp [hb] at firstBytes
      | cons d t =>
          by_cases hd : d = 0
          · simp [hb, hd] at firstBytes
          · rw [hb, cString_cons_of_ne hd, List.take_succ_cons, List.take_succ_cons,
              List.cons.injEq] at firstBytes
            exact ⟨c, s, t, hc, rfl, firstBytes.1 ▸ rfl⟩

/-- The fallback: it starts at the second byte of both strings, reads both up to
the deciding position, and orders the whole strings. -/
theorem compare_fallback {a : Keydomet σ N} {b : Keydomet τ N} (ha : a.Valid) (hb : b.Valid)
    (same : a.prefixRep = b.prefixRep) (long : a.prefixRep.stringShorterThanPrefix = false)
    (decided : Decides (rawBytes a.str) (rawBytes b.str)) :
    ∃ r, a.compare b =
        .ok r (.increment ⟨StrImp.id σ, N⟩ .usedString ::
          compareReads (.read .left) (.read .right) 1 1
            (agreement (rawBytes a.str) (rawBytes b.str) - 1)) ∧
      ComparesAs r (cstr a.str) (cstr b.str) := by
  rw [compare_of_long same long]
  rw [ha, hb] at same
  rw [ha] at long
  obtain ⟨c, s, t, hc, hs, ht⟩ := exists_head_of_long same long
  rw [hs, ht, decides_cons_of_ne hc] at decided
  obtain ⟨r, run, ordered⟩ := strcmpAt_eq (a := a.str) (b := b.str) (k := N.sizeof)
    (by simpa [hs, ht, PrefixSize.sizeof] using decided)
  refine ⟨r, ?_, ?_⟩
  · rw [run]
    simp [hs, ht, hc, PrefixSize.sizeof]
  · unfold cstr
    rw [hs, ht, cString_cons_of_ne hc, cString_cons_of_ne hc]
    simp only [PrefixSize.sizeof, hs, ht, List.drop_succ_cons, List.drop_zero] at ordered
    exact ordered.congr (by simp) (by simp)

/-- The specification of `compare`: on valid keydomets it returns, provided the
fallback, when it is taken, is decided inside both arrays. -/
theorem compare_spec_of_decides {a : Keydomet σ N} {b : Keydomet τ N}
    (ha : a.Valid) (hb : b.Valid)
    (decided : a.prefixRep = b.prefixRep → a.prefixRep.stringShorterThanPrefix = false →
      Decides (rawBytes a.str) (rawBytes b.str)) :
    ∃ r, (a.compare b).value = .ok r ∧ ComparesAs r (cstr a.str) (cstr b.str) := by
  have hs := zero_notMem_cstr a.str
  have ht := zero_notMem_cstr b.str
  by_cases same : a.prefixRep = b.prefixRep
  · cases short : a.prefixRep.stringShorterThanPrefix with
    | false =>
        obtain ⟨r, run, ordered⟩ := compare_fallback ha hb same short (decided same short)
        exact ⟨r, by rw [run, Traced.value_ok], ordered⟩
    | true =>
        refine ⟨0, by rw [compare_of_short same short, Traced.value_ok], ?_⟩
        rw [ha, hb] at same
        rw [ha] at short
        rw [PrefixRep.eq_of_encode_eq_of_short hs ht same short]
        exact .refl _
  · rw [compare_of_prefix_ne same]
    refine ⟨_, rfl, ?_⟩
    cases smaller : a.prefixRep.lt b.prefixRep with
    | true =>
        rw [diffAsOneOrMinusOne_of_lt smaller]
        rw [ha, hb] at smaller
        exact .of_lt (by decide) (PrefixRep.lt_of_encode_lt hs ht smaller)
    | false =>
        rw [diffAsOneOrMinusOne_of_not_lt smaller]
        have greater : b.prefixRep.lt a.prefixRep = true := by
          rw [PrefixRep.lt_eq_true_iff]
          have notLess : ¬ a.prefixRep.number < b.prefixRep.number := by
            rw [← PrefixRep.lt_eq_true_iff, smaller]
            exact Bool.false_ne_true
          have differ : a.prefixRep.number ≠ b.prefixRep.number :=
            fun h => same (PrefixRep.number_inj.mp h)
          omega
        rw [ha, hb] at greater
        exact .of_gt (by decide) (PrefixRep.lt_of_encode_lt ht hs greater)

/-- `compare` on valid keydomets of terminated strings, of one or of two string
types: it returns, and orders the C strings. -/
theorem compare_spec {a : Keydomet σ N} {b : Keydomet τ N} (ha : a.Valid) (hb : b.Valid)
    (ta : Terminated a.str) (tb : Terminated b.str) :
    ∃ r, (a.compare b).value = .ok r ∧ ComparesAs r (cstr a.str) (cstr b.str) :=
  compare_spec_of_decides ha hb fun _ _ => decides_of_terminated ta tb

/-- `operator<` is the order of the C strings. -/
theorem value_lt {a : Keydomet σ N} {b : Keydomet τ N} (ha : a.Valid) (hb : b.Valid)
    (ta : Terminated a.str) (tb : Terminated b.str) :
    (a.lt b).value = .ok (decide (cstr a.str < cstr b.str)) := by
  obtain ⟨r, run, ordered⟩ := compare_spec ha hb ta tb
  rw [lt, Traced.value_bind_of_eq run, Traced.pure_eq, Traced.value_ok,
    decide_eq_decide.mpr ordered.neg_iff]

/-- `operator==` is equality of the C strings. -/
theorem value_eq {a : Keydomet σ N} {b : Keydomet τ N} (ha : a.Valid) (hb : b.Valid)
    (ta : Terminated a.str) (tb : Terminated b.str) :
    (a.eq b).value = .ok (decide (cstr a.str = cstr b.str)) := by
  obtain ⟨r, run, ordered⟩ := compare_spec ha hb ta tb
  rw [eq, Traced.value_bind_of_eq run, Traced.pure_eq, Traced.value_ok,
    decide_eq_decide.mpr ordered.eq_zero_iff]

/-! ## Strings compared through their keydomets -/

def compareStrs (N : PrefixSize) (s : σ) (t : τ) : Code Int := do
  let a ← ofStr N s
  let b ← ofStr N t
  a.compare b

def ltStrs (N : PrefixSize) (s : σ) (t : τ) : Code Bool := do
  let a ← ofStr N s
  let b ← ofStr N t
  a.lt b

def eqStrs (N : PrefixSize) (s : σ) (t : τ) : Code Bool := do
  let a ← ofStr N s
  let b ← ofStr N t
  a.eq b

section

variable {s : σ} {t : τ}

theorem value_build_bind {α : Type} (hs : Terminated s) (ht : Terminated t)
    (f : Keydomet σ N → Keydomet τ N → Code α) :
    (do let a ← ofStr N s; let b ← ofStr N t; f a b).value =
      (f (mkValid N s) (mkValid N t)).value := by
  rw [Traced.value_bind_of_eq (value_ofStr hs), Traced.value_bind_of_eq (value_ofStr ht)]

theorem value_ltStrs (hs : Terminated s) (ht : Terminated t) :
    (ltStrs N s t).value = .ok (decide (cstr s < cstr t)) := by
  rw [ltStrs, value_build_bind hs ht]
  exact value_lt (mkValid_valid N s) (mkValid_valid N t) hs ht

theorem value_eqStrs (hs : Terminated s) (ht : Terminated t) :
    (eqStrs N s t).value = .ok (decide (cstr s = cstr t)) := by
  rw [eqStrs, value_build_bind hs ht]
  exact value_eq (mkValid_valid N s) (mkValid_valid N t) hs ht

end

/-- The prefix-accelerated comparison agrees with `strcmp` on the whole strings. -/
structure AgreesWithStrcmp (N : PrefixSize) (s : σ) (t : τ) (r r' : Int) : Prop where
  compared : (compareStrs N s t).value = .ok r
  reference : (strcmpAt 0 s t).value = .ok r'
  sign_eq : r.sign = r'.sign
  lt_iff : (ltStrs N s t).value = .ok (decide (cstr s < cstr t))
  eq_iff : (eqStrs N s t).value = .ok (decide (cstr s = cstr t))

/-- Two keydomets of terminated strings, of one or of two string types, compare as
`strcmp` compares the strings. -/
theorem compare_agrees_with_strcmp (N : PrefixSize) (s : σ) (t : τ)
    (hs : Terminated s) (ht : Terminated t) : ∃ r r', AgreesWithStrcmp N s t r r' := by
  obtain ⟨r', reference, ordered'⟩ := strcmpAt_zero_comparesAs hs ht
  obtain ⟨r, run, ordered⟩ :=
    compare_spec (mkValid_valid N s) (mkValid_valid N t) hs ht
  exact ⟨r, r', by rw [compareStrs, value_build_bind hs ht, run], reference,
    ordered.sign_eq ordered', value_ltStrs hs ht, value_eqStrs hs ht⟩

/-- A raw string against a `std::string`, equal in the whole prefix. -/
theorem compare_agrees_with_strcmp_abc_abd :
    ∃ r r', AgreesWithStrcmp .size16bit (ConstCharPtr.mk [97, 98, 99, 0, 7])
      (StdString.mk [97, 98, 0xE9]) r r' :=
  compare_agrees_with_strcmp .size16bit _ _ (by decide) (by decide)

/-! ## Agreement with `std::string` -/

/-- The operators of `keydomet<std::string>` agree with those of `std::string`,
which compare all characters, NUL included. -/
def AgreesWithStdString (N : PrefixSize) (a b : StdString) : Prop :=
  (eqStrs N a b).value = .ok (decide (a = b)) ∧
    (ltStrs N a b).value = .ok (decide (a.chars < b.chars))

/-- The operators look at the characters before the first NUL only. They agree
with the operators of `std::string` on exactly the pairs that are equal or differ
before a NUL. -/
theorem std_string_order (N : PrefixSize) (a b : StdString) :
    (eqStrs N a b).value = .ok (decide (cString a.chars = cString b.chars)) ∧
      (ltStrs N a b).value = .ok (decide (cString a.chars < cString b.chars)) ∧
      (AgreesWithStdString N a b ↔ (cString a.chars = cString b.chars → a = b)) := by
  have equality := value_eqStrs (N := N) (terminated_stdString a) (terminated_stdString b)
  have order := value_ltStrs (N := N) (terminated_stdString a) (terminated_stdString b)
  rw [cstr_stdString, cstr_stdString] at equality order
  refine ⟨equality, order, ?_⟩
  rw [AgreesWithStdString, equality, order]
  constructor
  · rintro ⟨agree, -⟩ same
    have decided : decide (cString a.chars = cString b.chars) = decide (a = b) :=
      Except.ok.inj agree
    exact (decide_eq_decide.mp decided).mp same
  · intro separated
    by_cases same : a = b
    · subst same
      simp
    · have differ : cString a.chars ≠ cString b.chars := fun h => same (separated h)
      simp [same, differ, cString_lt_iff_of_ne differ]

/-- Two different keys, equal up to a NUL inside them, are merged. -/
theorem std_string_nul_inside :
    ¬ AgreesWithStdString .size32bit ⟨[97, 0, 98]⟩ ⟨[97, 0, 99]⟩ := by
  have equality := value_eqStrs (N := .size32bit)
    (terminated_stdString ⟨[97, 0, 98]⟩) (terminated_stdString ⟨[97, 0, 99]⟩)
  rintro ⟨agree, -⟩
  exact absurd (Except.ok.inj (equality.symm.trans agree)) (by decide)

end Kdmt.Keydomet

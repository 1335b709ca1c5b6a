import Keydomet.Lib.Order

/-!
# Keydomets of string views

A `std::string_view` has a length, but `get_raw_str` keeps only its `data()`
pointer, so the prefix, the short-string test and the fallback all read on until a
NUL. Two statements make this precise. `value_compareStrs_ok_iff` says when a
comparison stays inside the arrays at all. `verdict_iff_settled` says when its
verdict is a function of the characters alone: exactly when everything it looks at
lies inside the bytes the operands own, whatever stands behind them.
-/

namespace Kdmt

open Foundation

/-- Bytes that `str_to_prefix` can take a prefix of `N` bytes from: they hold a
terminator, or are long enough to fill it. -/
def Covered (N : PrefixSize) (bytes : List UInt8) : Prop := 0 ∈ bytes ∨ N.toNat ≤ bytes.length

instance (N : PrefixSize) (bytes : List UInt8) : Decidable (Covered N bytes) :=
  inferInstanceAs (Decidable (_ ∨ _))

theorem Covered.append {N : PrefixSize} {bytes : List UInt8} (h : Covered N bytes)
    (rest : List UInt8) : Covered N (bytes ++ rest) := by
  rcases h with terminated | long
  · exact .inl (List.mem_append_left rest terminated)
  · exact .inr (by rw [List.length_append]; omega)

/-- Both prefixes and the whole comparison are settled by the given bytes: none of
them ends before the prefix is filled or terminated, and the first position at
which they differ, or both hold a NUL, lies inside both. -/
structure Settled (N : PrefixSize) (bytes bytes' : List UInt8) : Prop where
  coveredLeft : Covered N bytes
  coveredRight : Covered N bytes'
  decided : Decides bytes bytes'

namespace Keydomet

variable {σ τ : Type} [StrImp σ] [StrImp τ] {N : PrefixSize} {s : σ} {t : τ}

/-- Undecided strings that fill their prefixes have the same one, so the fallback
is entered, and it leaves one of the arrays. -/
theorem compare_fault_of_undecided (coveredLeft : Covered N (rawBytes s))
    (coveredRight : Covered N (rawBytes t)) (undecided : ¬ Decides (rawBytes s) (rawBytes t)) :
    (mkValid N s).compare (mkValid N t) = .fault .outOfBounds := by
  have filled : N.toNat ≤ (cstr s).length ∧ (cstr s).take N.toNat = (cstr t).take N.toNat := by
    rcases exists_overrun_of_undecided undecided with ⟨notMem, rest, eq⟩ | ⟨notMem, rest, eq⟩
    · have long : N.toNat ≤ (rawBytes s).length := coveredLeft.resolve_left notMem
      rw [cstr, cstr, eq, cString_append_of_notMem notMem, cString_of_notMem notMem,
        List.take_append_of_le_length long]
      exact ⟨long, rfl⟩
    · have long : N.toNat ≤ (rawBytes t).length := coveredRight.resolve_left notMem
      rw [cstr, cstr, eq, cString_append_of_notMem notMem, cString_of_notMem notMem,
        List.take_append_of_le_length long, List.length_append]
      exact ⟨by omega, rfl⟩
  have same : PrefixRep.encode N (cstr s) = PrefixRep.encode N (cstr t) :=
    (PrefixRep.encode_inj (zero_notMem_cstr s) (zero_notMem_cstr t)).mpr filled.2
  have long : (PrefixRep.encode N (cstr s)).stringShorterThanPrefix = false := by
    rw [← Bool.not_eq_true, PrefixRep.encode_short_iff (zero_notMem_cstr s)]
    exact Nat.not_lt.mpr filled.1
  obtain ⟨c, u, v, hc, hu, hv⟩ := exists_head_of_long same long
  rw [compare_of_long same long, mkValid_str, mkValid_str, strcmpAt_fault]
  · rfl
  · rw [hu, hv, decides_cons_of_ne hc] at undecided
    simpa [hu, hv, PrefixSize.sizeof] using undecided

theorem value_ofStr_of_covered (covered : Covered N (rawBytes s)) :
    (ofStr N s).value = .ok (mkValid N s) := by
  rw [ofStr_eq covered, Traced.value_ok]

theorem value_compareStrs_of_settled (h : Settled N (rawBytes s) (rawBytes t)) :
    ∃ r, (compareStrs N s t).value = .ok r ∧ ComparesAs r (cstr s) (cstr t) := by
  obtain ⟨r, run, ordered⟩ := compare_spec_of_decides (mkValid_valid N s) (mkValid_valid N t)
    fun _ _ => h.decided
  refine ⟨r, ?_, ordered⟩
  rw [compareStrs, Traced.value_bind_of_eq (value_ofStr_of_covered h.coveredLeft),
    Traced.value_bind_of_eq (value_ofStr_of_covered h.coveredRight), run]

theorem value_compareStrs_ok_iff :
    (∃ r, (compareStrs N s t).value = .ok r) ↔ Settled N (rawBytes s) (rawBytes t) := by
  constructor
  · rintro ⟨r, run⟩
    have coveredLeft : Covered N (rawBytes s) := by
      by_contra uncovered
      rw [compareStrs, ofStr, PrefixRep.ofStr_fault uncovered] at run
      cases run
    rw [compareStrs, Traced.value_bind_of_eq (value_ofStr_of_covered coveredLeft)] at run
    have coveredRight : Covered N (rawBytes t) := by
      by_contra uncovered
      rw [ofStr, PrefixRep.ofStr_fault uncovered] at run
      cases run
    rw [Traced.value_bind_of_eq (value_ofStr_of_covered coveredRight)] at run
    refine ⟨coveredLeft, coveredRight, ?_⟩
    by_contra undecided
    rw [compare_fault_of_undecided coveredLeft coveredRight undecided] at run
    cases run
  · intro settled
    obtain ⟨r, run, -⟩ := value_compareStrs_of_settled settled
    exact ⟨r, run⟩

/-! ## Verdicts that depend on the characters alone -/

/-- Two comparisons both return, with one sign, and that sign is 0 exactly when
the compared characters are equal. -/
def SameVerdict (N : PrefixSize) (s₁ s₂ : σ) (t₁ t₂ : τ) (equal : Prop) : Prop :=
  ∃ r₁ r₂, (compareStrs N s₁ t₁).value = .ok r₁ ∧ (compareStrs N s₂ t₂).value = .ok r₂ ∧
    r₁.sign = r₂.sign ∧ (r₁.sign = 0 ↔ equal)

/-- The bytes at a raw string begin with the given ones. -/
def Owns (s : σ) (bytes : List UInt8) : Prop := ∃ rest, rawBytes s = bytes ++ rest

/-- What is settled by the first bytes of two raw strings has a verdict that no
byte behind them can change. -/
theorem value_compareStrs_of_owns {bytes bytes' : List UInt8} (hs : Owns s bytes)
    (ht : Owns t bytes') (settled : Settled N bytes bytes') :
    ∃ r, (compareStrs N s t).value = .ok r ∧ ComparesAs r (cString bytes) (cString bytes') := by
  obtain ⟨rest, hs⟩ := hs
  obtain ⟨rest', ht⟩ := ht
  have whole : Settled N (rawBytes s) (rawBytes t) := by
    rw [hs, ht]
    exact ⟨settled.coveredLeft.append rest, settled.coveredRight.append rest',
      settled.decided.append rest rest'⟩
  obtain ⟨r, run, ordered⟩ := value_compareStrs_of_settled whole
  rw [cstr, cstr, hs, ht] at ordered
  exact ⟨r, run, settled.decided.comparesAs_append ordered⟩

/-- The verdict on operands that own the given bytes is the same whatever follows
them, and right, exactly when the bytes settle it and agree up to a NUL only if
the operands are equal. `tight` and `tight'` are operands with nothing behind. -/
theorem verdict_iff_settled {bytes bytes' : List UInt8} {equal : Prop} {tight : σ} {tight' : τ}
    (htight : rawBytes tight = bytes) (htight' : rawBytes tight' = bytes')
    (same : equal → cString bytes = cString bytes') {P : σ → Prop} {Q : τ → Prop}
    (owned : ∀ s, P s → Owns s bytes) (owned' : ∀ t, Q t → Owns t bytes')
    (hP : P tight) (hQ : Q tight') :
    (∀ s₁ s₂ t₁ t₂, P s₁ → P s₂ → Q t₁ → Q t₂ → SameVerdict N s₁ s₂ t₁ t₂ equal) ↔
      Settled N bytes bytes' ∧ (cString bytes = cString bytes' → equal) := by
  constructor
  · intro verdict
    obtain ⟨r, -, run, -, -, zero⟩ := verdict tight tight tight' tight' hP hP hQ hQ
    have settled : Settled N bytes bytes' := by
      rw [← htight, ← htight']
      exact value_compareStrs_ok_iff.mp ⟨r, run⟩
    refine ⟨settled, fun agree => ?_⟩
    obtain ⟨r', run', ordered⟩ :=
      value_compareStrs_of_owns (owned _ hP) (owned' _ hQ) settled
    obtain rfl : r = r' := Except.ok.inj (run.symm.trans run')
    rw [← zero, Int.sign_eq_zero_iff_zero]
    exact ordered.eq_zero_iff.mpr agree
  · rintro ⟨settled, separated⟩ s₁ s₂ t₁ t₂ hs₁ hs₂ ht₁ ht₂
    obtain ⟨r₁, run₁, ordered₁⟩ :=
      value_compareStrs_of_owns (owned s₁ hs₁) (owned' t₁ ht₁) settled
    obtain ⟨r₂, run₂, ordered₂⟩ :=
      value_compareStrs_of_owns (owned s₂ hs₂) (owned' t₂ ht₂) settled
    refine ⟨r₁, r₂, run₁, run₂, ordered₁.sign_eq ordered₂, ?_⟩
    rw [Int.sign_eq_zero_iff_zero, ordered₁.eq_zero_iff]
    exact ⟨separated, same⟩

theorem owns_of_chars_eq {v : StringView} {x : List UInt8} (h : v.chars = x) : Owns v x :=
  ⟨_, h ▸ v.rawBytes_eq⟩

theorem owns_stdString {a : StdString} {y : List UInt8} (h : a.chars = y) : Owns a (y ++ [0]) :=
  ⟨[], by rw [rawBytes_stdString, h, List.append_nil]⟩

/-- When a keydomet of a view means its own characters. For characters `x` and `y`
of two views, or of a view and a `std::string`, all comparisons of operands with
these characters have one verdict, and it is right, if and only if the comparison
is settled inside the characters (a `std::string` owns its terminator as well) and
the operands do not merely agree up to a NUL. -/
theorem view_means_its_characters_iff (N : PrefixSize) (x y : List UInt8) :
    ((∀ v₁ v₂ w₁ w₂ : StringView, v₁.chars = x → v₂.chars = x → w₁.chars = y → w₂.chars = y →
        SameVerdict N v₁ v₂ w₁ w₂ (x = y)) ↔
      Settled N x y ∧ (cString x = cString y → x = y)) ∧
    ((∀ (v₁ v₂ : StringView) (b₁ b₂ : StdString), v₁.chars = x → v₂.chars = x →
        b₁.chars = y → b₂.chars = y → SameVerdict N v₁ v₂ b₁ b₂ (x = y)) ↔
      Settled N x (y ++ [0]) ∧ (cString x = cString (y ++ [0]) → x = y)) ∧
    ((∀ (a₁ a₂ : StdString) (w₁ w₂ : StringView), a₁.chars = x → a₂.chars = x →
        w₁.chars = y → w₂.chars = y → SameVerdict N a₁ a₂ w₁ w₂ (x = y)) ↔
      Settled N (x ++ [0]) y ∧ (cString (x ++ [0]) = cString y → x = y)) := by
  have tightView : ∀ z, rawBytes (StringView.ofChars z []) = z := fun z => by simp
  have viewChars : ∀ z, (StringView.ofChars z []).chars = z := fun z => by simp
  refine ⟨?_, ?_, ?_⟩
  · exact verdict_iff_settled (tightView x) (tightView y) (congrArg cString)
      (fun _ => owns_of_chars_eq) (fun _ => owns_of_chars_eq) (viewChars x) (viewChars y)
  · exact verdict_iff_settled (tightView x) (rawBytes_stdString ⟨y⟩) (fun h => by simp [h])
      (fun _ => owns_of_chars_eq) (fun _ => owns_stdString) (viewChars x) rfl
  · exact verdict_iff_settled (rawBytes_stdString ⟨x⟩) (tightView y) (fun h => by simp [h])
      (fun _ => owns_stdString) (fun _ => owns_of_chars_eq) rfl (viewChars y)

/-- The same two characters "ab", once in front of a 'c' and once in front of a
'd', both in terminated arrays: the keydomets of the two views are unequal. -/
theorem view_reads_behind_its_end :
    (StringView.ofChars [97, 98] [99, 0]).chars = (StringView.ofChars [97, 98] [100, 0]).chars ∧
      (compareStrs .size32bit (StringView.ofChars [97, 98] [99, 0])
        (StringView.ofChars [97, 98] [100, 0])).value = .ok (-1) ∧
      ¬ SameVerdict .size32bit (StringView.ofChars [97, 98] [99, 0])
        (StringView.ofChars [97, 98] [99, 0]) (StringView.ofChars [97, 98] [100, 0])
        (StringView.ofChars [97, 98] [100, 0]) ([97, 98] = ([97, 98] : List UInt8)) := by
  have run : (compareStrs .size32bit (StringView.ofChars [97, 98] [99, 0])
      (StringView.ofChars [97, 98] [100, 0])).value = .ok (-1) := by decide
  refine ⟨by decide, run, ?_⟩
  rintro ⟨r₁, r₂, run₁, -, -, zero⟩
  obtain rfl : r₁ = -1 := Except.ok.inj (run₁.symm.trans run)
  exact absurd (zero.mpr rfl) (by decide)

end Keydomet

end Kdmt

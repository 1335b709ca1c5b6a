import Keydomet.Lib.Order

/-!
# Construction and comparison stop at the terminators

Nothing the library does with a terminated string looks behind the terminator. The
fallback of `compare` jumps into both strings, although only the left prefix has been
tested; equal prefixes make the jump safe on the right as well, and the comparison
ends at a terminator at the latest.

`Effect.Within` bounds the reads of a log. That the bytes behind a terminator do not
matter is the equality of results in `value_compare_congr`.
-/

namespace Kdmt

open Foundation

variable {σ τ : Type} [StrImp σ] [StrImp τ] {N : PrefixSize}

/-- A read, if it is one, at one of the first positions of its operand. -/
def Effect.Within (readable : Operand → Nat) : Effect → Prop
  | .read operand position => position < readable operand
  | .increment _ _ => True

/-- What may be read of a single string: all of it, and the terminator. -/
def upToTerminator (s : σ) : Operand → Nat
  | .source => (cstr s).length + 1
  | .left | .right => 0

/-- What may be read of two compared strings. -/
def upToTerminators (s : σ) (t : τ) : Operand → Nat
  | .source => 0
  | .left => (cstr s).length + 1
  | .right => (cstr t).length + 1

/-- Two raw strings that differ only in the bytes behind their first NUL. -/
def SameUpToTerminator (s s' : σ) : Prop :=
  ∃ str rest rest', 0 ∉ str ∧ rawBytes s = str ++ 0 :: rest ∧ rawBytes s' = str ++ 0 :: rest'

namespace SameUpToTerminator

variable {s s' : σ}

theorem terminated (h : SameUpToTerminator s s') : Terminated s' := by
  obtain ⟨str, rest, rest', -, -, same⟩ := h
  rw [Terminated, same]
  simp

theorem cstr_eq (h : SameUpToTerminator s s') : cstr s' = cstr s := by
  obtain ⟨str, rest, rest', notMem, left, right⟩ := h
  rw [cstr, cstr, left, right, cString_append_zero_cons notMem, cString_append_zero_cons notMem]

end SameUpToTerminator

/-- The result of `strcmp` from an offset inside both strings depends on the strings alone. -/
theorem value_strcmpAt_congr {s s' : σ} {t t' : τ} {k : Nat} (hs : Terminated s)
    (ht : Terminated t) (hs' : Terminated s') (ht' : Terminated t')
    (left : cstr s' = cstr s) (right : cstr t' = cstr t)
    (inLeft : k ≤ (cstr s).length) (inRight : k ≤ (cstr t).length) :
    (strcmpAt k s' t').value = (strcmpAt k s t).value := by
  -- Both sides are the comparison of what is left of the strings and their terminators.
  have core : ∀ {v : σ} {w : τ}, Terminated v → Terminated w → cstr v = cstr s →
      cstr w = cstr t → (strcmpAt k v w).value =
        (strcmpFrom id id 0 0 ((cstr s).drop k ++ [0]) ((cstr t).drop k ++ [0])).value := by
    intro v w hv hw sameLeft sameRight
    obtain ⟨rest, hrest⟩ := exists_eq_cString_append hv
    obtain ⟨rest', hrest'⟩ := exists_eq_cString_append hw
    have dropLeft : (rawBytes v).drop k = ((cstr s).drop k ++ [0]) ++ rest := by
      rw [hrest, ← cstr, sameLeft, List.drop_append_of_le_length inLeft]
      simp
    have dropRight : (rawBytes w).drop k = ((cstr t).drop k ++ [0]) ++ rest' := by
      rw [hrest', ← cstr, sameRight, List.drop_append_of_le_length inRight]
      simp
    have decided : Decides ((cstr s).drop k ++ [0]) ((cstr t).drop k ++ [0]) :=
      decides_of_terminated (by simp) (by simp)
    rw [strcmpAt, strcmp, CharPtr.rest_add, CharPtr.rest_add, ← rawBytes, ← rawBytes, dropLeft,
      dropRight, strcmpFrom_append _ _ decided]
    exact value_strcmpFrom _ _ id id _ _ _ _ _ _
  rw [core hs' ht' left right, core hs ht rfl rfl]

namespace Keydomet

theorem sizeof_le_of_long {s : σ} {t : τ}
    (same : PrefixRep.encode N (cstr s) = PrefixRep.encode N (cstr t))
    (long : (PrefixRep.encode N (cstr s)).stringShorterThanPrefix = false) :
    N.sizeof ≤ (cstr s).length ∧ N.sizeof ≤ (cstr t).length := by
  obtain ⟨c, u, v, hc, hu, hv⟩ := exists_head_of_long same long
  simp [cstr, hu, hv, cString_cons_of_ne hc, PrefixSize.sizeof]

theorem ofStr_within {s : σ} (hs : Terminated s) :
    ∃ log, ofStr N s = .ok (mkValid N s) log ∧ ∀ e ∈ log, e.Within (upToTerminator s) := by
  refine ⟨_, ofStr_eq (.inl hs), ?_⟩
  intro e he
  obtain ⟨i, hi, rfl⟩ := List.mem_map.mp he
  have bound := List.mem_range.mp hi
  rw [copyReads] at bound
  exact Nat.lt_of_lt_of_le bound (Nat.min_le_right _ _)

/-- Each exit of `compare` reads both strings up to their terminators, at most. -/
theorem compare_within {s : σ} {t : τ} (hs : Terminated s) (ht : Terminated t) :
    ∃ r log, (mkValid N s).compare (mkValid N t) = .ok r log ∧
      ∀ e ∈ log, e.Within (upToTerminators s t) := by
  have silent : ∀ e ∈ [Effect.increment ⟨StrImp.id σ, N⟩ .usedPrefix],
      e.Within (upToTerminators s t) := by
    intro e he
    rw [List.mem_singleton.mp he]
    trivial
  by_cases same : (mkValid N s).prefixRep = (mkValid N t).prefixRep
  · cases short : (mkValid N s).prefixRep.stringShorterThanPrefix with
    | true => exact ⟨_, _, compare_of_short same short, silent⟩
    | false =>
        obtain ⟨r, run, -⟩ := compare_fallback (mkValid_valid N s) (mkValid_valid N t) same short
          (decides_of_terminated hs ht)
        obtain ⟨inLeft, inRight⟩ := sizeof_le_of_long same short
        have left := agreement_le_left (rawBytes s) (rawBytes t)
        have right := agreement_le_right (rawBytes s) (rawBytes t)
        rw [← cstr] at left right
        refine ⟨r, _, run, List.forall_mem_cons.mpr ⟨trivial, ?_⟩⟩
        intro e he
        obtain ⟨k, hk, rfl | rfl⟩ := mem_compareReads _ _ he
        · rw [mkValid_str, mkValid_str] at hk
          change 1 + k < (cstr s).length + 1
          rw [PrefixSize.sizeof] at inLeft
          omega
        · rw [mkValid_str, mkValid_str] at hk
          change 1 + k < (cstr t).length + 1
          rw [PrefixSize.sizeof] at inRight
          omega
  · exact ⟨_, _, compare_of_prefix_ne same, silent⟩

theorem value_compare_congr {s s' : σ} {t t' : τ} (hs : Terminated s) (ht : Terminated t)
    (left : SameUpToTerminator s s') (right : SameUpToTerminator t t') :
    ((mkValid N s').compare (mkValid N t')).value =
      ((mkValid N s).compare (mkValid N t)).value := by
  have prefixLeft : (mkValid N s').prefixRep = (mkValid N s).prefixRep :=
    congrArg (PrefixRep.encode N) left.cstr_eq
  have prefixRight : (mkValid N t').prefixRep = (mkValid N t).prefixRep :=
    congrArg (PrefixRep.encode N) right.cstr_eq
  by_cases same : (mkValid N s).prefixRep = (mkValid N t).prefixRep
  · have same' : (mkValid N s').prefixRep = (mkValid N t').prefixRep := by
      rw [prefixLeft, prefixRight, same]
    cases short : (mkValid N s).prefixRep.stringShorterThanPrefix with
    | true =>
        have short' := short
        rw [← prefixLeft] at short'
        rw [compare_of_short same short, compare_of_short same' short']
    | false =>
        have long' := short
        rw [← prefixLeft] at long'
        obtain ⟨inLeft, inRight⟩ := sizeof_le_of_long same short
        rw [compare_of_long same short, compare_of_long same' long', Traced.value_after,
          Traced.value_after]
        exact value_strcmpAt_congr hs ht left.terminated right.terminated left.cstr_eq
          right.cstr_eq inLeft inRight
  · have differ : (mkValid N s').prefixRep ≠ (mkValid N t').prefixRep := by
      rw [prefixLeft, prefixRight]
      exact same
    rw [compare_of_prefix_ne same, compare_of_prefix_ne differ, prefixLeft, prefixRight]

/-- Two keydomets built from terminated strings, and the results of comparing them in
either order: no read fails or goes behind a terminator, and other bytes behind the
terminators give the same prefixes and the same results. -/
structure StopsAtTerminators (N : PrefixSize) (s : σ) (t : τ) (a : Keydomet σ N)
    (b : Keydomet τ N) (r r' : Int) : Prop where
  builtLeft : ∃ log, ofStr N s = .ok a log ∧ ∀ e ∈ log, e.Within (upToTerminator s)
  builtRight : ∃ log, ofStr N t = .ok b log ∧ ∀ e ∈ log, e.Within (upToTerminator t)
  compared : ∃ log, a.compare b = .ok r log ∧ ∀ e ∈ log, e.Within (upToTerminators s t)
  reversed : ∃ log, b.compare a = .ok r' log ∧ ∀ e ∈ log, e.Within (upToTerminators t s)
  blind : ∀ s' t', SameUpToTerminator s s' → SameUpToTerminator t t' →
    ∃ a' b', (ofStr N s').value = .ok a' ∧ (ofStr N t').value = .ok b' ∧
      a'.prefixRep = a.prefixRep ∧ b'.prefixRep = b.prefixRep ∧
      (a'.compare b').value = .ok r ∧ (b'.compare a').value = .ok r'

/-- Construction and comparison never look past a terminator. -/
theorem stops_at_terminators (N : PrefixSize) (s : σ) (t : τ) (hs : Terminated s)
    (ht : Terminated t) : ∃ a b r r', StopsAtTerminators N s t a b r r' := by
  obtain ⟨r, log, run, reads⟩ := compare_within (N := N) hs ht
  obtain ⟨r', log', run', reads'⟩ := compare_within (N := N) ht hs
  refine ⟨mkValid N s, mkValid N t, r, r', ?_⟩
  refine ⟨ofStr_within hs, ofStr_within ht, ⟨log, run, reads⟩, ⟨log', run', reads'⟩, ?_⟩
  intro s' t' left right
  refine ⟨mkValid N s', mkValid N t', value_ofStr left.terminated, value_ofStr right.terminated,
    congrArg (PrefixRep.encode N) left.cstr_eq, congrArg (PrefixRep.encode N) right.cstr_eq, ?_, ?_⟩
  · rw [value_compare_congr hs ht left right, run, Traced.value_ok]
  · rw [value_compare_congr ht hs right left, run', Traced.value_ok]

/-- Two buffers with one filled prefix and bytes behind their terminators. -/
theorem stops_at_terminators_ab_abc :
    ∃ a b r r', StopsAtTerminators .size16bit (ConstCharPtr.mk [97, 98, 0, 7])
      (ConstCharPtr.mk [97, 98, 99, 0, 98]) a b r r' :=
  stops_at_terminators .size16bit _ _ (by decide) (by decide)

end Keydomet

end Kdmt

import Keydomet.Lib.Strings
import Mathlib.Data.Nat.Digits.Lemmas
import Mathlib.Data.Finset.Card

/-!
# Sequential keys

`get_seq_str` writes a sequence number in base 58, with the letters from 'A' to 'z' as
digits and the least significant digit first, and appends a run of '-'. The digits are
those of `Nat.digits`, and no digit is '-', so a key determines both its number and the
length of the run.
-/

namespace Kdmt.Bench

open Foundation

def firstChar : UInt8 := 65

def lastChar : UInt8 := 122

def charRange : Nat := lastChar.toNat - firstChar.toNat + 1

def digitChar (d : Nat) : UInt8 := UInt8.ofNat (firstChar.toNat + d)

/-- The filler '-'. -/
def fillerChar : UInt8 := 45

/-- The loop of `get_seq_str`. -/
def seqDigits (seq : Nat) : List UInt8 :=
  if 0 < seq then digitChar (seq % charRange) :: seqDigits (seq / charRange) else []
termination_by seq
decreasing_by exact Nat.div_lt_self ‹_› (by decide)

/-- `get_seq_str`. The argument `len` only reserves memory. -/
def getSeqStr (_len extraLen seq : Nat) : StdString :=
  let s := seqDigits seq
  if 0 < extraLen then ⟨s ++ List.replicate extraLen fillerChar⟩ else ⟨s⟩

theorem seqDigits_eq (seq : Nat) : seqDigits seq = (Nat.digits charRange seq).map digitChar := by
  induction seq using Nat.strong_induction_on with
  | h seq ih =>
      rw [seqDigits]
      by_cases pos : 0 < seq
      · rw [if_pos pos, ih _ (Nat.div_lt_self pos (by decide)),
          Nat.digits_def' (by decide) pos, List.map_cons]
      · obtain rfl : seq = 0 := by omega
        simp

theorem toNat_digitChar {d : Nat} (h : d < charRange) :
    (digitChar d).toNat = firstChar.toNat + d := by
  have bound : firstChar.toNat + d < 256 := Nat.lt_trans (Nat.add_lt_add_left h _) (by decide)
  rw [digitChar, UInt8.toNat_ofNat', Nat.mod_eq_of_lt bound]

theorem le_of_mem_seqDigits {seq : Nat} {c : UInt8} (h : c ∈ seqDigits seq) :
    firstChar.toNat ≤ c.toNat := by
  rw [seqDigits_eq] at h
  obtain ⟨d, hd, rfl⟩ := List.mem_map.mp h
  rw [toNat_digitChar (Nat.digits_lt_base (by decide) hd)]
  exact Nat.le_add_right _ _

theorem seqDigits_injective : Function.Injective seqDigits := by
  have decode : ∀ seq, (seqDigits seq).map (fun c => c.toNat - firstChar.toNat) =
      Nat.digits charRange seq := by
    intro seq
    rw [seqDigits_eq, List.map_map]
    conv_rhs => rw [← List.map_id (Nat.digits charRange seq)]
    refine List.map_congr_left fun d hd => ?_
    rw [Function.comp_apply, toNat_digitChar (Nat.digits_lt_base (by decide) hd),
      Nat.add_sub_cancel_left, id]
  intro a b same
  rw [← Nat.digits_inj_iff, ← decode, ← decode, same]

@[simp] theorem chars_getSeqStr (len extraLen seq : Nat) :
    (getSeqStr len extraLen seq).chars = seqDigits seq ++ List.replicate extraLen fillerChar := by
  rw [getSeqStr]
  by_cases pos : 0 < extraLen
  · rw [if_pos pos]
  · obtain rfl : extraLen = 0 := by omega
    simp

theorem fillerChar_notMem_seqDigits (seq : Nat) : fillerChar ∉ seqDigits seq := fun h =>
  absurd (le_of_mem_seqDigits h) (by decide)

theorem mem_chars_getSeqStr {len extraLen seq : Nat} {c : UInt8}
    (h : c ∈ (getSeqStr len extraLen seq).chars) :
    firstChar ≤ c ∧ c ≤ lastChar ∨ c = fillerChar := by
  rw [chars_getSeqStr, List.mem_append, seqDigits_eq] at h
  rcases h with inDigits | inFiller
  · left
    obtain ⟨d, hd, rfl⟩ := List.mem_map.mp inDigits
    have small : d < charRange := Nat.digits_lt_base (by decide) hd
    rw [UInt8.le_iff_toNat_le, UInt8.le_iff_toNat_le, toNat_digitChar small]
    have last : lastChar.toNat = firstChar.toNat + (charRange - 1) := rfl
    omega
  · exact .inr (List.eq_of_mem_replicate inFiller)

theorem nulFree_getSeqStr (len extraLen seq : Nat) : 0 ∉ (getSeqStr len extraLen seq).chars := by
  intro h
  rcases mem_chars_getSeqStr h with ⟨letter, -⟩ | filler
  · exact absurd letter (by decide)
  · exact absurd filler (by decide)

/-- A number below `58 ^ len` needs at most `len` letters. -/
theorem length_seqDigits_le_iff {len seq : Nat} :
    (seqDigits seq).length ≤ len ↔ seq < charRange ^ len := by
  rw [seqDigits_eq, List.length_map]
  exact Nat.digits_length_le_iff (by decide) seq

/-- A key determines the length of its filler. -/
theorem count_fillerChar (len extraLen seq : Nat) :
    (getSeqStr len extraLen seq).chars.count fillerChar = extraLen := by
  rw [chars_getSeqStr, List.count_append, List.count_replicate_self,
    List.count_eq_zero_of_not_mem (fillerChar_notMem_seqDigits seq), Nat.zero_add]

/-- A key determines the length of its filler and its number. -/
theorem eq_of_getSeqStr_eq {len₁ extraLen₁ seq₁ len₂ extraLen₂ seq₂ : Nat}
    (same : getSeqStr len₁ extraLen₁ seq₁ = getSeqStr len₂ extraLen₂ seq₂) :
    extraLen₁ = extraLen₂ ∧ seq₁ = seq₂ := by
  have filler : extraLen₁ = extraLen₂ := by
    rw [← count_fillerChar len₁ extraLen₁ seq₁, same, count_fillerChar]
  have chars := congrArg StdString.chars same
  rw [chars_getSeqStr, chars_getSeqStr, filler] at chars
  exact ⟨filler, seqDigits_injective (List.append_cancel_right chars)⟩

theorem getSeqStr_injective (len extraLen : Nat) : Function.Injective (getSeqStr len extraLen) :=
  fun _ _ same => (eq_of_getSeqStr_eq same).2

/-- Sequential keys are uniquely decodable: a key determines its number and the length of
its filler, consists of letters and fillers, and is not longer than announced. -/
theorem getSeqStr_decodable (len₁ extraLen₁ seq₁ len₂ extraLen₂ seq₂ : Nat) :
    (getSeqStr len₁ extraLen₁ seq₁ = getSeqStr len₂ extraLen₂ seq₂ →
      extraLen₁ = extraLen₂ ∧ seq₁ = seq₂) ∧
    (∀ c ∈ (getSeqStr len₁ extraLen₁ seq₁).chars,
      c ≠ 0 ∧ (firstChar ≤ c ∧ c ≤ lastChar ∨ c = fillerChar)) ∧
    (seq₁ < charRange ^ len₁ →
      (getSeqStr len₁ extraLen₁ seq₁).chars.length ≤ len₁ + extraLen₁) := by
  refine ⟨eq_of_getSeqStr_eq, fun c hc => ⟨?_, mem_chars_getSeqStr hc⟩, fun small => ?_⟩
  · rintro rfl
    exact nulFree_getSeqStr len₁ extraLen₁ seq₁ hc
  · rw [chars_getSeqStr, List.length_append, List.length_replicate]
    exact Nat.add_le_add_right (length_seqDigits_le_iff.mpr small) extraLen₁

/-- The first keys of a provider, as a set. -/
def seqKeys (len extraLen n : Nat) : Finset StdString :=
  (Finset.range n).image (getSeqStr len extraLen)

@[simp] theorem card_seqKeys (len extraLen n : Nat) : (seqKeys len extraLen n).card = n := by
  rw [seqKeys, Finset.card_image_of_injective _ (getSeqStr_injective len extraLen),
    Finset.card_range]

/-- Providers with different fillers share no key. -/
theorem seqKeys_inj {len len' extraLen extraLen' n : Nat} (pos : 0 < n)
    (same : seqKeys len extraLen n = seqKeys len' extraLen' n) : extraLen = extraLen' := by
  have first : getSeqStr len extraLen 0 ∈ seqKeys len' extraLen' n :=
    same ▸ Finset.mem_image_of_mem _ (Finset.mem_range.mpr pos)
  obtain ⟨seq, -, key⟩ := Finset.mem_image.mp first
  rw [← count_fillerChar len extraLen 0, ← key, count_fillerChar]

end Kdmt.Bench

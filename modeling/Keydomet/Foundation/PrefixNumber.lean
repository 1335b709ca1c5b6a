import Keydomet.Foundation.CString

/-!
# Fixed-width string prefixes as numbers

`prefixNumber n s` is the big-endian number spelled by the first `n` bytes of a
string, padded with zeros. For strings without NUL it is a monotone map into the
natural numbers: a smaller number means a smaller string, equal numbers mean equal
first `n` bytes, and the last digit tells whether the string fills the prefix.
-/

namespace Foundation

variable {n : Nat} {s t : List UInt8}

/-- The number spelled by the zero-padded first `n` bytes. -/
def prefixNumber (n : Nat) (s : List UInt8) : Nat := bigEndian (zeroPadded n s)

/-- The padding sorts before every byte of a string without NUL. -/
theorem zeroPadded_lt (hs : 0 ∉ s) (ht : 0 ∉ t) (h : zeroPadded n s < zeroPadded n t) :
    s < t := by
  induction n generalizing s t with
  | zero => simp at h
  | succ n ih =>
      cases s with
      | nil =>
          cases t with
          | nil => exact absurd h (lt_irrefl _)
          | cons b t => exact List.nil_lt_cons b t
      | cons a s =>
          cases t with
          | nil =>
              -- A byte below or equal to the padding would be a NUL.
              rw [zeroPadded_succ_cons, zeroPadded_nil, List.replicate_succ,
                List.cons_lt_cons_iff] at h
              rcases h with below | ⟨rfl, -⟩
              · exact absurd (UInt8.lt_iff_toNat_lt.mp below) (Nat.not_lt_zero _)
              · exact absurd List.mem_cons_self hs
          | cons b t =>
              rw [zeroPadded_succ_cons, zeroPadded_succ_cons, List.cons_lt_cons_iff] at h
              rw [List.cons_lt_cons_iff]
              exact h.imp id fun ⟨heads, tails⟩ => ⟨heads,
                ih (List.not_mem_of_not_mem_cons hs) (List.not_mem_of_not_mem_cons ht) tails⟩

/-- Padding loses nothing on strings without NUL: it shows where the string ends. -/
theorem zeroPadded_inj (hs : 0 ∉ s) (ht : 0 ∉ t) :
    zeroPadded n s = zeroPadded n t ↔ s.take n = t.take n := by
  induction n generalizing s t with
  | zero => simp
  | succ n ih =>
      cases s with
      | nil =>
          cases t with
          | nil => simp
          | cons b t =>
              have hb : 0 ≠ b := List.ne_of_not_mem_cons ht
              simp [List.replicate_succ, hb]
      | cons a s =>
          have ha : 0 ≠ a := List.ne_of_not_mem_cons hs
          cases t with
          | nil => simp [List.replicate_succ, ha.symm]
          | cons b t =>
              simp [ih (List.not_mem_of_not_mem_cons hs) (List.not_mem_of_not_mem_cons ht)]

theorem zeroPadded_succ_eq_concat (n : Nat) (s : List UInt8) :
    zeroPadded (n + 1) s = zeroPadded n s ++ [s[n]?.getD 0] := by
  induction n generalizing s with
  | zero => cases s <;> simp
  | succ n ih =>
      cases s with
      | nil => simp [List.replicate_succ' (n := n + 1)]
      | cons b s => simp [ih s]

theorem lt_of_prefixNumber_lt (hs : 0 ∉ s) (ht : 0 ∉ t)
    (h : prefixNumber n s < prefixNumber n t) : s < t :=
  zeroPadded_lt hs ht ((bigEndian_lt_iff (by simp)).mp h)

theorem prefixNumber_inj (hs : 0 ∉ s) (ht : 0 ∉ t) :
    prefixNumber n s = prefixNumber n t ↔ s.take n = t.take n := by
  rw [prefixNumber, prefixNumber, bigEndian_inj (by simp), zeroPadded_inj hs ht]

/-- The last digit is zero exactly when the string does not fill the prefix. -/
theorem prefixNumber_mod_eq_zero_iff (pos : 0 < n) (hs : 0 ∉ s) :
    prefixNumber n s % 256 = 0 ↔ s.length < n := by
  obtain ⟨m, rfl⟩ := Nat.exists_eq_succ_of_ne_zero (Nat.ne_of_gt pos)
  rw [prefixNumber, Nat.succ_eq_add_one, zeroPadded_succ_eq_concat, bigEndian_concat_mod]
  by_cases inside : m < s.length
  · have present : s[m] ≠ 0 := fun h => hs (h ▸ List.getElem_mem inside)
    have digit : s[m].toNat ≠ 0 := fun h => present (UInt8.toNat_inj.mp h)
    simp only [List.getElem?_eq_getElem inside, Option.getD_some, digit, false_iff]
    omega
  · simp only [List.getElem?_eq_none (Nat.le_of_not_lt inside), Option.getD_none]
    simpa using Nat.lt_succ_of_le (Nat.le_of_not_lt inside)

theorem eq_of_prefixNumber_eq (pos : 0 < n) (hs : 0 ∉ s) (ht : 0 ∉ t)
    (same : prefixNumber n s = prefixNumber n t) (short : prefixNumber n s % 256 = 0) :
    s = t := by
  have shortS : s.length < n := (prefixNumber_mod_eq_zero_iff pos hs).mp short
  have shortT : t.length < n := (prefixNumber_mod_eq_zero_iff pos ht).mp (same ▸ short)
  have first := (prefixNumber_inj hs ht).mp same
  rwa [List.take_of_length_le (Nat.le_of_lt shortS),
    List.take_of_length_le (Nat.le_of_lt shortT)] at first

end Foundation

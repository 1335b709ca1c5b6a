import Keydomet.Foundation.Run

/-!
# Memo tables

A machine that answers requests from a table of stored answers. An answer that passes a
check is returned as it is; otherwise an answer is computed and stored. The check may
accept less than correctness, and different computations may give different answers.

`run_outputs` is the rule for runs: the outputs are the entries of the last table. So equal
requests have equal answers, and every property that relates entries of a sound table
relates the outputs.
-/

namespace Foundation

variable {ρ ε σ ι β : Type}

/-- A table of answers in the states of a machine. -/
structure MemoTable (σ ι β : Type) where
  /-- The stored answer to a request. -/
  entry : σ → ι → β
  /-- The check that a stored answer passes. -/
  Complete : ι → β → Prop
  /-- The answers that a computation may give. -/
  Correct : ι → β → Prop
  /-- What the answers depend on besides the table. -/
  Inv : σ → Prop

namespace MemoTable

variable (T : MemoTable σ ι β)

/-- What an answered request does to the table. -/
structure Answered (s : σ) (i : ι) (s' : σ) : Prop where
  inv : T.Inv s'
  hit : T.Complete i (T.entry s i) → T.entry s' i = T.entry s i
  miss : ¬ T.Complete i (T.entry s i) →
    T.Complete i (T.entry s' i) ∧ T.Correct i (T.entry s' i)
  frame : ∀ j, j ≠ i → T.entry s' j = T.entry s j

/-- The machine answers admissible requests, and each with its entry. -/
def Implements (step : σ → ι → Traced ρ ε (β × σ)) (admissible : ι → Prop) : Prop :=
  ∀ s i, T.Inv s → admissible i →
    ∃ s', (step s i).value = .ok (T.entry s' i, s') ∧ T.Answered s i s'

/-- Answers that pass the check are correct. -/
structure Sound (s : σ) : Prop where
  inv : T.Inv s
  correct : ∀ i, T.Complete i (T.entry s i) → T.Correct i (T.entry s i)

variable {T}

namespace Answered

variable {s s' : σ} {i : ι}

theorem complete (h : T.Answered s i s') : T.Complete i (T.entry s' i) := by
  by_cases stored : T.Complete i (T.entry s i)
  · rwa [h.hit stored]
  · exact (h.miss stored).1

theorem keeps (h : T.Answered s i s') {j : ι} (stored : T.Complete j (T.entry s j)) :
    T.entry s' j = T.entry s j := by
  by_cases same : j = i
  · subst same
    exact h.hit stored
  · exact h.frame j same

theorem sound (h : T.Answered s i s') (sound : T.Sound s) : T.Sound s' := by
  refine ⟨h.inv, ?_⟩
  intro j complete
  by_cases stored : T.Complete j (T.entry s j)
  · rw [h.keeps stored]
    exact sound.correct j stored
  · by_cases same : j = i
    · subst same
      exact (h.miss stored).2
    · rw [h.frame j same] at complete
      exact absurd complete stored

end Answered

/-- Over every run of admissible requests, the outputs are the entries of the last table. -/
theorem Implements.run_outputs {step : σ → ι → Traced ρ ε (β × σ)} {admissible : ι → Prop}
    (h : T.Implements step admissible) {s : σ} (sound : T.Sound s) (inputs : List ι)
    (legal : ∀ i ∈ inputs, admissible i) :
    ∃ last, (Traced.run step s inputs).value = .ok (inputs.map (T.entry last), last) ∧
      T.Sound last ∧ (∀ i ∈ inputs, T.Complete i (T.entry last i)) ∧
      ∀ j, T.Complete j (T.entry s j) → T.entry last j = T.entry s j := by
  induction inputs generalizing s with
  | nil => exact ⟨s, rfl, sound, fun _ h => absurd h List.not_mem_nil, fun _ _ => rfl⟩
  | cons i inputs ih =>
      obtain ⟨s', first, answered⟩ := h s i sound.inv (legal i List.mem_cons_self)
      obtain ⟨last, rest, final, complete, keeps⟩ :=
        ih (answered.sound sound) fun j hj => legal j (List.mem_cons_of_mem i hj)
      have same : T.entry last i = T.entry s' i := keeps i answered.complete
      refine ⟨last, ?_, final, ?_, ?_⟩
      · rw [Traced.run, Traced.value_bind_of_eq first, Traced.value_bind_of_eq rest,
          List.map_cons, same]
        rfl
      · refine List.forall_mem_cons.mpr ⟨?_, complete⟩
        rw [same]
        exact answered.complete
      · intro j stored
        have step := answered.keeps stored
        rw [keeps j (by rwa [step]), step]

end MemoTable

end Foundation

import Keydomet.Foundation.Traced
import Mathlib.Data.List.Forall2

/-!
# Finite runs and their refinement

`run step s inputs` feeds a finite list of inputs to a stateful computation and
collects its outputs. A mathematical model of the same machine is an ordinary
function `σ → ι → β × σ`, with `modelRun` as its run. `run_refines` lifts a relation
between single steps to whole runs: the outputs are those of the model and the
final states are related. Two machines that refine one model therefore produce the
same outputs.

`run_explained` is the rule for outputs that the model leaves open: each output is explained by
the tables of the final state, which later steps only extend. There an input need only be
admissible at the state the model has reached (`Legal`).

`run_keeps` is the rule for an invariant of the states. `foldlM_simulates` is the rule of
refinement for a machine without outputs, whose states are the images of the model's states
under a function.
-/

namespace Foundation

namespace Traced

variable {ρ ε σ ι β α : Type}

/-- Feed a list of inputs to a stateful computation, collecting its outputs. -/
def run (step : σ → ι → Traced ρ ε (β × σ)) : σ → List ι → Traced ρ ε (List β × σ)
  | s, [] => pure ([], s)
  | s, input :: inputs => do
      let (output, next) ← step s input
      let (outputs, last) ← run step next inputs
      return (output :: outputs, last)

/-- The run of a mathematical model. -/
def modelRun (step : α → ι → β × α) : α → List ι → List β × α
  | a, [] => ([], a)
  | a, input :: inputs =>
      let rest := modelRun step (step a input).2 inputs
      ((step a input).1 :: rest.1, rest.2)

/-- A machine whose steps agree with a model, on related states and on admissible
inputs, agrees with it over every run of admissible inputs. -/
theorem run_refines {step : σ → ι → Traced ρ ε (β × σ)} {model : α → ι → β × α}
    {R : σ → α → Prop} {admissible : ι → Prop}
    (refines : ∀ s a input, R s a → admissible input →
      ∃ next, (step s input).value = .ok ((model a input).1, next) ∧ R next (model a input).2)
    {s : σ} {a : α} (related : R s a) (inputs : List ι)
    (legal : ∀ input ∈ inputs, admissible input) :
    ∃ last, (run step s inputs).value = .ok ((modelRun model a inputs).1, last) ∧
      R last (modelRun model a inputs).2 := by
  induction inputs generalizing s a with
  | nil => exact ⟨s, rfl, related⟩
  | cons input inputs ih =>
      obtain ⟨next, first, preserved⟩ :=
        refines s a input related (legal input List.mem_cons_self)
      obtain ⟨last, rest, final⟩ :=
        ih preserved fun i hi => legal i (List.mem_cons_of_mem input hi)
      refine ⟨last, ?_, final⟩
      rw [run, value_bind_of_eq first, value_bind_of_eq rest]
      rfl

/-- Each input is admissible at the state that the model reaches by the inputs before it. -/
def Legal (admissible : α → ι → Prop) (model : α → ι → β × α) : α → List ι → Prop
  | _, [] => True
  | a, input :: inputs =>
      admissible a input ∧ Legal admissible model (model a input).2 inputs

theorem legal_of_inv {admissible : α → ι → Prop} {model : α → ι → β × α} {Inv : α → Prop}
    {inputs : List ι}
    (step : ∀ a, Inv a → ∀ input ∈ inputs, admissible a input ∧ Inv (model a input).2)
    {a : α} (inv : Inv a) : Legal admissible model a inputs := by
  induction inputs generalizing a with
  | nil => trivial
  | cons input inputs ih =>
      obtain ⟨first, kept⟩ := step a inv input List.mem_cons_self
      exact ⟨first, ih (fun b hb i hi => step b hb i (List.mem_cons_of_mem input hi)) kept⟩

theorem modelRun_eq_map {model : α → ι → β × α} {Inv : α → Prop} {f : ι → β} {inputs : List ι}
    (step : ∀ a, Inv a → ∀ input ∈ inputs, (model a input).1 = f input ∧ Inv (model a input).2)
    {a : α} (inv : Inv a) : (modelRun model a inputs).1 = inputs.map f := by
  induction inputs generalizing a with
  | nil => rfl
  | cons input inputs ih =>
      obtain ⟨output, kept⟩ := step a inv input List.mem_cons_self
      have rest := ih (fun b hb i hi => step b hb i (List.mem_cons_of_mem input hi)) kept
      rw [modelRun, List.map_cons, output, rest]

theorem modelRun_map {κ : Type} (model : α → ι → β × α) (f : κ → ι) (a : α) (inputs : List κ) :
    modelRun model a (inputs.map f) = modelRun (fun a input => model a (f input)) a inputs := by
  induction inputs generalizing a with
  | nil => rfl
  | cons input inputs ih => rw [List.map_cons, modelRun, modelRun, ih]

/-- A machine whose states only become `later` explains all its outputs in its last state, if
each step explains its output in the next state and explanations stay valid. -/
theorem run_explained {γ : Type} {step : σ → ι → Traced ρ ε (β × σ)} {model : α → ι → γ × α}
    {R : σ → α → Prop} {admissible : α → ι → Prop} {later : σ → σ → Prop}
    {Explains : σ → γ → β → Prop}
    (explained : ∀ s a input, R s a → admissible a input →
      ∃ output next, (step s input).value = .ok (output, next) ∧ R next (model a input).2 ∧
        later s next ∧ Explains next (model a input).1 output)
    (refl : ∀ s, later s s) (trans : ∀ s t u, later s t → later t u → later s u)
    (stable : ∀ s t expected output, later s t → Explains s expected output →
      Explains t expected output)
    {s : σ} {a : α} (related : R s a) (inputs : List ι) (legal : Legal admissible model a inputs) :
    ∃ outputs last, (run step s inputs).value = .ok (outputs, last) ∧
      R last (modelRun model a inputs).2 ∧ later s last ∧
      List.Forall₂ (Explains last) (modelRun model a inputs).1 outputs := by
  induction inputs generalizing s a with
  | nil => exact ⟨[], s, rfl, related, refl s, .nil⟩
  | cons input inputs ih =>
      obtain ⟨output, next, first, preserved, extended, here⟩ :=
        explained s a input related legal.1
      obtain ⟨outputs, last, rest, final, extended', all⟩ := ih preserved legal.2
      refine ⟨output :: outputs, last, ?_, final, trans _ _ _ extended extended', ?_⟩
      · rw [run, value_bind_of_eq first, value_bind_of_eq rest]
        rfl
      · exact .cons (stable _ _ _ _ extended' here) all

/-- Steps that simulate a model through a function on states do so over every run, with the same
outputs and the same faults. -/
theorem run_simulates {step : σ → ι → Traced ρ ε (β × σ)} {model : α → ι → Except ρ (β × α)}
    {f : α → σ}
    (simulates : ∀ a input, (step (f a) input).value = Prod.map id f <$> model a input)
    (a : α) (inputs : List ι) :
    (run step (f a) inputs).value =
      Prod.map id f <$> (run (fun a input => ofExcept (model a input)) a inputs :
        Traced ρ ε (List β × α)).value := by
  induction inputs generalizing a with
  | nil => rfl
  | cons input inputs ih =>
      rw [run, run, value_bind, value_bind, simulates, value_ofExcept]
      cases model a input with
      | error reason => rfl
      | ok next =>
          obtain ⟨output, a'⟩ := next
          have rest := ih a'
          change (run step (f a') inputs >>= _).value =
            Prod.map id f <$> (run _ a' inputs >>= _).value
          rw [value_bind, value_bind, rest]
          cases (run (fun a input => ofExcept (model a input)) a' inputs :
            Traced ρ ε (List β × α)).value <;> rfl

theorem run_keeps {step : σ → ι → Traced ρ ε (β × σ)} {Inv : σ → Prop} {admissible : ι → Prop}
    (keeps : ∀ s input, Inv s → admissible input →
      ∃ output next, (step s input).value = .ok (output, next) ∧ Inv next)
    {s : σ} (inv : Inv s) (inputs : List ι) (legal : ∀ input ∈ inputs, admissible input) :
    ∃ outputs last, (run step s inputs).value = .ok (outputs, last) ∧ Inv last := by
  induction inputs generalizing s with
  | nil => exact ⟨[], s, rfl, inv⟩
  | cons input inputs ih =>
      obtain ⟨output, next, first, kept⟩ := keeps s input inv (legal input List.mem_cons_self)
      obtain ⟨outputs, last, rest, final⟩ :=
        ih kept fun i hi => legal i (List.mem_cons_of_mem input hi)
      refine ⟨output :: outputs, last, ?_, final⟩
      rw [run, value_bind_of_eq first, value_bind_of_eq rest]
      rfl

theorem run_cons_eq_ok {step : σ → ι → Traced ρ ε (β × σ)} {s last : σ} {input : ι}
    {inputs : List ι} {outputs : List β} {log : List ε} :
    run step s (input :: inputs) = .ok (outputs, last) log ↔
      ∃ output next rest first second, step s input = .ok (output, next) first ∧
        run step next inputs = .ok (rest, last) second ∧
        outputs = output :: rest ∧ log = first ++ second := by
  rw [run, bind_eq_ok]
  constructor
  · rintro ⟨⟨output, next⟩, first, tail, head, continued, rfl⟩
    obtain ⟨⟨rest, last'⟩, second, empty, ran, final, rfl⟩ := bind_eq_ok.mp continued
    cases final
    exact ⟨output, next, rest, first, second, head, ran, rfl, by rw [List.append_nil]⟩
  · rintro ⟨output, next, rest, first, second, head, ran, rfl, rfl⟩
    refine ⟨(output, next), first, second, head, bind_eq_ok.mpr ?_, rfl⟩
    exact ⟨(rest, last), second, [], ran, rfl, (List.append_nil _).symm⟩

theorem run_preserves {step : σ → ι → Traced ρ ε (β × σ)} {Inv : σ → Prop}
    (preserves : ∀ s input output next log, Inv s → step s input = .ok (output, next) log →
      Inv next)
    {s last : σ} (inv : Inv s) {inputs : List ι} {outputs : List β} {log : List ε}
    (ran : run step s inputs = .ok (outputs, last) log) : Inv last := by
  induction inputs generalizing s outputs log with
  | nil =>
      cases ran
      exact inv
  | cons input inputs ih =>
      obtain ⟨output, next, rest, first, second, head, tail, -, -⟩ := run_cons_eq_ok.mp ran
      exact ih (preserves s input output next first inv head) tail

theorem value_foldlM (step : σ → ι → Traced ρ ε σ) (s : σ) (inputs : List ι) :
    (inputs.foldlM step s).value = inputs.foldlM (fun s input => (step s input).value) s := by
  induction inputs generalizing s with
  | nil => rfl
  | cons input inputs ih =>
      rw [List.foldlM_cons, List.foldlM_cons, value_bind]
      exact congrArg _ (funext ih)

theorem foldlM_simulates {step : σ → ι → Traced ρ ε σ} {model : α → ι → Except ρ α}
    {f : α → σ} (simulates : ∀ a input, (step (f a) input).value = f <$> model a input)
    (a : α) (inputs : List ι) :
    (inputs.foldlM step (f a)).value = f <$> inputs.foldlM model a := by
  rw [value_foldlM]
  induction inputs generalizing a with
  | nil => rfl
  | cons input inputs ih =>
      rw [List.foldlM_cons, List.foldlM_cons, simulates]
      cases model a input with
      | error r => rfl
      | ok next => exact ih next

end Traced

end Foundation

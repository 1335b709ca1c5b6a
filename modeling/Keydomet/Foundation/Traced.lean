import Mathlib.Tactic.Common
import Mathlib.Data.List.Basic

/-!
# Computations that log their effects and may fault

A `Traced ρ ε α` either stops with a fault of type `ρ`, or returns a value
together with the list of effects it performed, in the order it performed them.
The effects are data: an account of what a run touched can be counted, filtered
and compared without a second, instrumented copy of the program.

`value` forgets the effects and is a monad morphism, so results can be proved by
rewriting alone. `Emits` and `Performs` are the corresponding rule sets for the
effects: every, or some, effect of a successful run satisfies a predicate.
-/

namespace Foundation

/-- A faulting computation with a log of its effects. The effects performed
before a fault are not observed. -/
inductive Traced (ρ ε α : Type) where
  | ok (result : α) (log : List ε)
  | fault (reason : ρ)
deriving DecidableEq, Repr

namespace Traced

variable {ρ ε α β : Type}

/-- Perform a single effect. -/
def emit (e : ε) : Traced ρ ε Unit := .ok () [e]

/-- Put already performed effects in front of a computation. -/
def after (log : List ε) : Traced ρ ε α → Traced ρ ε α
  | .ok a rest => .ok a (log ++ rest)
  | .fault r => .fault r

/-- The result of a computation, without its effects. -/
def value : Traced ρ ε α → Except ρ α
  | .ok a _ => .ok a
  | .fault r => .error r

/-- A computation without effects. -/
def ofExcept : Except ρ α → Traced ρ ε α
  | .ok a => .ok a []
  | .error r => .fault r

instance : Monad (Traced ρ ε) where
  pure a := .ok a []
  bind x f :=
    match x with
    | .ok a log => after log (f a)
    | .fault r => .fault r

@[simp] theorem after_ok (log rest : List ε) (a : α) :
    after log (.ok a rest : Traced ρ ε α) = .ok a (log ++ rest) := rfl

@[simp] theorem after_fault (log : List ε) (r : ρ) :
    after log (.fault r : Traced ρ ε α) = .fault r := rfl

@[simp] theorem after_nil (x : Traced ρ ε α) : after [] x = x := by
  cases x <;> rfl

@[simp] theorem after_after (first second : List ε) (x : Traced ρ ε α) :
    after first (after second x) = after (first ++ second) x := by
  cases x with
  | ok a log => simp only [after_ok, List.append_assoc]
  | fault r => rfl

@[simp] theorem pure_eq (a : α) : (pure a : Traced ρ ε α) = .ok a [] := rfl

@[simp] theorem ok_bind (a : α) (log : List ε) (f : α → Traced ρ ε β) :
    (Traced.ok a log >>= f) = after log (f a) := rfl

@[simp] theorem fault_bind (r : ρ) (f : α → Traced ρ ε β) :
    ((.fault r : Traced ρ ε α) >>= f) = .fault r := rfl

@[simp] theorem after_bind (log : List ε) (x : Traced ρ ε α) (f : α → Traced ρ ε β) :
    (after log x >>= f) = after log (x >>= f) := by
  cases x with
  | ok a rest => simp only [after_ok, ok_bind, after_after]
  | fault r => rfl

instance : LawfulMonad (Traced ρ ε) := LawfulMonad.mk' (Traced ρ ε)
  (by
    intro α x
    cases x with
    | ok a log => exact congrArg (Traced.ok a) (List.append_nil log)
    | fault r => rfl)
  (by intros; exact after_nil _)
  (by
    intro α β γ x f g
    cases x with
    | ok a log => exact after_bind log (f a) g
    | fault r => rfl)

@[simp] theorem map_ok (f : α → β) (a : α) (log : List ε) :
    f <$> (.ok a log : Traced ρ ε α) = .ok (f a) log := by
  rw [map_eq_pure_bind, ok_bind, pure_eq, after_ok, List.append_nil]

@[simp] theorem map_fault (f : α → β) (r : ρ) :
    f <$> (.fault r : Traced ρ ε α) = .fault r := rfl

theorem map_injective {f : α → β} (injective : Function.Injective f) :
    Function.Injective (f <$> · : Traced ρ ε α → Traced ρ ε β) := by
  intro x y same
  cases x <;> cases y <;> simp_all [injective.eq_iff]

/-- Inversion of a successful sequence: both parts succeed and their logs join. -/
theorem bind_eq_ok {x : Traced ρ ε α} {f : α → Traced ρ ε β} {b : β} {log : List ε} :
    (x >>= f) = .ok b log ↔
      ∃ a first second, x = .ok a first ∧ f a = .ok b second ∧ log = first ++ second := by
  cases x with
  | fault r => simp
  | ok a first =>
      rw [ok_bind]
      cases h : f a with
      | fault r => simp [h]
      | ok c second => simp [h, eq_comm]

theorem ofExcept_bind_eq_ok {x : Except ρ α} {f : α → Traced ρ ε β} {b : β} {log : List ε} :
    (ofExcept x >>= f) = .ok b log ↔ ∃ a, x = .ok a ∧ f a = .ok b log := by
  cases x with
  | error r => simp [ofExcept]
  | ok a => simp [ofExcept]

/-! ## Results without effects -/

@[simp] theorem value_ok (a : α) (log : List ε) :
    (.ok a log : Traced ρ ε α).value = .ok a := rfl

@[simp] theorem value_fault (r : ρ) : (.fault r : Traced ρ ε α).value = .error r := rfl

@[simp] theorem value_ofExcept (x : Except ρ α) : (ofExcept x : Traced ρ ε α).value = x := by
  cases x <;> rfl

@[simp] theorem value_after (log : List ε) (x : Traced ρ ε α) :
    (after log x).value = x.value := by
  cases x <;> rfl

@[simp] theorem value_bind (x : Traced ρ ε α) (f : α → Traced ρ ε β) :
    (x >>= f).value = x.value >>= fun a => (f a).value := by
  cases x with
  | ok a log => exact value_after log (f a)
  | fault r => rfl

@[simp] theorem value_map (f : α → β) (x : Traced ρ ε α) : (f <$> x).value = f <$> x.value := by
  cases x with
  | ok a log => rw [map_ok]; rfl
  | fault r => rw [map_fault]; rfl

theorem value_eq_ok {x : Traced ρ ε α} {a : α} : x.value = .ok a ↔ ∃ log, x = .ok a log := by
  cases x <;> simp

/-- There is one successful run, and what is shown of each is shown of it. -/
theorem exists_ok_forall {θ : Type} [Nonempty θ] {x : Traced ρ ε α} {P : θ → List ε → Prop}
    (h : ∀ i, ∃ a log, x = .ok a log ∧ P i log) : ∃ a log, x = .ok a log ∧ ∀ i, P i log := by
  obtain ⟨a, log, run, -⟩ := h (Classical.arbitrary θ)
  refine ⟨a, log, run, fun i => ?_⟩
  obtain ⟨a', log', run', holds⟩ := h i
  rw [run] at run'
  cases run'
  exact holds

/-- A computation whose first step returns `a` has the result of continuing at `a`. -/
theorem value_bind_of_eq {x : Traced ρ ε α} {a : α} (h : x.value = .ok a)
    (f : α → Traced ρ ε β) : (x >>= f).value = (f a).value := by
  rw [value_bind, h]
  rfl

theorem exists_value_of_map_eq {γ : Type} {x : Traced ρ ε α} {y : Traced ρ ε γ} {f : α → β}
    {g : γ → β} (same : f <$> x = g <$> y) {a : α} (run : x.value = .ok a) :
    ∃ c, y.value = .ok c ∧ g c = f a := by
  obtain ⟨log, rfl⟩ := value_eq_ok.mp run
  cases y with
  | fault r => cases same
  | ok c log' =>
      rw [map_ok, map_ok] at same
      exact ⟨c, rfl, (Traced.ok.inj same).1.symm⟩

/-- A test that returns, with the truth of a proposition as its result. -/
def Answers (x : Traced ρ ε Bool) (P : Prop) : Prop := ∃ r, x.value = .ok r ∧ (r = true ↔ P)

theorem answers_iff {x : Traced ρ ε Bool} {P : Prop} [Decidable P] :
    Answers x P ↔ x.value = .ok (decide P) := by
  constructor
  · rintro ⟨r, run, meaning⟩
    rw [run, Bool.eq_iff_iff.mpr (meaning.trans decide_eq_true_iff.symm)]
  · exact fun run => ⟨_, run, decide_eq_true_iff⟩

theorem Answers.value_of {x : Traced ρ ε Bool} {P : Prop} (h : x.Answers P) (holds : P) :
    x.value = .ok true := by
  obtain ⟨r, run, meaning⟩ := h
  rw [run, meaning.mpr holds]

theorem Answers.value_of_not {x : Traced ρ ε Bool} {P : Prop} (h : x.Answers P) (fails : ¬ P) :
    x.value = .ok false := by
  obtain ⟨r, run, meaning⟩ := h
  rw [run, Bool.eq_false_iff.mpr fun hr => fails (meaning.mp hr)]

theorem value_mapM_of_eq {f : α → Traced ρ ε β} {g : α → β} {l : List α}
    (h : ∀ a ∈ l, (f a).value = .ok (g a)) : (l.mapM f).value = .ok (l.map g) := by
  induction l with
  | nil => rfl
  | cons a l ih =>
      rw [List.mapM_cons, value_bind_of_eq (h a List.mem_cons_self),
        value_bind_of_eq (ih fun b hb => h b (List.mem_cons_of_mem a hb))]
      rfl

/-! ## Effects of successful runs -/

/-- Every effect of a successful run satisfies `P`. -/
def Emits (P : ε → Prop) (x : Traced ρ ε α) : Prop :=
  ∀ a log, x = .ok a log → ∀ e ∈ log, P e

namespace Emits

variable {P : ε → Prop} {x : Traced ρ ε α} {f : α → Traced ρ ε β}

theorem pure (a : α) : Emits P (Pure.pure a : Traced ρ ε α) := by
  intro b log h e he
  cases h
  exact absurd he List.not_mem_nil

theorem fault (r : ρ) : Emits P (.fault r : Traced ρ ε α) := by
  intro a log h
  cases h

theorem emit {e : ε} (h : P e) : Emits P (Traced.emit e : Traced ρ ε Unit) := by
  intro a log hx e' he
  cases hx
  exact List.mem_singleton.mp he ▸ h

/-- The second part of a sequence need only be considered at the result of the first. -/
theorem bind (first : Emits P x) (second : ∀ a, x.value = .ok a → Emits P (f a)) :
    Emits P (x >>= f) := by
  intro b log h e he
  obtain ⟨a, log₁, log₂, hx, hf, rfl⟩ := bind_eq_ok.mp h
  rcases List.mem_append.mp he with inFirst | inSecond
  · exact first a log₁ hx e inFirst
  · exact second a (value_eq_ok.mpr ⟨log₁, hx⟩) b log₂ hf e inSecond

theorem mono {Q : ε → Prop} (h : Emits P x) (weaker : ∀ e, P e → Q e) : Emits Q x :=
  fun a log hx e he => weaker e (h a log hx e he)

end Emits

/-- Every successful run has an effect that satisfies `P`. -/
def Performs (P : ε → Prop) (x : Traced ρ ε α) : Prop :=
  ∀ a log, x = .ok a log → ∃ e ∈ log, P e

namespace Performs

variable {P : ε → Prop} {x : Traced ρ ε α} {f : α → Traced ρ ε β}

theorem bind_left (first : Performs P x) (f : α → Traced ρ ε β) : Performs P (x >>= f) := by
  intro b log h
  obtain ⟨a, log₁, log₂, hx, -, rfl⟩ := bind_eq_ok.mp h
  obtain ⟨e, he, holds⟩ := first a log₁ hx
  exact ⟨e, List.mem_append_left _ he, holds⟩

theorem bind_right (second : ∀ a, x.value = .ok a → Performs P (f a)) :
    Performs P (x >>= f) := by
  intro b log h
  obtain ⟨a, log₁, log₂, hx, hf, rfl⟩ := bind_eq_ok.mp h
  obtain ⟨e, he, holds⟩ := second a (value_eq_ok.mpr ⟨log₁, hx⟩) b log₂ hf
  exact ⟨e, List.mem_append_right _ he, holds⟩

theorem mono {Q : ε → Prop} (h : Performs P x) (weaker : ∀ e, P e → Q e) : Performs Q x := by
  intro a log hx
  obtain ⟨e, he, holds⟩ := h a log hx
  exact ⟨e, he, weaker e holds⟩

end Performs

end Traced

end Foundation

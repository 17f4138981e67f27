import Mathlib.Data.List.Induction
import Mathlib.Tactic.Basic

/-!
# Runs

The states that a system reaches by steps each of which is allowed in the state it is taken in, and
the rule that an invariant of every such step holds after every run.
-/

namespace Alys.Lib

variable {σ ε : Type}

/-- `Run step allowed s t`: allowed steps lead from `s` to `t`. -/
inductive Run (step : ε → σ → σ) (allowed : σ → ε → Prop) (s : σ) : σ → Prop where
  | refl : Run step allowed s s
  | snoc {t : σ} (run : Run step allowed s t) (e : ε) (ok : allowed t e) :
    Run step allowed s (step e t)

variable {step : ε → σ → σ} {allowed : σ → ε → Prop}

/-- An invariant of every allowed step holds after every run. -/
lemma Run.invariant {I : σ → Prop} {s t : σ} (run : Run step allowed s t) (init : I s)
    (keep : ∀ t e, I t → allowed t e → I (step e t)) :
    I t := by
  induction run with
  | refl => exact init
  | snoc _ e ok ih => exact keep _ e ih ok

/-- A run is one under any condition that its steps meet. -/
lemma Run.mono {allowed allowed' : σ → ε → Prop} {s t : σ} (run : Run step allowed s t)
    (weaker : ∀ t e, allowed t e → allowed' t e) :
    Run step allowed' s t := by
  induction run with
  | refl => exact .refl
  | snoc _ e ok ih => exact .snoc ih e (weaker _ e ok)

/-- A list of events that are always allowed. -/
lemma Run.ofList {s : σ} {events : List ε} (ok : ∀ e ∈ events, ∀ t, allowed t e) :
    Run step allowed s (events.foldl (fun t e => step e t) s) := by
  induction events using List.reverseRecOn with
  | nil => exact .refl
  | append_singleton events e ih =>
    rw [List.foldl_append]
    refine .snoc (ih fun e' mem => ok e' (List.mem_append_left _ mem)) e (ok e ?_ _)
    exact List.mem_append_right _ (List.mem_singleton.mpr rfl)

section Family

variable {ι : Type} [DecidableEq ι] {step : ι → ε → σ → σ} {allowed : σ → ε → Prop}

/-- A step of one of several systems. -/
def familyStep (step : ι → ε → σ → σ) (e : ι × ε) (f : ι → σ) : ι → σ :=
  Function.update f e.1 (step e.1 e.2 (f e.1))

/-- A run of systems that do not interact is a run of each of them. -/
lemma Run.component {f g : ι → σ}
    (run : Run (familyStep step) (fun f e => allowed (f e.1) e.2) f g) (i : ι) :
    Run (step i) allowed (f i) (g i) := by
  induction run with
  | refl => exact .refl
  | @snoc g _ e ok ih =>
    rw [familyStep]
    by_cases same : i = e.1
    · subst same
      rw [Function.update_self]
      exact .snoc ih e.2 ok
    · rw [Function.update_of_ne same]
      exact ih

/-- An invariant of each of several systems, if a step of one keeps its own invariant as long as all
of them satisfy theirs. -/
lemma Run.family_invariant {allowed : (ι → σ) → ι × ε → Prop} {I : ι → σ → Prop} {f g : ι → σ}
    (run : Run (familyStep step) allowed f g) (init : ∀ i, I i (f i))
    (keep : ∀ g e, (∀ i, I i (g i)) → allowed g e → I e.1 (step e.1 e.2 (g e.1))) (i : ι) :
    I i (g i) := by
  refine run.invariant (I := fun g => ∀ i, I i (g i)) init (fun g e h ok i => ?_) i
  rw [familyStep]
  by_cases same : i = e.1
  · subst same
    rw [Function.update_self]
    exact keep g e h ok
  · rw [Function.update_of_ne same]
    exact h i

end Family

end Alys.Lib

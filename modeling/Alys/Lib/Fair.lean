import Mathlib.Tactic.Basic

/-!
# Fair runs

In an infinite run each state follows from the one before by an event. That some kind of event keeps
occurring is a premise about the run (`Often`), and the rules for `LeadsTo` derive from it what
eventually happens: a state of affairs that only one kind of event ends is ended, and what is handed
down through finitely many of them arrives.
-/

namespace Alys.Lib

variable {σ ε : Type} {step : ε → σ → σ}

/-- An infinite sequence of states and of the events between them. -/
structure Behavior (step : ε → σ → σ) where
  state : Nat → σ
  event : Nat → ε
  next : ∀ n, state (n + 1) = step (event n) (state n)

namespace Behavior

/-- The behavior from a state under given events. -/
def ofEvents (step : ε → σ → σ) (s : σ) (event : Nat → ε) : Behavior step where
  state n := n.rec s fun n t => step (event n) t
  event
  next _ := rfl

/-- Events of a kind occur again and again. -/
def Often (B : Behavior step) (K : ε → Prop) : Prop := ∀ n, ∃ m, n ≤ m ∧ K (B.event m)

/-- From a state with `P` the behavior comes to one with `Q`. -/
def LeadsTo (B : Behavior step) (P Q : σ → Prop) : Prop :=
  ∀ n, P (B.state n) → ∃ m, n ≤ m ∧ Q (B.state m)

variable {B : Behavior step} {K : ε → Prop} {P Q R : σ → Prop}

/-- What every event keeps holds from some time on. -/
lemma stable {n m : Nat} (hP : P (B.state n)) (keep : ∀ e s, P s → P (step e s)) (le : n ≤ m) :
    P (B.state m) := by
  induction le with
  | refl => exact hP
  | step _ ih =>
    rw [Nat.succ_eq_add_one, B.next]
    exact keep _ _ ih

namespace LeadsTo

lemma trans (hPQ : B.LeadsTo P Q) (hQR : B.LeadsTo Q R) : B.LeadsTo P R := by
  intro n hn
  obtain ⟨m, hm, hQ⟩ := hPQ n hn
  obtain ⟨k, hk, hR⟩ := hQR m hQ
  exact ⟨k, Nat.le_trans hm hk, hR⟩

/-- Only events of a kind that keeps occurring end `P`, and they establish `Q`. -/
lemma of_often (often : B.Often K) (keep : ∀ e s, ¬ K e → P s → P (step e s))
    (hit : ∀ e s, K e → P s → Q (step e s)) : B.LeadsTo P Q := by
  intro n hn
  obtain ⟨m, hm, hK⟩ := often n
  -- up to the event of the kind, `P` holds or `Q` was established
  have before : ∀ k, n ≤ k → P (B.state k) ∨ ∃ l, n ≤ l ∧ Q (B.state l) := by
    intro k hk
    induction hk with
    | refl => exact .inl hn
    | @step k hk ih =>
      obtain hP | hQ := ih
      · rw [Nat.succ_eq_add_one, B.next]
        by_cases h : K (B.event k)
        · exact .inr ⟨k + 1, Nat.le_trans hk k.le_succ, by rw [B.next]; exact hit _ _ h hP⟩
        · exact .inl (keep _ _ h hP)
      · exact .inr hQ
  obtain hP | hQ := before m hm
  · exact ⟨m + 1, Nat.le_trans hm m.le_succ, by rw [B.next]; exact hit _ _ hK hP⟩
  · exact hQ

/-- What is handed down to the next lower number arrives. -/
lemma countdown {P : Nat → σ → Prop} (zero : B.LeadsTo (P 0) Q)
    (succ : ∀ k, B.LeadsTo (P (k + 1)) (P k)) (k : Nat) : B.LeadsTo (P k) Q := by
  induction k with
  | zero => exact zero
  | succ k ih => exact (succ k).trans ih

end LeadsTo

end Behavior

end Alys.Lib

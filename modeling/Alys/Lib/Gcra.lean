import Mathlib.Algebra.BigOperators.Ring.List
import Mathlib.Algebra.Order.Group.Nat
import Mathlib.Algebra.Ring.Nat
import Mathlib.Data.List.Basic

/-!
# The generic cell rate algorithm

A meter of batches that arrive over time, each of which costs some time. It keeps the theoretical
arrival time of the next batch: a batch is accepted if it comes at most `tau` before that time,
and moves it on by its cost. The cost of what is accepted within a period is then at most the length
of the period and `tau` (`Metered.bounded`).

A meter whose arrival time has passed may be dropped and started again at the time of the next
batch (`Metered.forget`, `Metered.start`), and no answer shows whether it was (`arrive_of_le`).
-/

namespace Alys.Lib.Gcra

variable {tau now now' cost tat tat' : Nat} {log : List (Nat × Nat)}

/-- The answer to a batch: how long it comes too soon, or the next arrival time. -/
def arrive (tau now cost tat : Nat) : Except Nat Nat :=
  if now < tat + cost - tau then .error (tat + cost - tau - now) else .ok (max now tat + cost)

/-- A meter whose arrival time has passed accepts every batch that it could ever accept. -/
lemma arrive_of_le (le : tat ≤ now) (hcost : cost ≤ tau) :
    arrive tau now cost tat = .ok (now + cost) := by
  rw [arrive, if_neg (by omega), Nat.max_eq_left le]

lemma arrive_ok (e : arrive tau now cost tat = .ok tat') :
    tat + cost ≤ now + tau ∧ tat' = max now tat + cost := by
  unfold arrive at e
  split at e
  case isTrue => cases e
  case isFalse h =>
    cases e
    exact ⟨by omega, rfl⟩

/-- The cost of the accepted batches of a period; `log` holds their times and costs. -/
def spent (period : Nat → Prop) [DecidablePred period] (log : List (Nat × Nat)) : Nat :=
  ((log.filter (period ·.1)).map (·.2)).sum

section
variable {period period' : Nat → Prop} [DecidablePred period] [DecidablePred period']

lemma spent_concat {x : Nat × Nat} :
    spent period (log ++ [x]) = spent period log + if period x.1 then x.2 else 0 := by
  unfold spent
  split
  case isTrue h => simp [h]
  case isFalse h => simp [h]

lemma spent_congr (h : ∀ x ∈ log, period x.1 ↔ period' x.1) :
    spent period log = spent period' log := by
  unfold spent
  rw [List.filter_congr fun x mem => decide_eq_decide.mpr (h x mem)]

lemma spent_eq_zero (h : ∀ x ∈ log, ¬ period x.1) : spent period log = 0 := by
  unfold spent
  rw [List.filter_eq_nil_iff.mpr fun x mem => by simpa using h x mem]
  rfl

lemma spent_map_mul {c : Nat} :
    spent period (log.map fun x => (x.1, c * x.2)) = c * spent period log := by
  unfold spent
  rw [List.filter_map, List.map_map]
  exact List.sum_map_mul_left _ _ _

end

/-- What holds of a meter at a time, after the batches in `log`: the arrival time is ahead of every
batch by what was accepted since, and no period accepted more than it may. -/
structure Metered (tau : Nat) (log : List (Nat × Nat)) (now : Nat) (tat : Option Nat) : Prop where
  past : ∀ x ∈ log, x.1 ≤ now
  ahead : ∀ x ∈ log, ∀ s, s ≤ x.1 → s + spent (s ≤ ·) log ≤ tat.getD now
  bounded : ∀ s w, spent (fun time => s ≤ time ∧ time ≤ s + w) log ≤ tau + w

namespace Metered

lemma nil {tat : Option Nat} : Metered tau [] now tat where
  past := nofun
  ahead := nofun
  bounded := fun _ _ => Nat.zero_le _

/-- Time passes. -/
lemma wait {tat : Option Nat} (h : Metered tau log now tat) (le : now ≤ now') :
    Metered tau log now' tat where
  past := fun x mem => (h.past x mem).trans le
  ahead := by
    intro x mem s hs
    have := h.ahead x mem s hs
    cases tat with
    | none => exact this.trans le
    | some tat => exact this
  bounded := h.bounded

/-- A meter whose arrival time has passed may be dropped. -/
lemma forget (h : Metered tau log now (some tat)) (le : tat ≤ now) : Metered tau log now none where
  past := h.past
  ahead := fun x mem s hs => (h.ahead x mem s hs).trans le
  bounded := h.bounded

/-- A dropped meter starts again at the time of the next batch. -/
lemma start {tat : Option Nat} (h : Metered tau log now tat) :
    Metered tau log now (some (tat.getD now)) :=
  ⟨h.past, h.ahead, h.bounded⟩

/-- The arrival time after an accepted batch is ahead of every period that the batch lies in. -/
lemma ahead_concat (h : Metered tau log now (some tat)) {s : Nat} (hs : s ≤ now) :
    s + spent (s ≤ ·) (log ++ [(now, cost)]) ≤ max now tat + cost := by
  rw [spent_concat, if_pos hs]
  by_cases hlog : ∃ x ∈ log, s ≤ x.1
  · obtain ⟨x, mem, hx⟩ := hlog
    have := h.ahead x mem s hx
    simp only [Option.getD_some] at this
    omega
  · rw [spent_eq_zero fun x mem hx => hlog ⟨x, mem, hx⟩]
    omega

/-- A batch that is accepted. -/
lemma accept (h : Metered tau log now (some tat)) (hcost : cost ≤ tau)
    (e : arrive tau now cost tat = .ok tat') :
    Metered tau (log ++ [(now, cost)]) now (some tat') := by
  obtain ⟨hroom, rfl⟩ := arrive_ok e
  have hpast : ∀ x ∈ log ++ [(now, cost)], x.1 ≤ now := by
    intro x mem
    rcases List.mem_append.mp mem with mem | mem
    · exact h.past x mem
    · exact (congrArg Prod.fst (List.mem_singleton.mp mem)).le
  refine ⟨hpast, fun x mem s hs => h.ahead_concat (hs.trans (hpast x mem)), fun s w => ?_⟩
  by_cases hnow : s ≤ now ∧ now ≤ s + w
  · -- all that was accepted since the start of the period lies in it
    have hall : spent (fun time => s ≤ time ∧ time ≤ s + w) (log ++ [(now, cost)]) =
        spent (s ≤ ·) (log ++ [(now, cost)]) := by
      refine spent_congr fun x mem => and_iff_left ?_
      exact (hpast x mem).trans hnow.2
    have hahead : s + spent (s ≤ ·) (log ++ [(now, cost)]) ≤ max now tat + cost :=
      h.ahead_concat hnow.1
    rw [hall]
    omega
  · rw [spent_concat, if_neg hnow]
    exact h.bounded s w

end Metered

end Alys.Lib.Gcra

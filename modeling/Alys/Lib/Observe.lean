import Mathlib.Data.List.Basic

/-!
# Loops over keys

A loop whose iterations each act on one key. What is seen of one key after the loop is what the
iterations for that key do.
-/

namespace Alys.Lib

variable {σ ε K O : Type} {step : σ → ε → σ} {key : ε → K} {k : K} {obs : σ → O}
  {act : O → ε → O}

lemma obs_foldl [DecidableEq K] (other : ∀ s e, key e ≠ k → obs (step s e) = obs s)
    (own : ∀ s e, key e = k → obs (step s e) = act (obs s) e) (l : List ε) (s : σ) :
    obs (l.foldl step s) = (l.filter fun e => key e = k).foldl act (obs s) := by
  induction l generalizing s with
  | nil => rfl
  | cons e l ih =>
    rw [List.foldl_cons, ih, List.filter_cons]
    by_cases h : key e = k
    · rw [own s e h, if_pos (decide_eq_true h), List.foldl_cons]
    · rw [other s e h, if_neg (by rw [decide_eq_false h]; exact Bool.false_ne_true)]

/-- What no iteration changes stays as it is. -/
lemma obs_foldl_of_same (same : ∀ s e, obs (step s e) = obs s) (l : List ε) (s : σ) :
    obs (l.foldl step s) = obs s := by
  induction l generalizing s with
  | nil => rfl
  | cons e l ih => exact (ih _).trans (same s e)

/-- A list without repetitions has one place at most for a key. -/
lemma filter_eq_of_nodup [DecidableEq K] {l : List K} (nodup : l.Nodup) (k : K) :
    (l.filter fun k' => k' = k) = if k ∈ l then [k] else [] := by
  have hcount := nodup.count (a := k)
  have hfilter : (l.filter fun k' => k' = k) = List.replicate (l.count k) k := by
    rw [← List.filter_beq]
    rfl
  rw [hfilter, hcount]
  split <;> rfl

end Alys.Lib

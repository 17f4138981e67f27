import Alys.Lib.Action

/-!
# Calls that take effect or fail

A call is atomic with respect to a part of the state if the errors that it returns leave that part
as it was. A call that does every check before its first write is: the rules for `Atomic` go through
the checks, and what follows has to end without an error of the kind in question (`Completes`).
-/

namespace Alys.Lib.Action

variable {σ τ υ ε δ α β : Type} {bad : ε → Prop} {I J K : σ → Prop}

/-- From a state with `I` the action ends with a value and a state with `J`, or with an error that
is not `bad`. -/
def Completes (bad : ε → Prop) (I : σ → Prop) (x : Action σ ε α) (J : σ → Prop) : Prop :=
  ∀ s, I s →
    match x s with
    | (.ok _, s') => J s'
    | (.error e, _) => ¬ bad e

namespace Completes

lemma pure {a : α} (h : ∀ s, I s → J s) : Completes bad I (Pure.pure a : Action σ ε α) J := h

lemma modify {f : σ → σ} (h : ∀ s, I s → J (f s)) :
    Completes bad I (Action.modify f : Action σ ε Unit) J := h

lemma fail {e : ε} (h : ¬ bad e) : Completes bad I (Action.fail e : Action σ ε α) J := fun _ _ => h

lemma get_bind {f : σ → Action σ ε α} (h : ∀ s, Completes bad I (f s) J) :
    Completes bad I (Action.get >>= f) J :=
  fun s hs => h s s hs

lemma lift_bind {r : Except ε α} {f : α → Action σ ε β} (herr : ∀ e, r = .error e → ¬ bad e)
    (hok : ∀ a, r = .ok a → Completes bad I (f a) J) : Completes bad I (Action.lift r >>= f) J := by
  cases r with
  | error e => exact fun _ _ => herr e rfl
  | ok a => exact hok a rfl

lemma bind {x : Action σ ε α} {y : α → Action σ ε β} (hx : Completes bad I x J)
    (hy : ∀ a, Completes bad J (y a) K) : Completes bad I (x >>= y) K := by
  intro s hs
  have hmid := hx s hs
  rw [bind_apply]
  rcases hr : x s with ⟨e | a, s'⟩
  · rw [hr] at hmid
    exact hmid
  · rw [hr] at hmid
    exact hy a s' hmid

lemma forEach {f : α → Action σ ε Unit} {l : List α} (h : ∀ a ∈ l, Completes bad I (f a) I) :
    Completes bad I (Action.forEach l f) I := by
  induction l with
  | nil => exact pure fun _ hs => hs
  | cons a l ih =>
    exact bind (h a List.mem_cons_self) fun _ => ih fun b mem => h b (List.mem_cons_of_mem a mem)

lemma zoom {view : σ → τ} {put : τ → σ → σ} {err : δ → ε} {y : Action τ δ α}
    (hput : ∀ s t, I s → J (put t s)) (herr : ∀ e, ¬ bad (err e)) :
    Completes bad I (Action.zoom view put err y) J := by
  intro s hs
  rw [Action.zoom]
  rcases y (view s) with ⟨_ | a, t⟩
  · exact herr _
  · exact hput s t hs

end Completes

/-- From a state with `I` the action leaves the part `view` of the state if it ends with an error
that is `bad`. -/
def Atomic (bad : ε → Prop) (view : σ → υ) (I : σ → Prop) (x : Action σ ε α) : Prop :=
  ∀ s, I s → ∀ e, (x s).1 = .error e → bad e → view (x s).2 = view s

namespace Atomic

variable {view : σ → υ} {x : Action σ ε α}

lemma of_completes (h : Completes bad I x J) : Atomic bad view I x := by
  intro s hs e he hbad
  have hend := h s hs
  split at hend
  case h_1 a s' e' =>
    rw [e'] at he
    cases he
  case h_2 e₁ s' e' =>
    rw [e'] at he
    cases he
    exact absurd hbad hend

lemma get_bind {f : σ → Action σ ε α} (h : ∀ s, I s → Atomic bad view (· = s) (f s)) :
    Atomic bad view I (Action.get >>= f) :=
  fun s hs => h s hs s rfl

lemma lift_bind {r : Except ε α} {f : α → Action σ ε β}
    (h : ∀ a, r = .ok a → Atomic bad view I (f a)) :
    Atomic bad view I (Action.lift r >>= f) := by
  cases r with
  | error e => exact fun _ _ _ _ _ => rfl
  | ok a => exact h a rfl

/-- What comes before does not touch the part, whatever it ends with. -/
lemma bind {y : α → Action σ ε β} (hx : ∀ s, I s → view (x s).2 = view s)
    (hok : ∀ s a s', I s → x s = (.ok a, s') → J s') (hy : ∀ a, Atomic bad view J (y a)) :
    Atomic bad view I (x >>= y) := by
  intro s hs e he hbad
  have hview := hx s hs
  rw [bind_apply] at he ⊢
  rcases hr : x s with ⟨_ | a, s'⟩
  · rw [hr] at hview
    exact hview
  · rw [hr] at he hview
    rw [← hview]
    exact hy a s' (hok s a s' hs hr) e he hbad

lemma bind_pure {f : α → β} (hx : Atomic bad view I x) :
    Atomic bad view I (x >>= fun a => Pure.pure (f a)) := by
  intro s hs e he hbad
  have herr := hx s hs e
  rw [bind_apply] at he ⊢
  rcases hr : x s with ⟨_ | a, s'⟩
  · rw [hr] at he herr
    cases he
    exact herr rfl hbad
  · rw [hr] at he
    cases he

end Atomic

end Alys.Lib.Action

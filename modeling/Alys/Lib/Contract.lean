import Alys.Lib.Action

/-!
# Contracts of actions that can crash

What an action may do to a state, as a relation between the state before it and the state after it.
Some errors are fatal: the program stops at once, in the middle of an update. For these a second,
weaker relation is required. The first one is a preorder, so that actions compose.
-/

namespace Alys.Lib

/-- The relation that an action establishes, and the one that is left after a fatal error. -/
structure Contract (σ ε : Type) where
  ends : σ → σ → Prop
  fatal : ε → Prop
  crashes : σ → σ → Prop
  refl : ∀ s, ends s s
  trans : ∀ {s t u}, ends s t → ends t u → ends s u
  crash : ∀ {s t u}, ends s t → crashes t u → crashes s u

namespace Action

variable {σ τ ε δ α β : Type} {K : Contract σ ε}

/-- However the action ends, it does what the contract says. -/
def Meets (K : Contract σ ε) (x : Action σ ε α) : Prop :=
  ∀ s, K.ends s (x s).2 ∨ (∃ e, (x s).1 = .error e ∧ K.fatal e) ∧ K.crashes s (x s).2

namespace Meets

lemma pure {a : α} : Meets K (Pure.pure a : Action σ ε α) := fun s => .inl (K.refl s)

lemma get : Meets K (Action.get : Action σ ε σ) := fun s => .inl (K.refl s)

lemma lift {r : Except ε α} : Meets K (Action.lift r : Action σ ε α) := fun s => .inl (K.refl s)

lemma fail {e : ε} : Meets K (Action.fail e : Action σ ε α) := fun s => .inl (K.refl s)

lemma modify {f : σ → σ} (h : ∀ s, K.ends s (f s)) : Meets K (Action.modify f : Action σ ε Unit) :=
  fun s => .inl (h s)

lemma bind {x : Action σ ε α} {y : α → Action σ ε β} (hx : Meets K x) (hy : ∀ a, Meets K (y a)) :
    Meets K (x >>= y) := by
  intro s
  have hmid := hx s
  rw [bind_apply]
  rcases hs : x s with ⟨e | a, t⟩
  · simpa only [hs, Except.error.injEq, exists_eq_left'] using hmid
  · simp only [hs, reduceCtorEq, false_and, exists_false, or_false] at hmid
    rcases hy a t with hend | ⟨hfatal, hcrash⟩
    · exact .inl (K.trans hmid hend)
    · exact .inr ⟨hfatal, K.crash hmid hcrash⟩

lemma ite {p : Prop} [Decidable p] {x y : Action σ ε α} (hx : Meets K x) (hy : Meets K y) :
    Meets K (if p then x else y) := by
  split
  · exact hx
  · exact hy

lemma forEach {f : α → Action σ ε Unit} {l : List α} (h : ∀ a ∈ l, Meets K (f a)) :
    Meets K (Action.forEach l f) := by
  induction l with
  | nil => exact pure
  | cons a l ih =>
    exact bind (h a List.mem_cons_self) fun _ => ih fun b mem => h b (List.mem_cons_of_mem a mem)

lemma zoom {view : σ → τ} {put : τ → σ → σ} {err : δ → ε} {y : Action τ δ α}
    (h : ∀ s, K.ends s (put (y (view s)).2 s)) : Meets K (Action.zoom view put err y) :=
  fun s => .inl (h s)

end Meets

end Action

end Alys.Lib

import Mathlib.Tactic.Basic

/-!
# Stateful actions that can fail

A call that reads and writes a state and ends with a value or an error is a function from the state
to both. Unlike in `StateT σ (Except ε)`, what was written before an error stays written, as it does
in a language with mutable state and error values.

`Triple Pre x Post Err` is the usual triple, with a second postcondition for the case that the
action ends with an error. The rules follow the structure of the program: one for each primitive,
one for sequencing, one for a branch and one for a loop over a list, whose invariant is indexed by
the elements already handled.
-/

namespace Alys.Lib

lemma bind_eq_ok_iff {ε α β : Type} {x : Except ε α} {f : α → Except ε β} {b : β} :
    (x >>= f) = .ok b ↔ ∃ a, x = .ok a ∧ f a = .ok b := by
  cases x <;> simp [bind, Except.bind]

/-- A check at the start of a computation. -/
lemma guard_eq_ok_iff {ε β : Type} {c : Prop} [Decidable c] {e : ε} {f : Unit → Except ε β}
    {b : β} :
    (if c then throw e >>= f else f ()) = .ok b ↔ ¬ c ∧ f () = .ok b := by
  by_cases h : c
  · rw [if_pos h]
    exact ⟨nofun, fun h' => absurd h h'.1⟩
  · rw [if_neg h, and_iff_right h]

@[simp] lemma throw_eq_error {ε α : Type} {e : ε} : (throw e : Except ε α) = .error e := rfl

@[simp] lemma mapError_ok {ε δ α : Type} {f : ε → δ} {a : α} :
    (Except.ok a : Except ε α).mapError f = .ok a := rfl

@[simp] lemma mapError_error {ε δ α : Type} {f : ε → δ} {e : ε} :
    (Except.error e : Except ε α).mapError f = .error (f e) := rfl

/-- An action on the state `σ` that ends with a value of `α` or an error of `ε`. -/
def Action (σ ε α : Type) : Type := σ → Except ε α × σ

namespace Action

variable {σ τ ε δ α β : Type}

instance : Monad (Action σ ε) where
  pure a := fun s => (.ok a, s)
  bind x f := fun s =>
    match x s with
    | (.ok a, s') => f a s'
    | (.error e, s') => (.error e, s')

/-- Ends with an error. -/
def fail (e : ε) : Action σ ε α := fun s => (.error e, s)

/-- Reads the state. -/
def get : Action σ ε σ := fun s => (.ok s, s)

/-- Updates the state. -/
def modify (f : σ → σ) : Action σ ε Unit := fun s => (.ok (), f s)

/-- A computation that does not touch the state. -/
def lift (r : Except ε α) : Action σ ε α := fun s => (r, s)

/-- Runs an action on a part of the state, with its errors translated. -/
def zoom (view : σ → τ) (put : τ → σ → σ) (err : δ → ε) (x : Action τ δ α) : Action σ ε α :=
  fun s => ((x (view s)).1.mapError err, put (x (view s)).2 s)

/-- Runs an action for each element of a list, up to the first error. -/
def forEach : List α → (α → Action σ ε Unit) → Action σ ε Unit
  | [], _ => pure ()
  | a :: as, f => do f a; forEach as f

@[simp] lemma pure_apply {a : α} {s : σ} : (pure a : Action σ ε α) s = (.ok a, s) := rfl

@[simp] lemma bind_apply {x : Action σ ε α} {f : α → Action σ ε β} {s : σ} :
    (x >>= f) s =
      match x s with
      | (.ok a, s') => f a s'
      | (.error e, s') => (.error e, s') := rfl

/-- A sequence that ends with a value went through its parts. -/
lemma bind_eq_ok {x : Action σ ε α} {f : α → Action σ ε β} {s : σ} {b : β}
    (e : ((x >>= f) s).1 = .ok b) : ∃ a s', x s = (.ok a, s') ∧ (f a s').1 = .ok b := by
  rw [bind_apply] at e
  rcases hx : x s with ⟨_ | a, s'⟩
  · rw [hx] at e
    cases e
  · rw [hx] at e
    exact ⟨a, s', rfl, e⟩

/-- The same with the state after it. -/
lemma bind_ok_iff {x : Action σ ε α} {f : α → Action σ ε β} {s t : σ} {b : β} :
    (x >>= f) s = (.ok b, t) ↔ ∃ a s', x s = (.ok a, s') ∧ f a s' = (.ok b, t) := by
  rw [bind_apply]
  constructor
  · rcases hx : x s with ⟨_ | a, s'⟩ <;> intro e
    · cases e
    · exact ⟨a, s', rfl, e⟩
  · rintro ⟨a, s', hx, e⟩
    rw [hx]
    exact e

lemma lift_ok_iff {r : Except ε α} {s t : σ} {a : α} :
    (lift r : Action σ ε α) s = (.ok a, t) ↔ r = .ok a ∧ t = s := by
  simp only [lift, Prod.mk.injEq, eq_comm]

lemma zoom_ok_iff {view : σ → τ} {put : τ → σ → σ} {err : δ → ε} {x : Action τ δ α} {s t : σ}
    {a : α} :
    zoom view put err x s = (.ok a, t) ↔ ∃ u, x (view s) = (.ok a, u) ∧ t = put u s := by
  unfold zoom
  rcases x (view s) with ⟨_ | a', u⟩
  · simp
  · constructor
    · intro e
      cases e
      exact ⟨u, rfl, rfl⟩
    · rintro ⟨_, e, rfl⟩
      cases e
      rfl

/-- What follows an action without touching the state leaves the state that it left. -/
lemma bind_pure_snd {x : Action σ ε α} {f : α → β} {s : σ} :
    ((x >>= fun a => pure (f a) : Action σ ε β) s).2 = (x s).2 := by
  rw [bind_apply]
  rcases x s with ⟨_ | _, _⟩
  · rfl
  · rfl

@[simp] lemma fail_apply {e : ε} {s : σ} : (fail e : Action σ ε α) s = (.error e, s) := rfl

@[simp] lemma get_apply {s : σ} : (get : Action σ ε σ) s = (.ok s, s) := rfl

@[simp] lemma modify_apply {f : σ → σ} {s : σ} :
    (modify f : Action σ ε Unit) s = (.ok (), f s) := rfl

@[simp] lemma lift_apply {r : Except ε α} {s : σ} : (lift r : Action σ ε α) s = (r, s) := rfl

@[simp] lemma ite_apply {c : Prop} [Decidable c] {x y : Action σ ε α} {s : σ} :
    (if c then x else y) s = if c then x s else y s := by
  split <;> rfl

instance : LawfulMonad (Action σ ε) :=
  LawfulMonad.mk' (Action σ ε)
    (fun x => by funext s; simp only [Functor.map]; rcases x s with ⟨_ | _, _⟩ <;> rfl)
    (fun _ _ => rfl)
    (fun x _ _ => by funext s; simp only [bind_apply]; rcases x s with ⟨_ | _, _⟩ <;> rfl)

/-- A loop over two lists goes on with the second one. -/
lemma forEach_append {f : α → Action σ ε Unit} {l l' : List α} :
    forEach (l ++ l') f = (forEach l f >>= fun _ => forEach l' f) := by
  induction l with
  | nil => rfl
  | cons a l ih => rw [List.cons_append, forEach, forEach, ih, bind_assoc]

/-! ## Invariants -/

/-- However the action ends, it keeps a property of the state. -/
def Keeps (I : σ → Prop) (x : Action σ ε α) : Prop := ∀ s, I s → I (x s).2

namespace Keeps

variable {I : σ → Prop}

lemma pure {a : α} : Keeps I (Pure.pure a : Action σ ε α) := fun _ h => h

lemma fail {e : ε} : Keeps I (Action.fail e : Action σ ε α) := fun _ h => h

lemma get : Keeps I (Action.get : Action σ ε σ) := fun _ h => h

lemma lift {r : Except ε α} : Keeps I (Action.lift r : Action σ ε α) := fun _ h => h

lemma modify {f : σ → σ} (h : ∀ s, I s → I (f s)) : Keeps I (Action.modify f : Action σ ε Unit) := h

lemma bind {x : Action σ ε α} {y : α → Action σ ε β} (hx : Keeps I x) (hy : ∀ a, Keeps I (y a)) :
    Keeps I (x >>= y) := by
  intro s hs
  have hmid := hx s hs
  rw [bind_apply]
  split
  case h_1 a s' e => exact hy a s' (by rwa [e] at hmid)
  case h_2 e' s' e => rwa [e] at hmid

/-- What follows a reading of the state may use the state that was read. -/
lemma get_bind {f : σ → Action σ ε α} (h : ∀ s, I s → I (f s s).2) : Keeps I (Action.get >>= f) := h

lemma lift_bind {r : Except ε α} {f : α → Action σ ε β} (h : ∀ a, r = .ok a → Keeps I (f a)) :
    Keeps I (Action.lift r >>= f) := by
  cases r with
  | error e => exact fun _ hs => hs
  | ok a => exact h a rfl

lemma forEach {f : α → Action σ ε Unit} {l : List α} (h : ∀ a ∈ l, Keeps I (f a)) :
    Keeps I (Action.forEach l f) := by
  induction l with
  | nil => exact pure
  | cons a l ih =>
    exact bind (h a List.mem_cons_self) fun _ => ih fun b mem => h b (List.mem_cons_of_mem a mem)

lemma zoom {view : σ → τ} {put : τ → σ → σ} {err : δ → ε} {y : Action τ δ α}
    (h : ∀ s, I s → I (put (y (view s)).2 s)) : Keeps I (Action.zoom view put err y) := h

end Keeps

/-! ## Triples -/

/-- From a state with `Pre` the action ends with a value and a state with `Post`, or with an error
and a state with `Err`. -/
def Triple (Pre : σ → Prop) (x : Action σ ε α) (Post : α → σ → Prop) (Err : σ → Prop) : Prop :=
  ∀ s, Pre s →
    match x s with
    | (.ok a, s') => Post a s'
    | (.error _, s') => Err s'

variable {Pre : σ → Prop} {Err : σ → Prop} {x : Action σ ε α} {Post : α → σ → Prop}

namespace Triple

lemma ok {s s' : σ} {a : α} (h : Triple Pre x Post Err) (hs : Pre s) (e : x s = (.ok a, s')) :
    Post a s' := by
  have := h s hs
  rwa [e] at this

lemma error {s s' : σ} {e' : ε} (h : Triple Pre x Post Err) (hs : Pre s)
    (e : x s = (.error e', s')) : Err s' := by
  have := h s hs
  rwa [e] at this

/-- An action that cannot end with an error ends with a value. -/
lemma exists_ok {s : σ} (h : Triple Pre x Post fun _ => False) (hs : Pre s) :
    ∃ a s', x s = (.ok a, s') ∧ Post a s' := by
  have hpost := h s hs
  split at hpost
  case h_1 a s' e => exact ⟨a, s', e, hpost⟩
  case h_2 => exact hpost.elim

/-- A kept property is one for both ways to end. -/
lemma of_keeps {I : σ → Prop} (h : Keeps I x) : Triple I x (fun _ => I) I := by
  intro s hs
  have := h s hs
  split
  case h_1 e => rwa [e] at this
  case h_2 e => rwa [e] at this

lemma of_pre {Pre' : σ → Prop} (h : Triple Pre x Post Err) (hpre : ∀ s, Pre' s → Pre s) :
    Triple Pre' x Post Err :=
  fun s hs => h s (hpre s hs)

lemma weaken {Pre' : σ → Prop} {Post' : α → σ → Prop} {Err' : σ → Prop}
    (h : Triple Pre x Post Err) (hpre : ∀ s, Pre' s → Pre s)
    (hpost : ∀ a s, Post a s → Post' a s) (herr : ∀ s, Err s → Err' s) :
    Triple Pre' x Post' Err' := by
  intro s hs
  have := h s (hpre s hs)
  split at this
  case h_1 a s' e => exact hpost a s' this
  case h_2 e' s' e => exact herr s' this

lemma pure {a : α} (h : ∀ s, Pre s → Post a s) : Triple Pre (Pure.pure a : Action σ ε α) Post Err :=
  h

lemma modify {f : σ → σ} {Post : Unit → σ → Prop} (h : ∀ s, Pre s → Post () (f s)) :
    Triple Pre (Action.modify f : Action σ ε Unit) Post Err := h

/-- A computation that does not touch the state: the rest may use its result. -/
lemma lift_bind {r : Except ε α} {f : α → Action σ ε β} {Post : β → σ → Prop}
    (hok : ∀ a, r = .ok a → Triple Pre (f a) Post Err) (herr : ∀ s, Pre s → Err s) :
    Triple Pre (Action.lift r >>= f) Post Err := by
  intro s hs
  cases r with
  | ok a => exact hok a rfl s hs
  | error e => exact herr s hs

lemma bind {y : α → Action σ ε β} {Mid : α → σ → Prop} {Post : β → σ → Prop}
    (hx : Triple Pre x Mid Err) (hy : ∀ a, Triple (Mid a) (y a) Post Err) :
    Triple Pre (x >>= y) Post Err := by
  intro s hs
  have hmid := hx s hs
  simp only [Bind.bind]
  split at hmid
  case h_1 a s' e => exact hy a s' hmid
  case h_2 e' s' e => exact hmid

lemma zoom {view : σ → τ} {put : τ → σ → σ} {err : δ → ε} {y : Action τ δ α}
    (hok : ∀ s a t, Pre s → y (view s) = (.ok a, t) → Post a (put t s))
    (herr : ∀ s e t, Pre s → y (view s) = (.error e, t) → Err (put t s)) :
    Triple Pre (Action.zoom view put err y) Post Err := by
  intro s hs
  unfold Action.zoom
  rcases e : y (view s) with ⟨r, t⟩
  cases r with
  | ok a => exact hok s a t hs e
  | error e' => exact herr s e' t hs e

/-- A loop whose invariant is indexed by the elements already handled. -/
lemma forEach {f : α → Action σ ε Unit} {l : List α} {I : List α → σ → Prop}
    (h : ∀ before a after, l = before ++ a :: after →
      Triple (I before) (f a) (fun _ => I (before ++ [a])) Err) :
    Triple (I []) (Action.forEach l f) (fun _ => I l) Err := by
  suffices ∀ before rest, l = before ++ rest →
      Triple (I before) (Action.forEach rest f) (fun _ => I l) Err from this [] l rfl
  intro before rest
  induction rest generalizing before with
  | nil =>
    rintro rfl
    exact pure (by simp)
  | cons a rest ih =>
    intro e
    refine bind (h before a rest e) fun _ => ?_
    exact ih (before ++ [a]) (by rw [e]; simp)

end Triple

/-! ## Weakest preconditions -/

/-- From this state the action ends with a value and `Post`, or with an error and `Err`. -/
def wp (x : Action σ ε α) (Post : α → σ → Prop) (Err : σ → Prop) (s : σ) : Prop :=
  match x s with
  | (.ok a, s') => Post a s'
  | (.error _, s') => Err s'

section

variable {s : σ} {Post' : α → σ → Prop} {Err' : σ → Prop}

@[simp] lemma wp_pure {a : α} : wp (Pure.pure a : Action σ ε α) Post Err s ↔ Post a s := Iff.rfl

@[simp] lemma wp_get {Post : σ → σ → Prop} :
    wp (Action.get : Action σ ε σ) Post Err s ↔ Post s s := Iff.rfl

@[simp] lemma wp_modify {f : σ → σ} {Post : Unit → σ → Prop} :
    wp (Action.modify f : Action σ ε Unit) Post Err s ↔ Post () (f s) := Iff.rfl

@[simp] lemma wp_fail {e : ε} : wp (Action.fail e : Action σ ε α) Post Err s ↔ Err s := Iff.rfl

@[simp] lemma wp_bind {f : α → Action σ ε β} {Post : β → σ → Prop} :
    wp (x >>= f) Post Err s ↔ wp x (fun a s' => wp (f a) Post Err s') Err s := by
  unfold wp
  rw [bind_apply]
  rcases x s with ⟨_ | _, _⟩ <;> rfl

lemma wp_mono (h : wp x Post Err s) (post : ∀ a s', Post a s' → Post' a s')
    (err : ∀ s', Err s' → Err' s') : wp x Post' Err' s := by
  revert h
  unfold wp
  rcases x s with ⟨_ | a, s'⟩
  · exact err s'
  · exact post a s'

/-- A loop whose invariant is indexed by the elements that are left. -/
lemma wp_forEach {f : α → Action σ ε Unit} {l : List α} {I : List α → σ → Prop}
    (h : ∀ a rest s, I (a :: rest) s → wp (f a) (fun _ => I rest) Err s) (init : I l s) :
    wp (Action.forEach l f) (fun _ => I []) Err s := by
  induction l generalizing s with
  | nil => exact init
  | cons a l ih =>
    rw [Action.forEach, wp_bind]
    exact wp_mono (h a l s init) (fun _ _ => ih) fun _ => id

/-- The same for a value and for an error. -/
lemma wp_const_iff {I : σ → Prop} : wp x (fun _ => I) I s ↔ I (x s).2 := by
  unfold wp
  rcases x s with ⟨_ | _, _⟩ <;> rfl

lemma keeps_iff {I : σ → Prop} : Keeps I x ↔ ∀ s, I s → wp x (fun _ => I) I s :=
  forall₂_congr fun _ _ => wp_const_iff.symm

end

end Action

end Alys.Lib

import Alys.Lib.Action
import Mathlib.Logic.Function.Basic

/-!
# Threads on a shared state

A thread acts on a state that it shares with other threads in steps; between two of its steps the
others may act. A step is labelled, so that a schedule can be described by the labels of the steps
that were taken. `alone` forgets where the steps begin and end: it is the action of a thread that
nothing interrupts, and the rules for it turn a program in steps into the same program as one
action.

The predicates `Steps` and `EndsWith` say what the steps of a thread may do, on every path that the
states it finds can make it take.
-/

namespace Alys.Lib

variable {ι L σ ε α β : Type}

/-- A program that acts in steps on the state `σ` and ends with a value of `α` or an error of `ε`.
-/
inductive Thread (L σ ε α : Type) where
  /-- the program has ended -/
  | done (r : Except ε α)
  /-- the next step: what it writes and how the program goes on, given the state that it finds -/
  | step (label : L) (write : σ → σ) (next : σ → Thread L σ ε α)

namespace Thread

/-- Goes on with the value of a program, unless it ends with an error. -/
def bind : Thread L σ ε α → (α → Thread L σ ε β) → Thread L σ ε β
  | .done (.ok a), f => f a
  | .done (.error e), _ => .done (.error e)
  | .step label write next, f => .step label write fun s => (next s).bind f

instance : Monad (Thread L σ ε) where
  pure a := .done (.ok a)
  bind := bind

/-- An action as one step. -/
def atomic (label : L) (x : Action σ ε α) : Thread L σ ε α :=
  .step label (fun s => (x s).2) fun s => .done (x s).1

/-- A loop over a list, up to the first error. -/
def forEach : List α → (α → Thread L σ ε Unit) → Thread L σ ε Unit
  | [], _ => pure ()
  | a :: as, f => do f a; forEach as f

/-- The action of a program that is not interrupted. -/
def alone : Thread L σ ε α → Action σ ε α
  | .done r => Action.lift r
  | .step _ write next => fun s => (next s).alone (write s)

@[simp] lemma alone_pure {a : α} : (pure a : Thread L σ ε α).alone = pure a := rfl

@[simp] lemma alone_done {r : Except ε α} : (.done r : Thread L σ ε α).alone = Action.lift r := rfl

@[simp] lemma alone_atomic {label : L} {x : Action σ ε α} : (atomic label x).alone = x := rfl

@[simp] lemma alone_bind {t : Thread L σ ε α} {f : α → Thread L σ ε β} :
    (t >>= f).alone = t.alone >>= fun a => (f a).alone := by
  induction t with
  | done r => cases r <;> rfl
  | step label write next ih =>
    funext s
    show ((next s) >>= f).alone (write s) = _
    rw [ih]
    rfl

@[simp] lemma alone_forEach {f : α → Thread L σ ε Unit} {l : List α} :
    (forEach l f).alone = Action.forEach l fun a => (f a).alone := by
  induction l with
  | nil => rfl
  | cons a l ih => rw [forEach, alone_bind, ih, Action.forEach]

/-! ## What the steps do -/

variable {R Q : L → (σ → σ) → Prop}

/-- Every step, with its label, satisfies `R`. -/
def Steps (R : L → (σ → σ) → Prop) : Thread L σ ε α → Prop
  | .done _ => True
  | .step label write next => R label write ∧ ∀ s, (next s).Steps R

namespace Steps

lemma pure {a : α} : (Pure.pure a : Thread L σ ε α).Steps R := trivial

lemma atomic {label : L} {x : Action σ ε α} (h : R label fun s => (x s).2) :
    (Thread.atomic label x).Steps R :=
  ⟨h, fun _ => trivial⟩

lemma bind {t : Thread L σ ε α} {f : α → Thread L σ ε β} (ht : t.Steps R)
    (hf : ∀ a, (f a).Steps R) : (t >>= f).Steps R := by
  induction t with
  | done r =>
    cases r with
    | ok a => exact hf a
    | error e => trivial
  | step label write next ih => exact ⟨ht.1, fun s => ih s (ht.2 s)⟩

lemma forEach {f : α → Thread L σ ε Unit} {l : List α} (h : ∀ a, (f a).Steps R) :
    (Thread.forEach l f).Steps R := by
  induction l with
  | nil => exact pure
  | cons a l ih => exact bind (h a) fun _ => ih

end Steps

/-- Every step satisfies `R`, but for a last one that may satisfy `Q` instead. -/
def EndsWith (R Q : L → (σ → σ) → Prop) : Thread L σ ε α → Prop
  | .done _ => True
  | .step label write next =>
    (R label write ∧ ∀ s, (next s).EndsWith R Q) ∨ Q label write ∧ ∀ s, ∃ r, next s = .done r

namespace EndsWith

lemma last {label : L} {x : Action σ ε α} (h : Q label fun s => (x s).2) :
    (Thread.atomic label x).EndsWith R Q :=
  .inr ⟨h, fun _ => ⟨_, rfl⟩⟩

lemma bind {t : Thread L σ ε α} {f : α → Thread L σ ε β} (ht : t.Steps R)
    (hf : ∀ a, (f a).EndsWith R Q) : (t >>= f).EndsWith R Q := by
  induction t with
  | done r =>
    cases r with
    | ok a => exact hf a
    | error e => trivial
  | step label write next ih => exact .inl ⟨ht.1, fun s => ih s (ht.2 s)⟩

end EndsWith

end Thread

/-! ## Pools -/

/-- Threads on a shared state, with the labels of the steps that were taken, the latest last. -/
structure Pool (ι L σ ε α : Type) where
  shared : σ
  threads : ι → Thread L σ ε α
  trace : List L

namespace Pool

/-- The label of the next step of a thread. -/
def next (p : Pool ι L σ ε α) (i : ι) : Option L :=
  match p.threads i with
  | .done _ => none
  | .step label _ _ => some label

variable [DecidableEq ι] {p : Pool ι L σ ε α} {i : ι}

/-- One thread takes its next step, if it has one. -/
def step (i : ι) (p : Pool ι L σ ε α) : Pool ι L σ ε α :=
  match p.threads i with
  | .done _ => p
  | .step label write next =>
    ⟨write p.shared, Function.update p.threads i (next p.shared), p.trace ++ [label]⟩

lemma step_of_done {r : Except ε α} (h : p.threads i = .done r) : p.step i = p := by
  rw [step, h]

/-- A step of a thread leaves the other threads as they are. -/
lemma threads_step {j : ι} (h : j ≠ i) : (p.step i).threads j = p.threads j := by
  rw [step]
  split
  · rfl
  · exact Function.update_of_ne h ..

variable {label : L} {write : σ → σ} {next : σ → Thread L σ ε α}

lemma shared_step (h : p.threads i = .step label write next) :
    (p.step i).shared = write p.shared := by
  rw [step, h]

lemma threads_step_self (h : p.threads i = .step label write next) :
    (p.step i).threads i = next p.shared := by
  rw [step, h]
  exact Function.update_self ..

lemma trace_step (h : p.threads i = .step label write next) :
    (p.step i).trace = p.trace ++ [label] := by
  rw [step, h]

end Pool

end Alys.Lib

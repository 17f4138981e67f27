import Alys.Chain.Sync
import Mathlib.Algebra.BigOperators.Group.Finset.Piecewise
import Mathlib.Algebra.Order.BigOperators.Group.Finset

/-!
# How often peers are asked in vain

The circuit breaker is there so that peers that do not answer are not asked over and over. It is
asked once before the attempts with a peer and told of their outcome after them, and it is shared by
all calls of `sync`. A call that has passed it is not held back any more, so besides the failures
that open it there are those of the calls that passed it before.
-/

namespace Alys
open Lib

/-! ## The log -/

namespace SyncMark

def isFailure : SyncMark → Bool
  | .failed _ => true
  | .succeeded => false
  | .rolledBack => false

/-- The failures in a part of the log. -/
def failures (part : List SyncMark) : Nat := part.countP isFailure

lemma failures_concat {part : List SyncMark} {mark : SyncMark} :
    failures (part ++ [mark]) = failures part + if mark.isFailure then 1 else 0 := by
  rw [failures, List.countP_append, List.countP_singleton]
  rfl

/-- A part of the log without a success, with its failures in a period. -/
structure Vain (start length : Nat) (part : List SyncMark) : Prop where
  noSuccess : .succeeded ∉ part
  period : ∀ time, .failed time ∈ part → start ≤ time ∧ time < start + length

variable {start length : Nat} {part : List SyncMark} {mark : SyncMark}

lemma Vain.init (h : Vain start length (part ++ [mark])) : Vain start length part where
  noSuccess mem := h.noSuccess (List.mem_append_left _ mem)
  period time mem := h.period time (List.mem_append_left _ mem)

lemma Vain.last (h : Vain start length (part ++ [mark])) :
    mark ≠ .succeeded ∧ ∀ time, mark = .failed time → start ≤ time ∧ time < start + length := by
  have mem : mark ∈ part ++ [mark] := List.mem_append_right _ (List.mem_singleton.mpr rfl)
  refine ⟨fun e => h.noSuccess (e ▸ mem), fun time e => h.period time (e ▸ mem)⟩

end SyncMark

open SyncMark

/-! ## The breaker and the calls that passed it -/

/-- What holds of a breaker at a time, when so many of `n` calls have passed it and are not done.
-/
structure Braked (threshold timeout n : Nat) (cb : RpcCircuitBreaker) (now flying : Nat)
    (log : List SyncMark) : Prop where
  threshold_eq : cb.failureThreshold = threshold
  timeout_eq : cb.resetTimeout = timeout
  closed : cb.isOpen = false → cb.failureCount < threshold
  bounded : ∀ {start part}, part <:+: log → Vain start timeout part →
    failures part < threshold + n
  counted : ∀ {start part}, part <:+ log → Vain start timeout part → now < start + timeout →
    cb.isOpen = false → failures part ≤ cb.failureCount
  spent : ∀ {start part}, part <:+ log → Vain start timeout part → now < start + timeout →
    cb.isOpen = true → 0 < failures part →
    (∃ last ∈ cb.lastFailureTime, start ≤ last) ∧ failures part + flying < threshold + n

namespace Braked

variable {threshold timeout n now flying : Nat} {cb : RpcCircuitBreaker} {log : List SyncMark}

lemma start (hthreshold : 0 < threshold) :
    Braked threshold timeout n (.new threshold timeout) 0 0 [] where
  threshold_eq := rfl
  timeout_eq := rfl
  closed _ := hthreshold
  bounded h _ := by
    rw [List.infix_nil.mp h]
    exact Nat.add_pos_left hthreshold n
  counted h _ _ _ := by
    rw [List.suffix_nil.mp h]
    exact le_rfl
  spent _ _ _ hopen := nomatch hopen

section

variable (h : Braked threshold timeout n cb now flying log)

include h

lemma tick {now' : Nat} (le : now ≤ now') :
    Braked threshold timeout n cb now' flying log where
  threshold_eq := h.threshold_eq
  timeout_eq := h.timeout_eq
  closed := h.closed
  bounded := h.bounded
  counted hpart hvain hnow := h.counted hpart hvain (by omega)
  spent hpart hvain hnow := h.spent hpart hvain (by omega)

/-- A call that passes a closed breaker. -/
lemma pass (hclosed : cb.isOpen = false) (flying' : Nat) :
    Braked threshold timeout n cb now flying' log where
  threshold_eq := h.threshold_eq
  timeout_eq := h.timeout_eq
  closed := h.closed
  bounded := h.bounded
  counted := h.counted
  spent _ _ _ hopen := by
    rw [hclosed] at hopen
    cases hopen

/-- A breaker is closed again only when its last failure lies outside every period that is not
over. -/
lemma reset (hthreshold : 0 < threshold) (htimeout : 0 < timeout) (hopen : cb.isOpen = true)
    (hout : cb.timedOut now = true) :
    Braked threshold timeout n { cb with isOpen := false, failureCount := 0 } now flying log where
  threshold_eq := h.threshold_eq
  timeout_eq := h.timeout_eq
  closed _ := hthreshold
  bounded := h.bounded
  counted := by
    intro start part hpart hvain hnow _
    by_contra hne
    have hspent := h.spent hpart hvain hnow hopen (Nat.pos_of_ne_zero fun e => hne e.le)
    obtain ⟨last, hlast, hstart⟩ := hspent.1
    rw [RpcCircuitBreaker.timedOut, hlast] at hout
    have hout : cb.resetTimeout ≤ now - last := of_decide_eq_true hout
    rw [h.timeout_eq] at hout
    omega
  spent _ _ _ hopen := nomatch hopen

/-- The breaker is asked: the call passes it, or there are as many calls as before. -/
lemma canAttempt (hthreshold : 0 < threshold) (htimeout : 0 < timeout) {flying' : Nat}
    (hflying : (cb.canAttempt now).1 = false → flying' = flying) :
    Braked threshold timeout n (cb.canAttempt now).2 now flying' log := by
  unfold RpcCircuitBreaker.canAttempt at hflying ⊢
  cases hopen : cb.isOpen with
  | false => exact h.pass hopen flying'
  | true =>
    simp only [hopen, Bool.not_true, Bool.false_eq_true, if_false] at hflying ⊢
    split
    case isTrue hout => exact (h.reset hthreshold htimeout hopen hout).pass rfl flying'
    case isFalse hout =>
      rw [if_neg hout] at hflying
      rw [hflying rfl]
      exact h

/-- A success resets the count. -/
lemma recordSuccess (hthreshold : 0 < threshold) (flying' : Nat) :
    Braked threshold timeout n cb.recordSuccess now flying' (log ++ [.succeeded]) where
  threshold_eq := h.threshold_eq
  timeout_eq := h.timeout_eq
  closed _ := hthreshold
  bounded := by
    intro start part hpart hvain
    rcases List.infix_concat_iff.mp hpart with hpart | hpart
    · rcases List.suffix_concat_iff.mp hpart with rfl | ⟨part, rfl, _⟩
      · exact Nat.add_pos_left hthreshold n
      · exact absurd rfl hvain.last.1
    · exact h.bounded hpart hvain
  counted := by
    intro start part hpart hvain _ _
    rcases List.suffix_concat_iff.mp hpart with rfl | ⟨part, rfl, _⟩
    · exact le_rfl
    · exact absurd rfl hvain.last.1
  spent _ _ _ hopen := nomatch hopen

end

/-- A failure is recorded by a call that is done with it. -/
lemma recordFailure (h : Braked threshold timeout n cb now (flying + 1) log)
    (hthreshold : 0 < threshold) (hflying : flying < n) :
    Braked threshold timeout n (cb.recordFailure now) now flying (log ++ [.failed now]) := by
  have hlast : ∀ {start part}, Vain start timeout (part ++ [.failed now]) →
      start ≤ now ∧ now < start + timeout := fun hvain => hvain.last.2 now rfl
  have hcount : ∀ part, failures (part ++ [.failed now]) = failures part + 1 :=
    fun part => failures_concat
  -- the failures of a part that ends with this one
  have hclosed : ∀ {start part}, part <:+ log → Vain start timeout (part ++ [.failed now]) →
      cb.isOpen = false → failures part ≤ cb.failureCount := fun hpart hvain =>
    h.counted hpart hvain.init (hlast hvain).2
  have hopen : ∀ {start part}, part <:+ log → Vain start timeout (part ++ [.failed now]) →
      cb.isOpen = true → failures part + 1 + flying < threshold + n := by
    intro start part hpart hvain hopen
    rcases Nat.eq_zero_or_pos (failures part) with hzero | hpos
    · omega
    · have := (h.spent hpart hvain.init (hlast hvain).2 hopen hpos).2
      omega
  refine ⟨h.threshold_eq, h.timeout_eq, ?_, ?_, ?_, ?_⟩
  · intro hc
    simp only [RpcCircuitBreaker.recordFailure] at hc ⊢
    split at hc
    case isTrue => cases hc
    case isFalse hlt => exact h.threshold_eq ▸ Nat.not_le.mp hlt
  · intro start part hpart hvain
    rcases List.infix_concat_iff.mp hpart with hpart | hpart
    · rcases List.suffix_concat_iff.mp hpart with rfl | ⟨part, rfl, hinit⟩
      · exact Nat.add_pos_left hthreshold n
      · rw [hcount]
        show failures part + 1 < threshold + n
        cases hc : cb.isOpen with
        | false =>
          have := hclosed hinit hvain hc
          have := h.closed hc
          omega
        | true =>
          have := hopen hinit hvain hc
          omega
    · exact h.bounded hpart hvain
  · intro start part hpart hvain hnow hc
    have hc' : cb.isOpen = false := by
      simp only [RpcCircuitBreaker.recordFailure] at hc
      split at hc
      case isTrue => cases hc
      case isFalse => exact hc
    rcases List.suffix_concat_iff.mp hpart with rfl | ⟨part, rfl, hinit⟩
    · exact Nat.zero_le _
    · rw [hcount]
      exact Nat.add_le_add_right (hclosed hinit hvain hc') 1
  · intro start part hpart hvain hnow _ hpos
    rcases List.suffix_concat_iff.mp hpart with rfl | ⟨part, rfl, hinit⟩
    · cases hpos
    · refine ⟨⟨now, rfl, (hlast hvain).1⟩, ?_⟩
      rw [hcount]
      show failures part + 1 + flying < threshold + n
      cases hc : cb.isOpen with
      | false =>
        have := hclosed hinit hvain hc
        have := h.closed hc
        omega
      | true => exact hopen hinit hvain hc

/-- A rollback does not count. -/
lemma rollBack (h : Braked threshold timeout n cb now flying log) (hthreshold : 0 < threshold) :
    Braked threshold timeout n cb now flying (log ++ [.rolledBack]) := by
  have hcount : ∀ part, failures (part ++ [.rolledBack]) = failures part :=
    fun part => failures_concat
  refine ⟨h.threshold_eq, h.timeout_eq, h.closed, ?_, ?_, ?_⟩
  · intro start part hpart hvain
    rcases List.infix_concat_iff.mp hpart with hpart | hpart
    · rcases List.suffix_concat_iff.mp hpart with rfl | ⟨part, rfl, hinit⟩
      · exact Nat.add_pos_left hthreshold n
      · rw [hcount]
        exact h.bounded hinit.isInfix hvain.init
    · exact h.bounded hpart hvain
  · intro start part hpart hvain
    rcases List.suffix_concat_iff.mp hpart with rfl | ⟨part, rfl, hinit⟩
    · exact fun _ _ => Nat.zero_le _
    · rw [hcount]
      exact h.counted hinit hvain.init
  · intro start part hpart hvain
    rcases List.suffix_concat_iff.mp hpart with rfl | ⟨part, rfl, hinit⟩
    · exact fun _ _ hpos => nomatch hpos
    · rw [hcount]
      exact h.spent hinit hvain.init

end Braked

/-! ## The calls -/

/-- One for a call that has passed the breaker and has not recorded the outcome. -/
def SyncTask.flying : SyncTask → Nat
  | .sendRpc .. => 1
  | .sleep .. => 1
  | .recordSuccess _ => 1
  | .recordFailure .. => 1
  | _ => 0

lemma SyncTask.flying_le (task : SyncTask) : task.flying ≤ 1 := by
  cases task <;> simp [flying]

lemma SyncTask.flying_tryPeers (head : Nat) (peers : List PeerId) :
    (SyncTask.tryPeers head peers).flying = 0 := by
  cases peers <;> rfl

lemma SyncTask.flying_retry (now head : Nat) (peer : PeerId) (rest : List PeerId)
    (attempt backoff : Nat) : (SyncTask.retry now head peer rest attempt backoff).flying = 1 := by
  unfold retry
  split <;> rfl

lemma SyncTask.flying_processed (head blocksProcessed : Nat)
    (r : Except Failure (Option IndividualApproval)) :
    (SyncTask.processed head blocksProcessed r).flying = 0 := by
  unfold processed
  split
  case h_1 => rfl
  case h_2 => rfl
  case h_3 => rfl
  case h_4 => split_ifs <;> rfl

namespace SyncNode

variable {ι : Type} [Fintype ι]

/-- The calls that have passed the breaker and have not recorded the outcome. -/
def flying (s : SyncNode ι) : Nat := ∑ i, (s.calls i).flying

lemma flying_le (s : SyncNode ι) : s.flying ≤ Fintype.card ι := by
  have h := Finset.sum_le_card_nsmul Finset.univ (fun i => (s.calls i).flying) 1
    fun i _ => (s.calls i).flying_le
  rwa [smul_eq_mul, mul_one] at h

variable [DecidableEq ι]

lemma flying_goto (s : SyncNode ι) (i : ι) (task : SyncTask) :
    (s.goto i task).flying + (s.calls i).flying = s.flying + task.flying := by
  have hmem := Finset.mem_univ i
  have hcalls : (fun j => ((s.goto i task).calls j).flying) =
      Function.update (fun j => (s.calls j).flying) i task.flying :=
    funext fun j => Function.apply_update (fun _ => SyncTask.flying) s.calls i task j
  rw [flying, hcalls, Finset.sum_update_of_mem hmem, flying,
    ← Finset.add_sum_erase _ (fun j => (s.calls j).flying) hmem, Finset.sdiff_singleton_eq_erase]
  omega

/-- A step of a call to an await on the same side of the breaker. -/
lemma flying_goto_eq {s : SyncNode ι} {i : ι} {task : SyncTask}
    (h : task.flying = (s.calls i).flying) : (s.goto i task).flying = s.flying := by
  have := s.flying_goto i task
  omega

/-- What holds of the breaker of a node. -/
def IsBraked (s : SyncNode ι) : Prop :=
  Braked 3 60000 (Fintype.card ι) s.circuitBreaker s.now s.flying s.log

namespace IsBraked

variable {P : Primitives} {cfg : ChainConfig} {s : SyncNode ι} {i : ι}

section

variable (h : s.IsBraked)

include h

/-- A step of a call that does not concern the breaker. -/
lemma goto {task : SyncTask} (hflying : task.flying = (s.calls i).flying) :
    (s.goto i task).IsBraked := by
  show Braked _ _ _ _ _ (s.goto i task).flying _
  rw [flying_goto_eq hflying]
  exact h

lemma call : (s.call i).IsBraked := by
  unfold SyncNode.call
  split
  case h_1 hcall => exact goto (s := { s with chain := _ }) h (by rw [hcall]; rfl)
  case h_2 => exact h

lemma produce {env : ProducerEnv} {slot : Nat} :
    (s.produce P cfg i env slot).IsBraked := by
  unfold SyncNode.produce
  split
  case h_1 hcall =>
    split
    case h_1 => exact h.goto (by rw [hcall]; rfl)
    case h_2 => exact h
  case h_2 => exact h

lemma rpc {ok : Bool} : (s.rpc i ok).IsBraked := by
  unfold SyncNode.rpc
  split
  case h_1 head peer rest attempt backoff hcall =>
    refine h.goto ?_
    rw [hcall]
    split
    · rfl
    · exact SyncTask.flying_retry ..
  case h_2 => exact h

lemma recv {env response} : (s.recv P cfg i env response).IsBraked := by
  unfold SyncNode.recv
  split
  case h_1 head blocksProcessed hcall =>
    split
    case h_1 block =>
      refine goto (s := { s with chain := _ }) h ?_
      rw [SyncTask.flying_processed, hcall]
      rfl
    case h_2 => exact h
    case h_3 => exact h
    case h_4 => exact h
    case h_5 =>
      refine h.goto ?_
      rw [hcall]
      split <;> rfl
  case h_2 => exact h

/-- A call takes its turn. -/
lemma resume {env : Env} : (s.resume P i env).IsBraked := by
  unfold SyncNode.resume
  split
  case h_1 hcall =>
    split
    · exact h
    · exact h.goto (by rw [hcall]; rfl)
  case h_2 hcall => exact h.goto (by rw [hcall]; rfl)
  case h_3 head hcall => exact h.goto (by rw [hcall, SyncTask.flying_tryPeers]; rfl)
  case h_4 head peer rest hcall =>
    refine Braked.canAttempt h (by decide) (by decide) fun hclosed => ?_
    refine flying_goto_eq (s := { s with circuitBreaker := _ }) ?_
    rw [hcall, hclosed]
    rfl
  case h_5 head peer rest attempt backoff wakeAt hcall =>
    split
    · exact h
    · exact h.goto (by rw [hcall]; rfl)
  case h_6 head hcall => exact Braked.recordSuccess h (by decide) _
  case h_7 head rest hcall =>
    have hle := s.flying_le
    have hflying := flying_goto { s with
      circuitBreaker := s.circuitBreaker.recordFailure s.now
      log := s.log ++ [.failed s.now] } i (.tryPeers head rest)
    rw [SyncTask.flying_tryPeers, show s.calls i = _ from hcall] at hflying
    have hlanded : s.flying = _ + 1 := hflying.symm
    exact Braked.recordFailure (hlanded ▸ h) (by decide) (by omega)
  case h_8 head hcall =>
    have hflying : (SyncNode.goto i .returned { s with
        chain := (rollbackHead P env (head - 1) s.chain).2
        log := s.log ++ [.rolledBack] }).flying = s.flying :=
      flying_goto_eq (s := { s with chain := _, log := _ }) (by rw [hcall]; rfl)
    show Braked _ _ _ _ _ (SyncNode.goto i .returned _).flying _
    rw [hflying]
    exact Braked.rollBack h (by decide)
  case h_9 hcall => exact goto (s := { s with chain := _ }) h (by rw [hcall]; rfl)
  case h_10 => exact h

lemma step (e : SyncEvent ι) : (s.step P cfg e).IsBraked := by
  cases e with
  | tick elapsed => exact Braked.tick h (Nat.le_add_right _ _)
  | discovered => exact h
  | node => exact h
  | produce => exact h.produce
  | call => exact h.call
  | resume => exact h.resume
  | rpc => exact h.rpc
  | recv => exact h.recv

end

end IsBraked

/-- In every run, whatever the calls of `sync` and the rest of the node do in between: of the
failures that are recorded within a minute and without a success between them there are at most two
more than there are calls at a time. -/
theorem failures_bounded {P : Primitives} {cfg : ChainConfig} {chain : Chain} {s : SyncNode ι}
    (run : SyncRun P cfg (.start chain) s) {part : List SyncMark} {t : Nat}
    (hpart : part <:+: s.log) (hsuccess : .succeeded ∉ part)
    (hperiod : ∀ time, .failed time ∈ part → t ≤ time ∧ time < t + 60000) :
    failures part ≤ 2 + Fintype.card ι := by
  have hstart : (SyncNode.start (ι := ι) chain).IsBraked := by
    have hflying : (SyncNode.start (ι := ι) chain).flying = 0 :=
      Finset.sum_eq_zero fun _ _ => rfl
    rw [IsBraked, hflying]
    exact Braked.start (by decide)
  have hbraked : s.IsBraked := run.invariant hstart fun _ e h _ => h.step e
  have := hbraked.bounded hpart ⟨hsuccess, hperiod⟩
  omega

/-- A call up to where it has passed the breaker. -/
def toyCall (i : Bool) : List (SyncEvent Bool) :=
  .call i :: List.replicate 4 (.resume i .toy)

/-- Three attempts of a call that fail, and the record of it. -/
def toyFailure (i : Bool) : List (SyncEvent Bool) :=
  [.rpc i false, .tick 1000, .resume i .toy, .rpc i false, .tick 2000, .resume i .toy, .rpc i false,
    .resume i .toy]

/-- Two calls that fail one after the other, and two at the same time. -/
def toyFailures : List (SyncEvent Bool) :=
  .discovered [1] :: (toyCall true ++ toyFailure true ++ toyCall true ++ toyFailure true ++
    toyCall true ++ toyCall false ++ toyFailure true ++ toyFailure false)

/-- A node after these calls. -/
def toyFailing : SyncNode Bool := (start (Chain.new .toy .empty)).play .toy (.toy 1 0) toyFailures

/-- Four failures in twelve seconds. -/
theorem failures_bounded_twoCalls :
    toyFailing.log = [.failed 3000, .failed 6000, .failed 9000, .failed 12000] ∧
      failures toyFailing.log ≤ 2 + Fintype.card Bool := by
  have hlog : toyFailing.log = [.failed 3000, .failed 6000, .failed 9000, .failed 12000] := rfl
  refine ⟨hlog, failures_bounded (SyncRun.play (by decide) _) List.infix_rfl ?_ (t := 3000) ?_⟩
  · rw [hlog]
    decide
  · rw [hlog]
    intro time mem
    simp only [List.mem_cons, SyncMark.failed.injEq, List.not_mem_nil, or_false] at mem
    omega

end SyncNode

end Alys

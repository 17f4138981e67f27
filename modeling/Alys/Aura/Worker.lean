import Alys.Aura.Majority
import Alys.Lib.Run

/-!
# The slot worker

Model of `time_until_next_slot` and `AuraSlotWorker` in `app/src/aura.rs`. The worker reads two
clocks of its machine: the system time, which says what slot it is and can be set, and the clock of
`Delay`, which only runs. Between any two readings time passes and the system time may be set. Times
are in milliseconds and below `2 ^ 64`.

`calls` is not part of the worker: it records the calls of `produce_block`.
-/

namespace Alys
open Lib

/-! ## The code -/

/-- `time_until_next_slot`; the division panics for a slot duration of zero. -/
def timeUntilNextSlot (slotDuration now : Nat) : Except Failure Nat :=
  if slotDuration = 0 then .error .panic
  else
    let nextSlot := (now + slotDuration) / slotDuration
    .ok (nextSlot * slotDuration - now)

/-- The fields of `AuraSlotWorker` that do not change. A signer is its public key. -/
structure SlotConfig where
  slotDuration : Nat
  authorities : List PublicKey
  maybeSigner : Option PublicKey

/-- `AuraSlotWorker::claim_slot`, for a worker with a signer. -/
def SlotConfig.claimSlot (cfg : SlotConfig) (signer : PublicKey) (slot : Nat) : Option PublicKey :=
  (slotAuthor slot cfg.authorities).bind fun author =>
    if signer = author.2 then some author.2 else none

/-- Whether the worker produces a block in a slot. -/
def SlotConfig.claims (cfg : SlotConfig) (slot : Nat) : Bool :=
  cfg.maybeSigner.any fun signer => (cfg.claimSlot signer slot).isSome

lemma SlotConfig.claims_iff {cfg : SlotConfig} {slot : Nat} :
    cfg.claims slot = true ↔ ∃ key, (slotAuthor slot cfg.authorities).map (·.2) = some key ∧
      cfg.maybeSigner = some key := by
  rw [claims, Option.any_eq_true]
  constructor
  · rintro ⟨signer, hsigner, h⟩
    obtain ⟨key, hclaim⟩ := Option.isSome_iff_exists.mp h
    obtain ⟨author, hauthor, hkey⟩ := Option.bind_eq_some_iff.mp hclaim
    split at hkey
    case isTrue same =>
      refine ⟨author.2, ?_, same ▸ hsigner⟩
      rw [hauthor, Option.map_some]
    case isFalse => cases hkey
  · rintro ⟨key, hauthor, hkey⟩
    obtain ⟨author, hslot, rfl⟩ := Option.map_eq_some_iff.mp hauthor
    refine ⟨author.2, hkey, ?_⟩
    rw [claimSlot, hslot, Option.bind_some, if_pos rfl]
    rfl

/-- A call of `produce_block`. -/
structure SlotCall where
  slot : Nat
  timestamp : Nat
  deriving DecidableEq

/-- Where the worker stands. `deadline` is the time at which `until_next_slot` is over. -/
inductive SlotTask where
  /-- before the first delay -/
  | started
  /-- the delay of `next_slot` -/
  | delay (deadline : Nat)
  /-- `chain.produce_block` -/
  | produceBlock (deadline : Nat)
  /-- the worker panicked -/
  | crashed
  deriving DecidableEq

def SlotTask.deadline? : SlotTask → Option Nat
  | .delay deadline => some deadline
  | .produceBlock deadline => some deadline
  | .started => none
  | .crashed => none

/-- A worker on its machine. -/
structure SlotMachine where
  lastSlot : Nat
  task : SlotTask
  /-- the clock of `Delay` -/
  instant : Nat
  /-- the system time -/
  now : Nat
  /-- the latest last -/
  calls : List SlotCall

/-- What happens on a machine. A `gap` is the time that passes between two readings of the clocks;
`now'` and `now''` are the system time when the slot and when the timestamp of a block are read. -/
inductive SlotEvent where
  /-- time passes -/
  | tick (elapsed : Nat)
  /-- the system time is set -/
  | adjust (now : Nat)
  /-- the worker is polled for the first time -/
  | start (gap : Nat)
  /-- the worker is polled at a delay -/
  | wake (gap gap' gap'' now' now'' : Nat)
  /-- `produce_block` returns -/
  | produced
  /-- the process is started again -/
  | restart

namespace SlotMachine

variable (cfg : SlotConfig)

/-- A machine on which the worker is created (Rust `AuraSlotWorker::new`). -/
def boot (instant now : Nat) : SlotMachine := ⟨0, .started, instant, now, []⟩

def pass (elapsed : Nat) (m : SlotMachine) : SlotMachine :=
  { m with instant := m.instant + elapsed, now := m.now + elapsed }

/-- The system time is read after some time, and may have been set. -/
def read (elapsed now : Nat) (m : SlotMachine) : SlotMachine :=
  { m with instant := m.instant + elapsed, now }

/-- The first iteration of `next_slot`, up to its await. -/
def start (gap : Nat) (m : SlotMachine) : SlotMachine :=
  match m.task with
  | .started =>
    match timeUntilNextSlot cfg.slotDuration m.now with
    | .ok waitDur => { m.pass gap with task := .delay (m.instant + gap + waitDur) }
    | .error _ => { m with task := .crashed }
  | _ => m

/-- The end of the next delay and the slot, as `next_slot` computes them. -/
def readClocks (gap now' : Nat) (m : SlotMachine) : Except Failure (Nat × Nat) := do
  let waitDur ← timeUntilNextSlot cfg.slotDuration m.now
  let slot ← slotFromTimestamp now' cfg.slotDuration
  return (m.instant + gap + waitDur, slot)

/-- `AuraSlotWorker::on_slot`, up to its await. Without one the next delay follows. -/
def onSlot (slot nextDelay gap now : Nat) (m : SlotMachine) : SlotMachine :=
  if cfg.claims slot then
    { m.read gap now with
      task := .produceBlock nextDelay
      calls := m.calls ++ [⟨slot, now⟩] }
  else { m with task := .delay nextDelay }

/-- An iteration of `next_slot` from its await on. A slot that is not new is passed over. -/
def wake (gap gap' gap'' now' now'' : Nat) (m : SlotMachine) : SlotMachine :=
  match m.task with
  | .delay deadline =>
    if m.instant < deadline then m
    else
      match m.readClocks cfg gap now' with
      | .ok (nextDelay, slot) =>
        if m.lastSlot < slot then
          onSlot cfg slot nextDelay gap'' now'' { m.read (gap + gap') now' with lastSlot := slot }
        else { m.read (gap + gap') now' with task := .delay nextDelay }
      | .error _ => { m with task := .crashed }
  | _ => m

/-- `produce_block` returned; its result is only logged. -/
def produced (m : SlotMachine) : SlotMachine :=
  match m.task with
  | .produceBlock deadline => { m with task := .delay deadline }
  | _ => m

/-- A new process; the machine keeps its clocks. -/
def restart (m : SlotMachine) : SlotMachine := { m with lastSlot := 0, task := .started }

/-- The machine after an event. -/
def step : SlotEvent → SlotMachine → SlotMachine
  | .tick elapsed, m => m.pass elapsed
  | .adjust now, m => { m with now }
  | .start gap, m => m.start cfg gap
  | .wake gap gap' gap'' now' now'', m => m.wake cfg gap gap' gap'' now' now''
  | .produced, m => m.produced
  | .restart, m => m.restart

variable {cfg} {m : SlotMachine} {gap gap' gap'' now' now'' : Nat}

/-! ## What a step does -/

/-- The first time of the slot after a given time. -/
def nextBoundary (cfg : SlotConfig) (now : Nat) : Nat :=
  (now / cfg.slotDuration + 1) * cfg.slotDuration

lemma lt_nextBoundary {now : Nat} (pos : 0 < cfg.slotDuration) : now < nextBoundary cfg now :=
  (Nat.div_lt_iff_lt_mul pos).mp (Nat.lt_succ_self _)

lemma timeUntilNextSlot_of_pos {now : Nat} (pos : 0 < cfg.slotDuration) :
    timeUntilNextSlot cfg.slotDuration now = .ok (nextBoundary cfg now - now) := by
  rw [timeUntilNextSlot, if_neg pos.ne', Nat.add_div_right _ pos]
  rfl

lemma readClocks_of_pos (pos : 0 < cfg.slotDuration) :
    m.readClocks cfg gap now' = .ok (m.instant + gap + (nextBoundary cfg m.now - m.now),
      now' / cfg.slotDuration) := by
  rw [readClocks, timeUntilNextSlot_of_pos pos, slotFromTimestamp, if_neg pos.ne']
  rfl

/-- What an event does to a machine. -/
inductive Stepped (cfg : SlotConfig) (m : SlotMachine) : SlotEvent → SlotMachine → Prop where
  /-- the worker is polled where it cannot go on, or at a delay that is not over -/
  | idle {e : SlotEvent} : Stepped cfg m e m
  | tick {elapsed : Nat} : Stepped cfg m (.tick elapsed) (m.pass elapsed)
  | adjust {now : Nat} : Stepped cfg m (.adjust now) { m with now }
  | crashed {e : SlotEvent} (zero : cfg.slotDuration = 0) :
    Stepped cfg m e { m with task := .crashed }
  | begun {gap : Nat} (pos : 0 < cfg.slotDuration) (htask : m.task = .started) :
    Stepped cfg m (.start gap) { m.pass gap with
      task := .delay (m.instant + gap + (nextBoundary cfg m.now - m.now)) }
  /-- the slot was seen before -/
  | seen {deadline gap gap' gap'' now' now'' : Nat} (pos : 0 < cfg.slotDuration)
    (htask : m.task = .delay deadline) (due : deadline ≤ m.instant)
    (old : now' / cfg.slotDuration ≤ m.lastSlot) :
    Stepped cfg m (.wake gap gap' gap'' now' now'') { m.read (gap + gap') now' with
      task := .delay (m.instant + gap + (nextBoundary cfg m.now - m.now)) }
  /-- the slot is new, and of another authority -/
  | passed {deadline gap gap' gap'' now' now'' slot : Nat} (pos : 0 < cfg.slotDuration)
    (htask : m.task = .delay deadline) (due : deadline ≤ m.instant)
    (hslot : slot = now' / cfg.slotDuration) (new : m.lastSlot < slot)
    (other : cfg.claims slot = false) :
    Stepped cfg m (.wake gap gap' gap'' now' now'') { m.read (gap + gap') now' with
      lastSlot := slot
      task := .delay (m.instant + gap + (nextBoundary cfg m.now - m.now)) }
  /-- the slot is new and the worker's own -/
  | called {deadline gap gap' gap'' now' now'' slot : Nat} (pos : 0 < cfg.slotDuration)
    (htask : m.task = .delay deadline) (due : deadline ≤ m.instant)
    (hslot : slot = now' / cfg.slotDuration) (new : m.lastSlot < slot)
    (own : cfg.claims slot = true) :
    Stepped cfg m (.wake gap gap' gap'' now' now'') { m.read (gap + gap' + gap'') now'' with
      lastSlot := slot
      task := .produceBlock (m.instant + gap + (nextBoundary cfg m.now - m.now))
      calls := m.calls ++ [⟨slot, now''⟩] }
  | returned {deadline : Nat} (htask : m.task = .produceBlock deadline) :
    Stepped cfg m .produced { m with task := .delay deadline }
  | restarted : Stepped cfg m .restart m.restart

lemma stepped_start : Stepped cfg m (.start gap) (m.start cfg gap) := by
  unfold start
  cases htask : m.task with
  | started =>
    rcases Nat.eq_zero_or_pos cfg.slotDuration with zero | pos
    · rw [timeUntilNextSlot, if_pos zero]
      exact .crashed zero
    · rw [timeUntilNextSlot_of_pos pos]
      exact .begun pos htask
  | delay => exact .idle
  | produceBlock => exact .idle
  | crashed => exact .idle

/-- A wake-up is one of the steps. -/
lemma stepped_wake : Stepped cfg m (.wake gap gap' gap'' now' now'')
    (m.wake cfg gap gap' gap'' now' now'') := by
  unfold wake
  cases htask : m.task with
  | delay deadline =>
    dsimp only
    split
    case isTrue => exact .idle
    case isFalse early =>
      have due := Nat.not_lt.mp early
      rcases Nat.eq_zero_or_pos cfg.slotDuration with zero | pos
      · rw [readClocks, timeUntilNextSlot, if_pos zero]
        exact .crashed zero
      · rw [readClocks_of_pos pos]
        dsimp only
        split
        case isTrue new =>
          rw [onSlot]
          split
          case isTrue own =>
            simpa [read, Nat.add_assoc] using Stepped.called pos htask due rfl new own
          case isFalse other =>
            exact .passed pos htask due rfl new (Bool.eq_false_iff.mpr other)
        case isFalse old => exact .seen pos htask due (Nat.not_lt.mp old)
  | started => exact .idle
  | produceBlock => exact .idle
  | crashed => exact .idle

lemma stepped_produced : Stepped cfg m .produced m.produced := by
  unfold produced
  cases htask : m.task with
  | produceBlock deadline => exact .returned htask
  | delay => exact .idle
  | started => exact .idle
  | crashed => exact .idle

lemma stepped_step (e : SlotEvent) : Stepped cfg m e (m.step cfg e) := by
  cases e with
  | tick => exact .tick
  | adjust => exact .adjust
  | start => exact stepped_start
  | wake => exact stepped_wake
  | produced => exact stepped_produced
  | restart => exact .restarted

/-! ## The calls of one machine -/

lemma slot_mul_le {slot now d : Nat} (h : slot = now / d) : slot * d ≤ now :=
  h ▸ Nat.div_mul_le_self now d

/-- When a call is made, the system time is set back since the slot was read by no more than a given
time. It may be set in any way otherwise. -/
def SetBack (δ : Nat) (_ : SlotMachine) : SlotEvent → Prop
  | .wake _ _ _ now' now'' => now' ≤ now'' + δ
  | _ => True

/-- Every call is for a slot of the worker, and not before the slot begins but for a set-back of the
clock. -/
def Honest (cfg : SlotConfig) (δ : Nat) (m : SlotMachine) : Prop :=
  ∀ call ∈ m.calls, cfg.claims call.slot = true ∧
    call.slot * cfg.slotDuration ≤ call.timestamp + δ

variable {e : SlotEvent}

lemma Honest.step {δ : Nat} (h : m.Honest cfg δ) (back : m.SetBack δ e) :
    (m.step cfg e).Honest cfg δ := by
  generalize hm' : m.step cfg e = m'
  have hstep : Stepped cfg m e m' := hm' ▸ stepped_step e
  cases hstep with
  | called pos _ _ hslot _ own =>
    intro call mem
    rcases List.mem_append.mp mem with old | new
    · exact h call old
    · cases List.mem_singleton.mp new
      exact ⟨own, (slot_mul_le hslot).trans back⟩
  | _ => exact h

/-- The calls are in the order of their slots, none is for a slot that has not begun, and the next
delay ends in a slot without a call or the worker knows the slot. -/
structure Orderly (cfg : SlotConfig) (m : SlotMachine) : Prop where
  sorted : m.calls.Pairwise (·.slot < ·.slot)
  past : ∀ call ∈ m.calls, call.slot * cfg.slotDuration ≤ m.now
  ahead : ∀ deadline, m.task.deadline? = some deadline →
    ∃ slot, slot * cfg.slotDuration + m.instant ≤ deadline + m.now ∧
      ∀ call ∈ m.calls, call.slot < slot ∨ call.slot ≤ m.lastSlot

/-- The system time is never set back. -/
def Steady (m : SlotMachine) : SlotEvent → Prop
  | .adjust now => m.now ≤ now
  | .wake gap gap' gap'' now' now'' => m.now + gap + gap' ≤ now' ∧ now' + gap'' ≤ now''
  | _ => True

/-- A clock that is never set back is not set back by a call. -/
lemma Steady.setBack (h : m.Steady e) : m.SetBack 0 e := by
  cases e with
  | wake => exact (Nat.le_add_right _ _).trans h.2
  | _ => trivial

/-- A new delay ends after the current slot. -/
lemma le_next_delay {elapsed now : Nat} (pos : 0 < cfg.slotDuration) (h : m.now + elapsed ≤ now) :
    nextBoundary cfg m.now + (m.instant + elapsed) ≤
      m.instant + gap + (nextBoundary cfg m.now - m.now) + now := by
  have lt := @lt_nextBoundary cfg m.now pos
  omega

/-- Every event keeps the worker orderly. -/
lemma Orderly.step (h : m.Orderly cfg) (steady : m.Steady e) :
    (m.step cfg e).Orderly cfg := by
  have later {now} (le : m.now ≤ now) : ∀ call ∈ m.calls, call.slot * cfg.slotDuration ≤ now :=
    fun call mem => (h.past call mem).trans le
  have before (pos : 0 < cfg.slotDuration) : ∀ call ∈ m.calls,
      call.slot < m.now / cfg.slotDuration + 1 :=
    fun call mem => Nat.lt_succ_of_le ((Nat.le_div_iff_mul_le pos).mpr (h.past call mem))
  generalize hm' : m.step cfg e = m'
  have hstep : Stepped cfg m e m' := hm' ▸ stepped_step e
  clear hm'
  cases hstep with
  | idle => exact h
  | tick =>
    refine ⟨h.sorted, later (Nat.le_add_right _ _), fun deadline hd => ?_⟩
    obtain ⟨slot, hslot, hcalls⟩ := h.ahead deadline hd
    refine ⟨slot, ?_, hcalls⟩
    simp only [pass]
    omega
  | adjust =>
    refine ⟨h.sorted, later steady, fun deadline hd => ?_⟩
    obtain ⟨slot, hslot, hcalls⟩ := h.ahead deadline hd
    exact ⟨slot, hslot.trans (Nat.add_le_add_left steady _), hcalls⟩
  | crashed => exact ⟨h.sorted, h.past, nofun⟩
  | begun pos =>
    refine ⟨h.sorted, later (Nat.le_add_right _ _), fun deadline hd => ?_⟩
    cases hd
    exact ⟨_, le_next_delay pos le_rfl, fun call mem => .inl (before pos call mem)⟩
  | @seen _ gap gap' _ now' _ pos =>
    obtain ⟨hread, _⟩ := steady
    refine ⟨h.sorted, later (show m.now ≤ now' by omega), fun deadline hd => ?_⟩
    cases hd
    rw [Nat.add_assoc] at hread
    exact ⟨_, le_next_delay pos hread, fun call mem => .inl (before pos call mem)⟩
  | @passed _ gap gap' _ now' _ _ pos =>
    obtain ⟨hread, _⟩ := steady
    refine ⟨h.sorted, later (show m.now ≤ now' by omega), fun deadline hd => ?_⟩
    cases hd
    rw [Nat.add_assoc] at hread
    exact ⟨_, le_next_delay pos hread, fun call mem => .inl (before pos call mem)⟩
  | @called _ gap gap' gap'' now' now'' newSlot pos htask due hslot new own =>
    obtain ⟨hread, hcalled⟩ := steady
    have hlater : now' ≤ now'' := (Nat.le_add_right _ _).trans hcalled
    refine ⟨?_, fun call mem => ?_, fun deadline hd => ?_⟩
    · refine List.pairwise_append.mpr ⟨h.sorted, List.pairwise_singleton _ _, ?_⟩
      intro call mem call' mem'
      cases List.mem_singleton.mp mem'
      -- the delay was over, so the slot at its end has begun
      obtain ⟨slot, hahead, hcalls⟩ := h.ahead _ (congrArg SlotTask.deadline? htask)
      have hbegun : slot * cfg.slotDuration ≤ now' := by omega
      have hle : slot ≤ newSlot := hslot ▸ (Nat.le_div_iff_mul_le pos).mpr hbegun
      rcases hcalls call mem with lt | le
      · exact lt.trans_le hle
      · exact le.trans_lt new
    · rcases List.mem_append.mp mem with old | last
      · exact later (show m.now ≤ now'' by omega) call old
      · cases List.mem_singleton.mp last
        exact (slot_mul_le hslot).trans hlater
    · cases hd
      refine ⟨_, le_next_delay pos (show m.now + (gap + gap' + gap'') ≤ now'' by omega),
        fun call mem => ?_⟩
      rcases List.mem_append.mp mem with old | last
      · exact .inl (before pos call old)
      · cases List.mem_singleton.mp last
        exact .inr le_rfl
  | returned htask =>
    refine ⟨h.sorted, h.past, fun deadline hd => h.ahead deadline ?_⟩
    rw [htask]
    exact hd
  | restarted => exact ⟨h.sorted, h.past, nofun⟩

lemma orderly_boot {instant now : Nat} : (boot instant now).Orderly cfg :=
  ⟨.nil, nofun, nofun⟩

/-! ## Slots in time -/

/-- A call in time gives a block that every node accepts at its slot, if a slot takes about a second
longer than the clock is set back: the timestamp of a block is in seconds. -/
lemma checkSlot_of_call {A : Aura} {b : SignedConsensusBlock} {call : SlotCall} {δ : Nat}
    (hlong : 999 + δ ≤ A.slotDuration) (hcall : call.slot * A.slotDuration ≤ call.timestamp + δ)
    (hbound : call.timestamp < 2 ^ 64) (hauthors : A.authorities ≠ [])
    (hslot : b.message.slot = call.slot)
    (htime : b.message.executionPayload.timestamp = call.timestamp / 1000) :
    A.checkSlot b = .ok () := by
  have pos : 0 < A.slotDuration := by omega
  -- rounding the timestamp down takes back one slot at most
  have hseconds : call.timestamp / 1000 * 1000 % 2 ^ 64 = call.timestamp / 1000 * 1000 :=
    Nat.mod_eq_of_lt (by omega)
  have hdrift : call.slot ≤ call.timestamp / 1000 * 1000 / A.slotDuration + 1 := by
    rw [← Nat.add_div_right _ pos, Nat.le_div_iff_mul_le pos]
    omega
  have hlt : call.timestamp / 1000 * 1000 / A.slotDuration + 1 < 2 ^ 64 := by
    have hle : call.timestamp / 1000 * 1000 / A.slotDuration ≤ call.timestamp / 1000 * 1000 / 999 :=
      Nat.div_le_div_left (Nat.le_of_add_right_le hlong) (by decide)
    omega
  have hauthor : (slotAuthor call.slot A.authorities).isNone = false := by
    have lt := Nat.mod_lt call.slot (List.length_pos_iff.mpr hauthors)
    rw [slotAuthor, List.getElem?_eq_getElem lt]
    rfl
  simp only [Aura.checkSlot, hslot, htime, hseconds, slotFromTimestamp, if_neg pos.ne', bind,
    Except.bind, OfNat.ofNat_ne_zero, if_false, checkedU64_of_lt hlt, Nat.not_lt.mpr hdrift,
    false_and, hauthor, Bool.false_eq_true]

/-- However its clock is set and however often it is started again, the blocks of a worker pass the
slot check of every node, if a slot takes about a second longer than the clock is set back between
the reading of the slot and that of the timestamp. -/
theorem calls_pass_checkSlot {A : Aura} {b : SignedConsensusBlock} {call : SlotCall}
    {instant now δ : Nat} (hdur : A.slotDuration = cfg.slotDuration)
    (hauthors : A.authorities = cfg.authorities) (hlong : 999 + δ ≤ cfg.slotDuration)
    (run : Run (step cfg) (SetBack δ) (boot instant now) m) (mem : call ∈ m.calls)
    (hbound : call.timestamp < 2 ^ 64) (hslot : b.message.slot = call.slot)
    (htime : b.message.executionPayload.timestamp = call.timestamp / 1000) :
    A.checkSlot b = .ok () := by
  have honest : m.Honest cfg δ := run.invariant nofun fun _ _ h back => h.step back
  obtain ⟨own, intime⟩ := honest call mem
  refine checkSlot_of_call (hdur ▸ hlong) (hdur ▸ intime) hbound ?_ hslot htime
  intro empty
  obtain ⟨_, hauthor, _⟩ := SlotConfig.claims_iff.mp own
  rw [← hauthors, empty] at hauthor
  cases hauthor

/-- One of two workers. -/
def toyConfig (slotDuration : Nat) (second : Bool) : SlotConfig where
  slotDuration
  authorities := [[0], [1]]
  maybeSigner := some [if second then 1 else 0]

/-- A worker that wakes in the first slot after the one it was started in, with a timestamp. -/
def toyWoken (slotDuration timestamp : Nat) : List SlotEvent :=
  [.start 0, .tick slotDuration, .wake 0 0 0 slotDuration timestamp]

/-- The clock is set back by a second in a slot of two seconds. -/
theorem calls_pass_checkSlot_set_back :
    ((toyWoken 2000 1000).foldl (fun m e => m.step (toyConfig 2000 true) e) (boot 0 0)).calls =
        [⟨1, 1000⟩] ∧
      ∀ b : SignedConsensusBlock, b.message.slot = 1 →
        b.message.executionPayload.timestamp = 1 →
        (Aura.mk [[0], [1]] 2000 none).checkSlot b = .ok () := by
  have run : Run (step (toyConfig 2000 true)) (SetBack 1000) (boot 0 0)
      ((toyWoken 2000 1000).foldl (fun m e => m.step (toyConfig 2000 true) e) (boot 0 0)) := by
    refine Run.ofList fun e he _ => ?_
    simp only [toyWoken, List.mem_cons, List.not_mem_nil, or_false] at he
    rcases he with rfl | rfl | rfl
    · trivial
    · trivial
    · exact le_rfl
  refine ⟨by decide, fun b hslot htime => ?_⟩
  have mem : ⟨1, 1000⟩ ∈ ((toyWoken 2000 1000).foldl
      (fun m e => m.step (toyConfig 2000 true) e) (boot 0 0)).calls := by decide
  exact calls_pass_checkSlot rfl rfl (by decide) run mem (by decide) hslot htime

/-! ## A federation -/

section Federation

variable {ι : Type} [DecidableEq ι] {cfg : ι → SlotConfig}

/-- The runs of workers on machines of their own, whose clocks are never set back. -/
abbrev FederationRun (cfg : ι → SlotConfig) : (ι → SlotMachine) → (ι → SlotMachine) → Prop :=
  Run (familyStep fun i => step (cfg i)) fun f e => (f e.1).Steady e.2

/-- No slot has two calls: whenever the workers wake and however often they are started again, two
calls for one slot are the same call of the same worker. -/
theorem one_call_per_slot {authorities : List PublicKey} {f g : ι → SlotMachine}
    (hauthors : ∀ i, (cfg i).authorities = authorities)
    (distinct : ∀ i j key, (cfg i).maybeSigner = some key → (cfg j).maybeSigner = some key → i = j)
    (init : ∀ i, ∃ instant now, f i = boot instant now) (run : FederationRun cfg f g) {i j : ι}
    {k l : Nat} {call call' : SlotCall} (hcall : (g i).calls[k]? = some call)
    (hcall' : (g j).calls[l]? = some call') (hslot : call.slot = call'.slot) : i = j ∧ k = l := by
  have inv (i) : (g i).Orderly (cfg i) ∧ (g i).Honest (cfg i) 0 := by
    have start : (f i).Orderly (cfg i) ∧ (f i).Honest (cfg i) 0 := by
      obtain ⟨instant, now, e⟩ := init i
      rw [e]
      exact ⟨orderly_boot, nofun⟩
    exact (run.component i).invariant (I := fun m => m.Orderly (cfg i) ∧ m.Honest (cfg i) 0) start
      fun _ _ h ok => ⟨h.1.step ok, h.2.step ok.setBack⟩
  obtain ⟨key, hauthor, hkey⟩ :=
    SlotConfig.claims_iff.mp ((inv i).2 call (List.mem_of_getElem? hcall)).1
  obtain ⟨key', hauthor', hkey'⟩ :=
    SlotConfig.claims_iff.mp ((inv j).2 call' (List.mem_of_getElem? hcall')).1
  have hsame : key = key' := by
    rw [hauthors, hslot] at hauthor
    rw [hauthors, hauthor] at hauthor'
    exact Option.some.inj hauthor'
  subst hsame
  obtain rfl := distinct i j key hkey hkey'
  refine ⟨rfl, ?_⟩
  have nodup : ((g i).calls.map (·.slot)).Nodup :=
    (List.pairwise_map.mpr (inv i).1.sorted).imp Nat.ne_of_lt
  have lt : k < ((g i).calls.map (·.slot)).length := by
    rw [List.length_map]
    exact (List.getElem?_eq_some_iff.mp hcall).1
  refine (List.getElem?_inj lt nodup).mp ?_
  rw [List.getElem?_map, List.getElem?_map, hcall, hcall', Option.map_some, Option.map_some, hslot]

/-- Both workers wake in slot 1, and the author of the slot is started again. -/
def toyFederation : Bool → SlotMachine :=
  [(false, .start 0), (true, .start 0), (false, .tick 1000), (true, .tick 1000),
    (false, .wake 0 0 0 1000 1000), (true, .wake 0 0 0 1000 1000), (true, .restart),
    (true, .start 0), (true, .tick 500), (true, .wake 0 0 0 1500 1500)].foldl
    (fun f e => familyStep (fun i => step (toyConfig 1000 i)) e f) fun _ => boot 0 0

/-- Two workers, of which one claims the slot. -/
theorem one_call_per_slot_two_workers :
    (toyFederation true).calls = [⟨1, 1000⟩] ∧
      ∀ j l call', (toyFederation j).calls[l]? = some call' → 1 = call'.slot →
        true = j ∧ 0 = l := by
  have hcall : (toyFederation true).calls[0]? = some ⟨1, 1000⟩ := by decide
  have begun : FederationRun (toyConfig 1000) (fun _ => boot 0 0) _ :=
    (Run.refl.snoc (false, SlotEvent.start 0) trivial).snoc (true, SlotEvent.start 0) trivial
  have ticked := (begun.snoc (false, SlotEvent.tick 1000) trivial).snoc
    (true, SlotEvent.tick 1000) trivial
  have woken := (ticked.snoc (false, .wake 0 0 0 1000 1000) ⟨by decide, by decide⟩).snoc
    (true, .wake 0 0 0 1000 1000) ⟨by decide, by decide⟩
  have again := ((woken.snoc (true, SlotEvent.restart) trivial).snoc
    (true, SlotEvent.start 0) trivial).snoc (true, SlotEvent.tick 500) trivial
  have run : FederationRun (toyConfig 1000) (fun _ => boot 0 0) toyFederation :=
    again.snoc (true, .wake 0 0 0 1500 1500) ⟨by decide, by decide⟩
  have hauthors : ∀ i, (toyConfig 1000 i).authorities = [[0], [1]] := fun _ => rfl
  have distinct : ∀ i j, (toyConfig 1000 i).maybeSigner = (toyConfig 1000 j).maybeSigner → i = j :=
    by decide
  refine ⟨by decide, fun j l call' hcall' hslot => ?_⟩
  exact one_call_per_slot hauthors (fun i j _ hi hj => distinct i j (hi.trans hj.symm))
    (fun _ => ⟨0, 0, rfl⟩) run hcall hcall' hslot

end Federation

/-! ## A worker that is polled in time -/

/-- The worker goes on at most `latency` after each deadline, its readings of the clocks take no
longer, and it is neither disturbed nor started again. -/
def Prompt (latency : Nat) (m : SlotMachine) : SlotEvent → Prop
  | .tick elapsed =>
    ∀ deadline, m.task.deadline? = some deadline → m.instant + elapsed ≤ deadline + latency
  | .adjust _ => False
  | .start gap => gap ≤ latency
  | .wake gap gap' gap'' now' now'' =>
    gap + gap' + gap'' ≤ latency ∧ now' = m.now + (gap + gap') ∧
      now'' = m.now + (gap + gap' + gap'')
  | .produced => True
  | .restart => False

/-- The worker has visited the first `k` slots after `first`, the last of which has begun, and waits
for the next one, or is still producing in the last. -/
structure Punctual (cfg : SlotConfig) (latency first k deadline : Nat) (m : SlotMachine) :
    Prop where
  waits : m.task.deadline? = some deadline
  fresh : m.lastSlot < first + k + 1
  begun : (first + k) * cfg.slotDuration ≤ m.now
  begins : (first + k + 1) * cfg.slotDuration + m.instant ≤ deadline + m.now
  ends : deadline + m.now ≤ (first + k + 1) * cfg.slotDuration + latency + m.instant
  inTime : m.instant ≤ deadline + latency
  calls : m.calls.map (·.slot) = (List.range' (first + 1) k).filter cfg.claims

section

variable {latency first k deadline : Nat} (h : m.Punctual cfg latency first k deadline)

include h

lemma Punctual.now_le :
    m.now ≤ (first + k + 1) * cfg.slotDuration + 2 * latency := by
  have := h.ends
  have := h.inTime
  omega

/-- A delay that is over ends in the slot it was made for. -/
lemma Punctual.slot_eq {elapsed : Nat} (hlat : 3 * latency < cfg.slotDuration)
    (due : deadline ≤ m.instant) (le : elapsed ≤ latency) :
    (m.now + elapsed) / cfg.slotDuration = first + k + 1 := by
  have hnow := h.now_le
  have hbegins := h.begins
  refine Nat.div_eq_of_lt_le ?_ ?_
  · omega
  · rw [Nat.add_mul (first + k + 1), Nat.one_mul]
    omega

/-- The worker has visited one slot more. -/
lemma Punctual.next {elapsed : Nat} {m' : SlotMachine} (hlat : 3 * latency < cfg.slotDuration)
    (due : deadline ≤ m.instant) (hgap : gap ≤ elapsed) (le : elapsed ≤ latency)
    (htask : m'.task.deadline? =
      some (m.instant + gap + (nextBoundary cfg m.now - m.now)))
    (hlast : m'.lastSlot = first + k + 1) (hinstant : m'.instant = m.instant + elapsed)
    (hnow : m'.now = m.now + elapsed)
    (hcalls : m'.calls.map (·.slot) = m.calls.map (·.slot) ++ [first + k + 1].filter cfg.claims) :
    ∃ k' deadline', m'.Punctual cfg latency first k' deadline' := by
  have hslot := h.slot_eq hlat due (Nat.zero_le latency)
  have hboundary : nextBoundary cfg m.now = (first + (k + 1) + 1) * cfg.slotDuration := by
    rw [nextBoundary, ← Nat.add_zero m.now, hslot, Nat.add_assoc first k 1]
  have lt := @lt_nextBoundary cfg m.now (by omega)
  refine ⟨k + 1, _, htask, by omega, ?_, ?_, ?_, by omega, ?_⟩
  · have hbegun := Nat.div_mul_le_self (m.now + 0) cfg.slotDuration
    rw [hslot, Nat.add_assoc first k 1] at hbegun
    omega
  · rw [← hboundary]
    omega
  · rw [← hboundary]
    omega
  · rw [hcalls, h.calls, List.range'_1_concat, List.filter_append, Nat.add_right_comm first 1 k]

lemma Punctual.deadline_eq {deadline' : Nat} (htask : m.task = .delay deadline') :
    deadline' = deadline := by
  have hwaits := h.waits
  rw [htask] at hwaits
  exact Option.some.inj hwaits

/-- A prompt event keeps the worker punctual. -/
lemma Punctual.step {e : SlotEvent} (hlat : 3 * latency < cfg.slotDuration)
    (prompt : m.Prompt latency e) :
    ∃ k' deadline', (m.step cfg e).Punctual cfg latency first k' deadline' := by
  generalize hm' : m.step cfg e = m'
  have hstep : Stepped cfg m e m' := hm' ▸ stepped_step e
  clear hm'
  cases hstep with
  | idle => exact ⟨k, deadline, h⟩
  | tick =>
    refine ⟨k, deadline, h.waits, h.fresh, h.begun.trans (Nat.le_add_right _ _), ?_, ?_,
      prompt deadline h.waits, h.calls⟩
    · have hbegins := h.begins
      simp only [pass]
      omega
    · have hends := h.ends
      simp only [pass]
      omega
  | adjust => cases prompt
  | crashed zero => omega
  | begun pos htask =>
    have hwaits := h.waits
    rw [htask] at hwaits
    cases hwaits
  | seen pos htask due old =>
    obtain rfl := h.deadline_eq htask
    obtain ⟨hlatency, rfl, _⟩ := prompt
    have hslot := h.slot_eq hlat due ((Nat.le_add_right _ _).trans hlatency)
    have hfresh := h.fresh
    omega
  | passed pos htask due hslot new other =>
    obtain rfl := h.deadline_eq htask
    obtain ⟨hlatency, rfl, _⟩ := prompt
    have hle := (Nat.le_add_right _ _).trans hlatency
    rw [h.slot_eq hlat due hle] at hslot
    subst hslot
    refine h.next hlat due (Nat.le_add_right _ _) hle rfl rfl rfl rfl ?_
    rw [List.filter_singleton, other]
    exact (List.append_nil _).symm
  | called pos htask due hslot new own =>
    obtain rfl := h.deadline_eq htask
    obtain ⟨hlatency, rfl, rfl⟩ := prompt
    have hle := (Nat.le_add_right _ _).trans hlatency
    rw [h.slot_eq hlat due hle] at hslot
    subst hslot
    refine h.next hlat due (Nat.le_add_right _ _ |>.trans (Nat.le_add_right _ _)) hlatency rfl rfl
      rfl rfl ?_
    rw [List.filter_singleton, own]
    exact List.map_append
  | returned htask =>
    have hwaits := h.waits
    rw [htask] at hwaits
    exact ⟨k, deadline, hwaits, h.fresh, h.begun, h.begins, h.ends, h.inTime, h.calls⟩
  | restarted => cases prompt

end

/-- A worker that starts is punctual. -/
lemma punctual_start {latency instant now : Nat} (pos : 0 < cfg.slotDuration)
    (hgap : gap ≤ latency) :
    ((boot instant now).start cfg gap).Punctual cfg latency (now / cfg.slotDuration) 0
      (instant + gap + (nextBoundary cfg now - now)) := by
  have lt := @lt_nextBoundary cfg now pos
  have hboundary : (now / cfg.slotDuration + 0 + 1) * cfg.slotDuration = nextBoundary cfg now := rfl
  rw [start, boot]
  dsimp only
  rw [timeUntilNextSlot_of_pos pos]
  refine ⟨rfl, Nat.succ_pos _, ?_, ?_, ?_, ?_, rfl⟩
  · exact (Nat.div_mul_le_self now _).trans (Nat.le_add_right _ _)
  · rw [hboundary]
    simp only [pass]
    omega
  · rw [hboundary]
    simp only [pass]
    omega
  · simp only [pass]
    omega

/-- A worker that is polled in time misses no slot: its calls are for its own slots among all those
after the one it was started in, up to the current slot or the one before. -/
theorem own_slots_called {latency instant now : Nat} (hlat : 3 * latency < cfg.slotDuration)
    (hgap : gap ≤ latency)
    (run : Run (step cfg) (Prompt latency) ((boot instant now).start cfg gap) m) :
    ∃ last, last ≤ m.now / cfg.slotDuration ∧ m.now / cfg.slotDuration ≤ last + 1 ∧
      m.calls.map (·.slot) =
        (List.range' (now / cfg.slotDuration + 1) (last - now / cfg.slotDuration)).filter
          cfg.claims := by
  have pos : 0 < cfg.slotDuration := by omega
  have init : ∃ k deadline, ((boot instant now).start cfg gap).Punctual cfg latency
      (now / cfg.slotDuration) k deadline := ⟨0, _, punctual_start pos hgap⟩
  obtain ⟨k, deadline, h⟩ := run.invariant
    (I := fun m => ∃ k deadline, m.Punctual cfg latency (now / cfg.slotDuration) k deadline) init
    fun _ _ ⟨_, _, h⟩ ok => h.step hlat ok
  refine ⟨now / cfg.slotDuration + k, (Nat.le_div_iff_mul_le pos).mpr h.begun, ?_, ?_⟩
  · have hnow := h.now_le
    refine Nat.lt_succ_iff.mp ((Nat.div_lt_iff_lt_mul pos).mpr ?_)
    rw [Nat.succ_mul]
    omega
  · rw [h.calls, Nat.add_sub_cancel_left]

theorem own_slots_called_first_slot :
    ∃ last ≤ 1, 1 ≤ last + 1 ∧
      [1] = (List.range' 1 last).filter (toyConfig 1000 true).claims := by
  have begun : Run (step (toyConfig 1000 true)) (Prompt 100)
      ((boot 0 0).start (toyConfig 1000 true) 0)
      ((boot 0 0).start (toyConfig 1000 true) 0) := .refl
  have ticked := begun.snoc (.tick 1000) (by
    intro deadline hd
    cases hd
    decide)
  have woken := ticked.snoc (.wake 0 0 0 1000 1000) ⟨show 0 ≤ 100 by decide, rfl, rfl⟩
  exact own_slots_called (by decide) (by decide) woken

end SlotMachine

end Alys

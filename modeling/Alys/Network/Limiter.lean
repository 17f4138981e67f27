import Alys.Lib.Action
import Alys.Lib.Gcra
import Alys.Lib.Maps
import Alys.Network.Requests

/-!
# The rate limiter

Model of `app/src/network/rpc/rate_limiter.rs` and of the default quotas of `config.rs`. A limiter
meters the tokens of each key by the generic cell rate algorithm, and the limiter of the RPC
protocol has one for each kind of request. A duration is a number of nanoseconds. The code converts
it to `u64` and computes in `u64`; the arithmetic is a parameter here (`NanoArith`), so that what
holds apart from overflows can be said too.

`Limiter.allows_eq` says what a call does. From it follow the bound on the tokens that are allowed
within a period (`allows_rateBound`), for which requests the call panics (`allows_exact_iff`), and
that pruning cannot be observed (`prune_unobservable`).
-/

namespace Alys
open Lib

/-! ## The code -/

/-- `Quota`: tokens in nanoseconds. -/
structure Quota where
  replenishAllEvery : Nat
  maxTokens : Nat
  deriving DecidableEq

/-- `Quota::n_every`, of a number of seconds. -/
def Quota.nEvery (n seconds : Nat) : Quota := ⟨seconds * 10 ^ 9, n⟩

/-- `Quota::one_every`. -/
def Quota.oneEvery (seconds : Nat) : Quota := ⟨seconds * 10 ^ 9, 1⟩

inductive RateLimitedErr where
  | tooLarge
  /-- with the time to wait -/
  | tooSoon (wait : Nat)
  deriving DecidableEq

/-- How nanoseconds are computed with: what a duration is converted to, and which results of an
addition or a multiplication there are. A result that does not fit is a panic. -/
structure NanoArith where
  cast : Nat → Nat
  fits : Nat → Bool
  fits_mono : ∀ {m n}, m ≤ n → fits n = true → fits m = true

/-- The arithmetic of the code: `as u64` drops the upper bits. -/
def NanoArith.u64 : NanoArith where
  cast n := n % 2 ^ 64
  fits n := n < 2 ^ 64
  fits_mono := by
    intro m n le h
    simp only [decide_eq_true_eq] at h ⊢
    omega

/-- Arithmetic without wrap-around. -/
def NanoArith.unbounded : NanoArith := ⟨id, fun _ => true, fun _ _ => rfl⟩

/-- The result of an addition or a multiplication. -/
def NanoArith.result (A : NanoArith) (n : Nat) : Except (Fault RateLimitedErr) Nat :=
  if A.fits n then .ok n else .error .panic

structure Limiter (K : Type) where
  /-- after how long the bucket is full -/
  tau : Nat
  /-- how often a token is replenished -/
  t : Nat
  tatPerKey : Map K Nat

namespace Limiter

variable {K : Type} [DecidableEq K]

/-- `u128::try_into::<u64>`, with the error of `from_quota`. -/
def tryIntoU64 (n : Nat) : Except String Nat :=
  if n < 2 ^ 64 then .ok n else .error "total replenish time is too long"

def fromQuota (quota : Quota) : Except String (Limiter K) := do
  if quota.maxTokens = 0 then
    throw "Max number of tokens should be positive"
  let tau := quota.replenishAllEvery
  if tau = 0 then
    throw "Replenish time must be positive"
  let t ← tryIntoU64 (tau / quota.maxTokens)
  let tau ← tryIntoU64 tau
  return ⟨tau, t, ∅⟩

/-- Writes the theoretical arrival time of a key. -/
def setTat (key : K) (tat : Nat) (l : Limiter K) : Limiter K :=
  { l with tatPerKey := l.tatPerKey.insert key tat }

/-- `Limiter::allows`. A new key is recorded with the current time. -/
def allows (A : NanoArith) (timeSinceStart : Nat) (key : K) (tokens : Nat) :
    Action (Limiter K) (Fault RateLimitedErr) Unit := do
  let timeSinceStart := A.cast timeSinceStart
  let l ← Action.get
  let additionalTime ← Action.lift (A.result (l.t * tokens))
  if l.tau < additionalTime then
    Action.fail (.error .tooLarge)
  else do
    let tat := (l.tatPerKey.lookup key).getD timeSinceStart
    Action.modify (setTat key tat)
    let sum ← Action.lift (A.result (tat + additionalTime))
    let earliestTime := sum - l.tau
    if timeSinceStart < earliestTime then
      Action.fail (.error (.tooSoon (earliestTime - timeSinceStart)))
    else do
      let next ← Action.lift (A.result (max timeSinceStart tat + additionalTime))
      Action.modify (setTat key next)

/-- `Limiter::prune`: keeps the keys whose arrival time is not before the limit. -/
def prune (A : NanoArith) (timeLimit : Nat) (l : Limiter K) : Limiter K :=
  let lim := A.cast timeLimit
  { l with tatPerKey := retain (fun _ tat => lim ≤ tat) l.tatPerKey }

end Limiter

/-! ### The limiter of the RPC protocol -/

/-- `RateLimiterConfig`. -/
structure RateLimiterConfig where
  pingQuota : Quota
  metaDataQuota : Quota
  statusQuota : Quota
  goodbyeQuota : Quota
  blocksByRangeQuota : Quota

/-- `MAX_REQUEST_BLOCKS`. -/
def maxRequestBlocks : Nat := 1024

/-- `RateLimiterConfig::default`. -/
def RateLimiterConfig.default : RateLimiterConfig where
  pingQuota := .nEvery 2 10
  metaDataQuota := .nEvery 2 5
  statusQuota := .nEvery 5 15
  goodbyeQuota := .oneEvery 10
  blocksByRangeQuota := .nEvery maxRequestBlocks 10

/-- `RPCRateLimiter`, without the times of its creation and of its pruning. -/
structure RPCRateLimiter where
  goodbyeRl : Limiter PeerId
  pingRl : Limiter PeerId
  metadataRl : Limiter PeerId
  statusRl : Limiter PeerId
  bbrangeRl : Limiter PeerId

namespace RPCRateLimiter

/-- `RPCRateLimiter::new_with_config`. The builder that it goes through has a quota for every
protocol, so that its own checks succeed. -/
def newWithConfig (config : RateLimiterConfig) : Except String RPCRateLimiter := do
  let pingRl ← Limiter.fromQuota config.pingQuota
  let metadataRl ← Limiter.fromQuota config.metaDataQuota
  let statusRl ← Limiter.fromQuota config.statusQuota
  let goodbyeRl ← Limiter.fromQuota config.goodbyeQuota
  let bbrangeRl ← Limiter.fromQuota config.blocksByRangeQuota
  return { goodbyeRl, pingRl, metadataRl, statusRl, bbrangeRl }

/-- The limiter of a protocol. -/
def limiter (protocol : Protocol) (r : RPCRateLimiter) : Limiter PeerId :=
  match protocol with
  | .ping => r.pingRl
  | .status => r.statusRl
  | .metaData => r.metadataRl
  | .goodbye => r.goodbyeRl
  | .blocksByRange => r.bbrangeRl

/-- Replaces the limiter of a protocol. -/
def setLimiter (protocol : Protocol) (l : Limiter PeerId) (r : RPCRateLimiter) : RPCRateLimiter :=
  match protocol with
  | .ping => { r with pingRl := l }
  | .status => { r with statusRl := l }
  | .metaData => { r with metadataRl := l }
  | .goodbye => { r with goodbyeRl := l }
  | .blocksByRange => { r with bbrangeRl := l }

/-- `RPCRateLimiter::allows`, with the time since the limiter was created. -/
def allows (timeSinceStart : Nat) (peerId : PeerId) (request : RPCRequest) :
    Action RPCRateLimiter (Fault RateLimitedErr) Unit :=
  let tokens := max request.expectedResponses 1
  Action.zoom (limiter request.protocol) (setLimiter request.protocol) id
    (Limiter.allows .u64 timeSinceStart peerId tokens)

/-- `RPCRateLimiter::prune`. -/
def prune (timeSinceStart : Nat) (r : RPCRateLimiter) : RPCRateLimiter where
  pingRl := r.pingRl.prune .u64 timeSinceStart
  statusRl := r.statusRl.prune .u64 timeSinceStart
  metadataRl := r.metadataRl.prune .u64 timeSinceStart
  goodbyeRl := r.goodbyeRl.prune .u64 timeSinceStart
  bbrangeRl := r.bbrangeRl.prune .u64 timeSinceStart

end RPCRateLimiter

/-! ## What a call does -/

namespace Limiter

variable {K : Type} [DecidableEq K] {A : NanoArith} {l : Limiter K} {key key' : K}
  {time tokens tat : Nat}

lemma lookup_setTat :
    (l.setTat key tat).tatPerKey.lookup key' =
      if key' = key then some tat else l.tatPerKey.lookup key' := by
  unfold setTat
  split
  case isTrue eq => rw [eq, Finmap.lookup_insert]
  case isFalse ne => rw [Finmap.lookup_insert_of_ne _ ne]

lemma setTat_setTat {tat' : Nat} : (l.setTat key tat).setTat key tat' = l.setTat key tat' := by
  simp only [setTat, Finmap.insert_insert]

/-- The arrival time of a key at a time: a new key counts as one whose arrival time is now. -/
def tatAt (l : Limiter K) (key : K) (now : Nat) : Nat := (l.tatPerKey.lookup key).getD now

/-- A batch that fits in the bucket of a key whose arrival time has passed does not come too soon.
-/
lemma not_tooSoon {now cost tau : Nat} (le : cost ≤ tau) (hsum : A.fits (tat + cost) = true)
    (hmax : A.fits (max now tat + cost) = false) : ¬ now < tat + cost - tau := by
  intro soon
  have hle : max now tat = tat := Nat.max_eq_right (by omega)
  rw [hle, hsum] at hmax
  cases hmax

/-- A call panics if the cost does not fit or, for a batch that fits in the bucket, if the arrival
time after it does not. Otherwise it answers as the meter of its key does. -/
lemma allows_eq {now cost : Nat} (hnow : A.cast time = now) (hcost : l.t * tokens = cost)
    (htat : l.tatAt key now = tat) :
    allows A time key tokens l =
      if A.fits cost = false then (.error .panic, l)
      else if l.tau < cost then (.error (.error .tooLarge), l)
      else if A.fits (max now tat + cost) = false then (.error .panic, l.setTat key tat)
      else
        match Gcra.arrive l.tau now cost tat with
        | .error wait => (.error (.error (.tooSoon wait)), l.setTat key tat)
        | .ok next => (.ok (), l.setTat key next) := by
  unfold tatAt at htat
  simp only [allows, Action.bind_apply, Action.get_apply, Action.lift_apply, hnow, hcost, htat,
    Action.ite_apply, Action.fail_apply, Action.modify_apply]
  cases hfits : A.fits cost with
  | false => simp [NanoArith.result, hfits]
  | true =>
    simp only [NanoArith.result, hfits, if_true, Bool.true_eq_false, if_false]
    by_cases large : l.tau < cost
    · simp only [if_pos large]
    · simp only [if_neg large]
      cases hmax : A.fits (max now tat + cost) with
      | true =>
        have hsum : A.fits (tat + cost) = true :=
          A.fits_mono (Nat.add_le_add_right (Nat.le_max_right now tat) cost) hmax
        simp only [hsum, if_true, Bool.true_eq_false, if_false, Gcra.arrive, setTat_setTat]
        split
        case isTrue => rfl
        case isFalse => rfl
      | false =>
        cases hsum : A.fits (tat + cost) with
        | false => simp
        | true => simp [not_tooSoon (Nat.le_of_not_lt large) hsum hmax]

/-- A call changes the record of its own key only, and neither parameter. -/
lemma allows_frame (A : NanoArith) (l : Limiter K) (time : Nat) (key : K) (tokens : Nat) :
    (allows A time key tokens l).2.tau = l.tau ∧ (allows A time key tokens l).2.t = l.t ∧
      ∀ key' ≠ key, (allows A time key tokens l).2.tatPerKey.lookup key' =
        l.tatPerKey.lookup key' := by
  have hset : ∀ tat, (l.setTat key tat).tau = l.tau ∧ (l.setTat key tat).t = l.t ∧
      ∀ key' ≠ key, (l.setTat key tat).tatPerKey.lookup key' = l.tatPerKey.lookup key' :=
    fun tat => ⟨rfl, rfl, fun key' ne => by rw [lookup_setTat, if_neg ne]⟩
  rw [allows_eq rfl rfl rfl]
  split
  case isTrue => exact ⟨rfl, rfl, fun _ _ => rfl⟩
  split
  case isTrue => exact ⟨rfl, rfl, fun _ _ => rfl⟩
  split
  case isTrue => exact hset _
  split
  case h_1 => exact hset _
  case h_2 => exact hset _

/-- Pruning keeps the record of a key, or drops one whose arrival time has passed. -/
lemma lookup_prune_cases (A : NanoArith) (l : Limiter K) (time : Nat) (key : K) :
    (l.prune A time).tatPerKey.lookup key = l.tatPerKey.lookup key ∨
      (l.prune A time).tatPerKey.lookup key = none ∧
        ∃ tat, l.tatPerKey.lookup key = some tat ∧ tat ≤ A.cast time := by
  have hprune : (l.prune A time).tatPerKey.lookup key =
      (l.tatPerKey.lookup key).filter (A.cast time ≤ ·) := lookup_retain
  rw [hprune]
  cases l.tatPerKey.lookup key with
  | none => exact .inl rfl
  | some tat =>
    by_cases lim : A.cast time ≤ tat
    · exact .inl (Option.filter_some_pos (by simpa using lim))
    · exact .inr ⟨Option.filter_some_neg (by simpa using lim), tat, rfl, Nat.le_of_not_le lim⟩

end Limiter

/-- Oversized requests are refused and nothing overflows exactly if the cost of the tokens fits in
`u64` and, for a request that is not oversized, the arrival time after it does too. -/
theorem allows_exact_iff {K : Type} [DecidableEq K] (l : Limiter K) (time : Nat) (key : K)
    (tokens : Nat) :
    ((Limiter.allows .u64 time key tokens l).1 ≠ .error .panic ∧
      ((Limiter.allows .u64 time key tokens l).1 = .error (.error .tooLarge) ↔
        l.tau < l.t * tokens)) ↔
    l.t * tokens < 2 ^ 64 ∧
      (l.t * tokens ≤ l.tau →
        max (time % 2 ^ 64) (l.tatAt key (time % 2 ^ 64)) + l.t * tokens < 2 ^ 64) := by
  have hfits : ∀ n, NanoArith.u64.fits n = false ↔ ¬ n < 2 ^ 64 := fun n => decide_eq_false_iff_not
  rw [Limiter.allows_eq rfl rfl rfl]
  simp only [hfits]
  split
  case isTrue overflow => exact iff_of_false (fun h => h.1 rfl) fun h => overflow h.1
  case isFalse fit =>
    rw [not_not] at fit
    split
    case isTrue large =>
      exact iff_of_true ⟨by simp, iff_of_true rfl large⟩ ⟨fit, fun le => absurd large le.not_gt⟩
    case isFalse small =>
      split
      case isTrue overflow =>
        exact iff_of_false (fun h => h.1 rfl) fun h => overflow (h.2 (Nat.le_of_not_lt small))
      case isFalse fit' =>
        have answered : ∀ r : Except (Fault RateLimitedErr) Unit, r ≠ .error .panic →
            r ≠ .error (.error .tooLarge) → r ≠ .error .panic ∧
              (r = .error (.error .tooLarge) ↔ l.tau < l.t * tokens) :=
          fun r hpanic hlarge => ⟨hpanic, iff_of_false hlarge small⟩
        refine iff_of_true ?_ ⟨fit, fun _ => not_not.mp fit'⟩
        split
        case h_1 => exact answered _ (by simp) (by simp)
        case h_2 => exact answered _ (by simp) (by simp)

/-- The limiter of `BlocksByRange` requests with the default quota. -/
def Limiter.toy : Limiter PeerId := ⟨10 ^ 10, 9765625, ∅⟩

/-- A peer that asks for 2^63 blocks makes the node panic. -/
theorem allows_exact_fails :
    ¬ ∀ (quota : Quota) (new l : Limiter PeerId) (time : Nat) (peerId : PeerId)
      (req : BlocksByRangeRequest), Limiter.fromQuota quota = .ok new → l.tau = new.tau →
      l.t = new.t → req.count < 2 ^ 64 →
      let tokens := max (RPCRequest.blocksByRange req).expectedResponses 1
      let result := (Limiter.allows .u64 time peerId tokens l).1
      result ≠ .error .panic ∧ (result = .error (.error .tooLarge) ↔ l.tau < l.t * tokens) := by
  intro all
  have refused := (all RateLimiterConfig.default.blocksByRangeQuota .toy .toy 0 1 ⟨0, 2 ^ 63⟩ rfl
    rfl rfl (by decide)).1
  exact refused (by decide)

/-! ## Runs -/

/-- A call of a limiter, with the time that has passed since the limiter was created. -/
inductive LimiterCall (K : Type) where
  | allows (time : Nat) (key : K) (tokens : Nat)
  | prune (time : Nat)

namespace LimiterCall

variable {K : Type} [DecidableEq K] {A : NanoArith} {l : Limiter K} {key : K}

def time : LimiterCall K → Nat
  | .allows time _ _ => time
  | .prune time => time

def run (A : NanoArith) : LimiterCall K → Action (Limiter K) (Fault RateLimitedErr) Unit
  | .allows time key tokens => Limiter.allows A time key tokens
  | .prune time => Action.modify (Limiter.prune A time)

/-- The time and the tokens of the call if it is for a key and was allowed. -/
def accepted (A : NanoArith) (key : K) (call : LimiterCall K)
    (result : Except (Fault RateLimitedErr) Unit) : List (Nat × Nat) :=
  match call, result with
  | .allows time key' tokens, .ok () => if key' = key then [(A.cast time, tokens)] else []
  | .allows .., .error _ => []
  | .prune _, _ => []

/-- A call with its result in a sequence of calls is metered for each key. -/
lemma run_metered {call : LimiterCall K} {log : List (Nat × Nat)} {now : Nat}
    (h : Gcra.Metered l.tau log now (l.tatPerKey.lookup key)) (le : now ≤ A.cast call.time) :
    Gcra.Metered l.tau
      (log ++ (call.accepted A key (call.run A l).1).map fun x => (x.1, l.t * x.2))
      (A.cast call.time) ((call.run A l).2.tatPerKey.lookup key) := by
  have h := h.wait le
  cases call with
  | prune time =>
    simp only [run, Action.modify_apply, accepted, List.map_nil, List.append_nil]
    rcases Limiter.lookup_prune_cases A l time key with kept | ⟨dropped, tat, hl, le⟩
    · rw [kept]
      exact h
    · rw [hl] at h
      rw [dropped]
      exact h.forget le
  | allows time key' tokens =>
    by_cases same : key' = key
    · subst same
      change Gcra.Metered l.tau log (A.cast time) _ at h
      have h' : Gcra.Metered l.tau log (A.cast time) (some (l.tatAt key' (A.cast time))) := h.start
      simp only [run, LimiterCall.time, Limiter.allows_eq rfl rfl rfl]
      split
      case isTrue => simpa [accepted] using h
      case isFalse =>
        split
        case isTrue => simpa [accepted] using h
        case isFalse small =>
          split
          case isTrue => simpa [accepted, Limiter.lookup_setTat] using h'
          case isFalse =>
            split
            case h_1 => simpa [accepted, Limiter.lookup_setTat] using h'
            case h_2 next e =>
              simpa [accepted, Limiter.lookup_setTat] using h'.accept (Nat.le_of_not_lt small) e
    · have hnone : accepted A key (.allows time key' tokens)
          ((allows time key' tokens).run A l).1 = [] := by
        unfold accepted
        split
        case h_1 e _ =>
          cases e
          exact if_neg same
        case h_2 => rfl
        case h_3 => rfl
      rw [hnone, List.map_nil, List.append_nil, run,
        (Limiter.allows_frame A l time key' tokens).2.2 key (Ne.symm same)]
      exact h

end LimiterCall

/-- The calls of a run, each with its result. -/
def Limiter.trace {K : Type} [DecidableEq K] (A : NanoArith) :
    List (LimiterCall K) → Limiter K → List (LimiterCall K × Except (Fault RateLimitedErr) Unit)
  | [], _ => []
  | call :: calls, l => (call, (call.run A l).1) :: Limiter.trace A calls (call.run A l).2

/-- The times and the tokens of the calls that were allowed for a key. -/
def accepted {K : Type} [DecidableEq K] (A : NanoArith) (key : K)
    (trace : List (LimiterCall K × Except (Fault RateLimitedErr) Unit)) : List (Nat × Nat) :=
  trace.flatMap fun x => x.1.accepted A key x.2

section
variable {K : Type} [DecidableEq K] {A : NanoArith} {l : Limiter K} {key : K}
  {calls : List (LimiterCall K)}

/-- A call changes no parameter. -/
lemma LimiterCall.run_frame (A : NanoArith) (l : Limiter K) (call : LimiterCall K) :
    (call.run A l).2.tau = l.tau ∧ (call.run A l).2.t = l.t := by
  cases call with
  | prune time => exact ⟨rfl, rfl⟩
  | allows time key tokens =>
    obtain ⟨htau, ht, _⟩ := Limiter.allows_frame A l time key tokens
    exact ⟨htau, ht⟩

/-- A run is metered for each key. -/
lemma Limiter.trace_metered {log : List (Nat × Nat)} {now : Nat}
    (h : Gcra.Metered l.tau log now (l.tatPerKey.lookup key))
    (times : (now :: calls.map fun call => A.cast call.time).Pairwise (· ≤ ·)) :
    ∃ now' tat, Gcra.Metered l.tau
      (log ++ (accepted A key (l.trace A calls)).map fun x => (x.1, l.t * x.2)) now' tat := by
  induction calls generalizing l log now with
  | nil => exact ⟨now, _, by simpa [Limiter.trace, accepted] using h⟩
  | cons call calls ih =>
    rw [List.map_cons, List.pairwise_cons] at times
    obtain ⟨htau, ht⟩ := call.run_frame A l
    have hnext := LimiterCall.run_metered h (times.1 _ List.mem_cons_self)
    rw [← htau] at hnext ⊢
    obtain ⟨now', tat, h'⟩ := ih hnext times.2
    refine ⟨now', tat, ?_⟩
    simpa [Limiter.trace, accepted, ht] using h'

end

/-- In every run of calls at non-decreasing times and within every period, the tokens that are
allowed for a key take at most the length of the period and `tau` to be replenished. -/
theorem allows_rateBound {K : Type} [DecidableEq K] {A : NanoArith} (l : Limiter K)
    (calls : List (LimiterCall K))
    (times : (calls.map fun call => A.cast call.time).Pairwise (· ≤ ·)) (key : K)
    (start w : Nat) :
    l.t * Gcra.spent (fun time => start ≤ time ∧ time ≤ start + w)
      (accepted A key (l.trace A calls)) ≤ l.tau + w := by
  have h : Gcra.Metered l.tau [] 0 (l.tatPerKey.lookup key) := .nil
  obtain ⟨_, _, h⟩ := Limiter.trace_metered h
    (List.pairwise_cons.mpr ⟨fun _ _ => Nat.zero_le _, times⟩)
  rw [← Gcra.spent_map_mul]
  exact h.bounded start w

/-- A peer asks for 1000 of 1024 blocks at once, for 100 more too soon, and for these again after a
tenth of the period. -/
def toyCalls : List (LimiterCall PeerId) :=
  [.allows 0 1 1000, .allows 10 1 100, .prune 20, .allows (10 ^ 9) 1 100]

theorem allows_rateBound_burst :
    accepted .unbounded 1 (Limiter.toy.trace .unbounded toyCalls) = [(0, 1000), (10 ^ 9, 100)] ∧
      Limiter.toy.t * Gcra.spent (fun time => 0 ≤ time ∧ time ≤ 0 + 10 ^ 9)
        (accepted .unbounded 1 (Limiter.toy.trace .unbounded toyCalls)) ≤
      Limiter.toy.tau + 10 ^ 9 :=
  ⟨by decide, allows_rateBound .toy toyCalls (by decide) 1 0 (10 ^ 9)⟩

/-! ## Pruning -/

section
variable {K : Type} [DecidableEq K] {A : NanoArith} {l l' : Limiter K}
  {calls : List (LimiterCall K)}

/-- The results of the calls that ask for tokens. -/
def answers (trace : List (LimiterCall K × Except (Fault RateLimitedErr) Unit)) :
    List (Except (Fault RateLimitedErr) Unit) :=
  trace.filterMap fun x =>
    match x.1 with
    | .allows .. => some x.2
    | .prune _ => none

/-- The calls that ask for tokens. -/
def LimiterCall.isAllows : LimiterCall K → Bool
  | .allows .. => true
  | .prune _ => false

/-- The arrival time of a key has passed, or the key is not recorded. -/
def Passed (now : Nat) (tat : Option Nat) : Prop := ∀ tat' ∈ tat, tat' ≤ now

lemma Passed.mono {now now' : Nat} {tat : Option Nat} (h : Passed now tat) (le : now ≤ now') :
    Passed now' tat :=
  fun tat' mem => (h tat' mem).trans le

lemma passed_none {now : Nat} : Passed now none := fun _ mem => by cases mem

lemma passed_some {now tat : Nat} : Passed now (some tat) ↔ tat ≤ now := by
  simp [Passed]

lemma Passed.getD {now : Nat} {tat : Option Nat} (h : Passed now tat) : tat.getD now ≤ now := by
  cases tat with
  | none => exact le_rfl
  | some tat => exact h tat rfl

namespace Limiter

/-- The records of two limiters differ only for keys whose arrival time has passed. -/
structure Alike (now : Nat) (l l' : Limiter K) : Prop where
  tau : l'.tau = l.tau
  t : l'.t = l.t
  records : ∀ key, l'.tatPerKey.lookup key = l.tatPerKey.lookup key ∨
    Passed now (l'.tatPerKey.lookup key) ∧ Passed now (l.tatPerKey.lookup key)

namespace Alike

variable {now now' time tat tat' : Nat}

lemma wait (h : Alike now l l') (le : now ≤ now') : Alike now' l l' where
  tau := h.tau
  t := h.t
  records := fun key => (h.records key).imp_right fun ⟨h, h'⟩ => ⟨h.mono le, h'.mono le⟩

/-- Pruning one of them drops only keys whose arrival time has passed. -/
lemma prune (h : Alike (A.cast time) l l') : Alike (A.cast time) (l.prune A time) l' where
  tau := h.tau
  t := h.t
  records := by
    intro key
    rcases lookup_prune_cases A l time key with kept | ⟨dropped, tat, hl, le⟩
    · rw [kept]
      exact h.records key
    · rw [dropped]
      refine .inr ⟨?_, passed_none⟩
      rcases h.records key with e | ⟨passed, _⟩
      · rw [e, hl]
        exact passed_some.mpr le
      · exact passed

/-- Both record a key anew, with one time or with times that have passed. -/
lemma setTat {key : K} (h : Alike now l l') (htat : tat' = tat ∨ tat' ≤ now ∧ tat ≤ now) :
    Alike now (l.setTat key tat) (l'.setTat key tat') where
  tau := h.tau
  t := h.t
  records := by
    intro key'
    rw [lookup_setTat, lookup_setTat]
    split
    case isTrue =>
      exact htat.imp (congrArg some) fun ⟨h, h'⟩ => ⟨passed_some.mpr h, passed_some.mpr h'⟩
    case isFalse => exact h.records key'

/-- They give the same answers. -/
lemma allows (h : Alike (A.cast time) l l') (key : K) (tokens : Nat) :
    (allows A time key tokens l').1 = (allows A time key tokens l).1 ∧
      Alike (A.cast time) (allows A time key tokens l).2 (allows A time key tokens l').2 := by
  generalize hcost : l.t * tokens = cost
  have hcost' : l'.t * tokens = cost := by rw [h.t, hcost]
  generalize htat : l.tatAt key (A.cast time) = tat
  generalize htat' : l'.tatAt key (A.cast time) = tat'
  have hsame : tat' = tat ∨ tat' ≤ A.cast time ∧ tat ≤ A.cast time := by
    rw [← htat, ← htat', tatAt, tatAt]
    exact (h.records key).imp (fun e => by rw [e]) fun ⟨h, h'⟩ => ⟨h.getD, h'.getD⟩
  have hmax : max (A.cast time) tat' = max (A.cast time) tat := by omega
  rw [allows_eq rfl hcost htat, allows_eq rfl hcost' htat', h.tau, hmax]
  by_cases fit : A.fits cost = false
  · simp only [if_pos fit]
    exact ⟨trivial, h⟩
  by_cases large : l.tau < cost
  · simp only [if_neg fit, if_pos large]
    exact ⟨trivial, h⟩
  by_cases fit' : A.fits (max (A.cast time) tat + cost) = false
  · simp only [if_neg fit, if_neg large, if_pos fit']
    exact ⟨trivial, h.setTat hsame⟩
  have harrive : Gcra.arrive l.tau (A.cast time) cost tat' =
      Gcra.arrive l.tau (A.cast time) cost tat := by
    rcases hsame with rfl | ⟨le', le⟩
    · rfl
    · rw [Gcra.arrive_of_le le' (Nat.le_of_not_lt large),
        Gcra.arrive_of_le le (Nat.le_of_not_lt large)]
  simp only [if_neg fit, if_neg large, if_neg fit', harrive]
  split
  case h_1 => exact ⟨rfl, h.setTat hsame⟩
  case h_2 => exact ⟨rfl, h.setTat (.inl rfl)⟩

/-- The answers of a run do not depend on pruning. -/
lemma answers_eq (h : Alike now l l')
    (times : (now :: calls.map fun call => A.cast call.time).Pairwise (· ≤ ·)) :
    answers (l'.trace A (calls.filter (·.isAllows))) = answers (l.trace A calls) := by
  induction calls generalizing l l' now with
  | nil => rfl
  | cons call calls ih =>
    rw [List.map_cons, List.pairwise_cons] at times
    have h := h.wait (times.1 _ List.mem_cons_self)
    cases call with
    | prune time => exact ih h.prune times.2
    | allows time key tokens =>
      obtain ⟨hanswer, hnext⟩ := h.allows key tokens
      rw [List.filter_cons_of_pos (by rfl)]
      exact congrArg₂ List.cons hanswer (ih hnext times.2)

end Alike

end Limiter

end

/-- In every run of calls at non-decreasing times, the answers are those without the prunings. The
times are compared as the limiter reads them: as `Nanosecs`, which the source notes to last for 500
years. -/
theorem prune_unobservable {K : Type} [DecidableEq K] {A : NanoArith} (l : Limiter K)
    (calls : List (LimiterCall K))
    (times : (calls.map fun call => A.cast call.time).Pairwise (· ≤ ·)) :
    answers (l.trace A calls) = answers (l.trace A (calls.filter (·.isAllows))) := by
  have h : Limiter.Alike 0 l l := ⟨rfl, rfl, fun _ => .inl rfl⟩
  exact (h.answers_eq (List.pairwise_cons.mpr ⟨fun _ _ => Nat.zero_le _, times⟩)).symm

/-- A peer asks for 1000 of 1024 blocks at once and for 1000 more after the period; the pruning in
between drops its record. -/
def toyPruned : List (LimiterCall PeerId) :=
  [.allows 0 1 1000, .prune (10 ^ 10), .allows (10 ^ 10 + 1) 1 1000]

theorem prune_unobservable_burst :
    ((Limiter.allows .u64 0 1 1000 Limiter.toy).2.tatPerKey.lookup 1).isSome ∧
      ((Limiter.allows .u64 0 1 1000 Limiter.toy).2.prune .u64 (10 ^ 10)).tatPerKey.lookup 1 =
        none ∧
      answers (Limiter.toy.trace .u64 toyPruned) = answers (Limiter.toy.trace .u64
        [.allows 0 1 1000, .allows (10 ^ 10 + 1) 1 1000]) :=
  ⟨by decide, by decide, prune_unobservable .toy toyPruned (by decide)⟩

/-! ## The limiter of the RPC protocol -/

/-- A call of the limiter of the RPC protocol, with the time since it was created. -/
inductive RateLimiterCall where
  | allows (time : Nat) (peerId : PeerId) (request : RPCRequest)
  | prune (time : Nat)

namespace RateLimiterCall

variable {r : RPCRateLimiter} {protocol : Protocol} {call : RateLimiterCall}

def time : RateLimiterCall → Nat
  | .allows time _ _ => time
  | .prune time => time

def run : RateLimiterCall → Action RPCRateLimiter (Fault RateLimitedErr) Unit
  | .allows time peerId request => RPCRateLimiter.allows time peerId request
  | .prune time => Action.modify (RPCRateLimiter.prune time)

def isAllows : RateLimiterCall → Bool
  | .allows .. => true
  | .prune _ => false

/-- What a call asks of the limiter of a protocol. -/
def on (protocol : Protocol) : RateLimiterCall → Option (LimiterCall PeerId)
  | .allows time peerId request =>
    if request.protocol = protocol then
      some (.allows time peerId (max request.expectedResponses 1))
    else none
  | .prune time => some (.prune time)

lemma time_of_on {c : LimiterCall PeerId} (h : call.on protocol = some c) : c.time = call.time := by
  cases call with
  | allows time peerId request =>
    obtain ⟨_, e⟩ := Option.ite_none_right_eq_some.mp h
    cases e
    rfl
  | prune time =>
    cases h
    rfl

end RateLimiterCall

namespace RPCRateLimiter

variable {r r' : RPCRateLimiter} {protocol protocol' : Protocol} {calls : List RateLimiterCall}

lemma limiter_setLimiter {l : Limiter PeerId} :
    (r.setLimiter protocol l).limiter protocol' =
      if protocol' = protocol then l else r.limiter protocol' := by
  cases protocol <;> cases protocol' <;> rfl

lemma limiter_prune (time : Nat) :
    (r.prune time).limiter protocol = (r.limiter protocol).prune .u64 time := by
  cases protocol <;> rfl

/-- A request is a call of the limiter of its protocol. -/
lemma allows_eq (time : Nat) (peerId : PeerId) (request : RPCRequest) (r : RPCRateLimiter) :
    let answer := Limiter.allows .u64 time peerId (max request.expectedResponses 1)
      (r.limiter request.protocol)
    allows time peerId request r = (answer.1, r.setLimiter request.protocol answer.2) := by
  intro answer
  show (answer.1.mapError id, r.setLimiter request.protocol answer.2) = _
  cases answer.1 <;> rfl

variable {call : RateLimiterCall}

/-- The limiter of a protocol answers the calls that are for it. -/
lemma run_of_on {c : LimiterCall PeerId} (h : call.on protocol = some c) :
    (call.run r).1 = (c.run .u64 (r.limiter protocol)).1 ∧
      (call.run r).2.limiter protocol = (c.run .u64 (r.limiter protocol)).2 := by
  cases call with
  | allows time peerId request =>
    obtain ⟨rfl, e⟩ := Option.ite_none_right_eq_some.mp h
    cases e
    rw [RateLimiterCall.run, allows_eq, limiter_setLimiter, if_pos rfl]
    exact ⟨rfl, rfl⟩
  | prune time =>
    cases h
    exact ⟨rfl, limiter_prune time⟩

/-- Other calls do not touch it. -/
lemma run_of_not_on (h : call.on protocol = none) :
    (call.run r).2.limiter protocol = r.limiter protocol := by
  cases call with
  | allows time peerId request =>
    have ne : ¬ request.protocol = protocol := by
      intro e
      rw [RateLimiterCall.on, if_pos e] at h
      cases h
    rw [RateLimiterCall.run, allows_eq, limiter_setLimiter, if_neg (Ne.symm ne)]
  | prune time => cases h

/-- The calls of a run, each with its result. -/
def trace : List RateLimiterCall → RPCRateLimiter →
    List (RateLimiterCall × Except (Fault RateLimitedErr) Unit)
  | [], _ => []
  | call :: calls, r => (call, (call.run r).1) :: trace calls (call.run r).2

/-- What the limiter of a protocol was asked and answered. -/
def traceOn (protocol : Protocol)
    (trace : List (RateLimiterCall × Except (Fault RateLimitedErr) Unit)) :
    List (LimiterCall PeerId × Except (Fault RateLimitedErr) Unit) :=
  trace.filterMap fun x => (x.1.on protocol).map fun c => (c, x.2)

/-- A run is one of the limiter of each protocol. -/
lemma traceOn_trace (r : RPCRateLimiter) (protocol : Protocol) (calls : List RateLimiterCall) :
    traceOn protocol (r.trace calls) =
      (r.limiter protocol).trace .u64 (calls.filterMap (·.on protocol)) := by
  induction calls generalizing r with
  | nil => rfl
  | cons call calls ih =>
    have hrest := ih (call.run r).2
    rw [traceOn] at hrest ⊢
    rw [trace, List.filterMap_cons, List.filterMap_cons, hrest]
    cases h : call.on protocol with
    | none => simp only [Option.map_none, run_of_not_on h]
    | some c =>
      obtain ⟨hanswer, hnext⟩ := run_of_on (r := r) h
      simp only [Option.map_some, Limiter.trace, hanswer, hnext]

/-- In every run of calls at non-decreasing times and within every period, the responses to requests
of a protocol that are allowed to a peer take at most the length of the period and the `tau` of the
protocol to be replenished, whatever other peers ask and whatever the peer asks of other protocols.
-/
theorem requests_rateBound (r : RPCRateLimiter) (calls : List RateLimiterCall)
    (times : (calls.map fun call => NanoArith.u64.cast call.time).Pairwise (· ≤ ·))
    (protocol : Protocol) (peerId : PeerId) (start w : Nat) :
    (r.limiter protocol).t * Gcra.spent (fun time => start ≤ time ∧ time ≤ start + w)
      (accepted .u64 peerId (traceOn protocol (r.trace calls))) ≤
    (r.limiter protocol).tau + w := by
  have hmetered : Gcra.Metered (r.limiter protocol).tau [] 0
      ((r.limiter protocol).tatPerKey.lookup peerId) := .nil
  have htimes : ((calls.filterMap (·.on protocol)).map fun call =>
      NanoArith.u64.cast call.time).Pairwise (· ≤ ·) := by
    rw [List.pairwise_map] at times ⊢
    refine List.pairwise_filterMap.mpr (times.imp fun le c hc c' hc' => ?_)
    rw [RateLimiterCall.time_of_on hc, RateLimiterCall.time_of_on hc']
    exact le
  obtain ⟨_, _, h⟩ := Limiter.trace_metered hmetered
    (List.pairwise_cons.mpr ⟨fun _ _ => Nat.zero_le _, htimes⟩)
  rw [traceOn_trace, ← Gcra.spent_map_mul]
  exact h.bounded start w

/-- The limiters of every protocol differ only for peers whose arrival time has passed. -/
def Alike (now : Nat) (r r' : RPCRateLimiter) : Prop :=
  ∀ protocol, (r.limiter protocol).Alike now (r'.limiter protocol)

lemma Alike.prune {time : Nat} (h : Alike (NanoArith.u64.cast time) r r') :
    Alike (NanoArith.u64.cast time) (r.prune time) r' := fun protocol => by
  rw [limiter_prune]
  exact (h protocol).prune

lemma Alike.allows {time : Nat} (h : Alike (NanoArith.u64.cast time) r r') (peerId : PeerId)
    (request : RPCRequest) :
    (allows time peerId request r').1 = (allows time peerId request r).1 ∧
      Alike (NanoArith.u64.cast time) (allows time peerId request r).2
        (allows time peerId request r').2 := by
  obtain ⟨hanswer, hnext⟩ :=
    (h request.protocol).allows peerId (max request.expectedResponses 1)
  rw [allows_eq, allows_eq]
  refine ⟨hanswer, fun protocol => ?_⟩
  rw [limiter_setLimiter, limiter_setLimiter]
  split
  case isTrue => exact hnext
  case isFalse => exact h protocol

/-- The results of the requests. -/
def answers (trace : List (RateLimiterCall × Except (Fault RateLimitedErr) Unit)) :
    List (Except (Fault RateLimitedErr) Unit) :=
  (trace.filter (·.1.isAllows)).map (·.2)

/-- The answers of a run do not depend on pruning. -/
lemma Alike.answers_eq {now : Nat} (h : Alike now r r')
    (times : (now :: calls.map fun call => NanoArith.u64.cast call.time).Pairwise (· ≤ ·)) :
    answers (r'.trace (calls.filter (·.isAllows))) = answers (r.trace calls) := by
  induction calls generalizing r r' now with
  | nil => rfl
  | cons call calls ih =>
    rw [List.map_cons, List.pairwise_cons] at times
    have h : Alike (NanoArith.u64.cast call.time) r r' := fun protocol =>
      (h protocol).wait (times.1 _ List.mem_cons_self)
    cases call with
    | prune time => exact ih h.prune times.2
    | allows time peerId request =>
      obtain ⟨hanswer, hnext⟩ := h.allows peerId request
      rw [List.filter_cons_of_pos (by rfl)]
      exact congrArg₂ List.cons hanswer (ih hnext times.2)

/-- In every run of calls at non-decreasing times, requests are answered as without the prunings. -/
theorem answers_filter_isAllows (r : RPCRateLimiter) (calls : List RateLimiterCall)
    (times : (calls.map fun call => NanoArith.u64.cast call.time).Pairwise (· ≤ ·)) :
    answers (r.trace calls) = answers (r.trace (calls.filter (·.isAllows))) := by
  have h : Alike 0 r r := fun _ => ⟨rfl, rfl, fun _ => .inl rfl⟩
  exact (h.answers_eq (List.pairwise_cons.mpr ⟨fun _ _ => Nat.zero_le _, times⟩)).symm

end RPCRateLimiter

end Alys

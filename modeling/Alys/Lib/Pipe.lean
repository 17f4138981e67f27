import Alys.Lib.Run
import Mathlib.Data.List.Basic

/-!
# Messages over a stream of bytes

A decoder is called on the bytes that have arrived so far. It takes a message from their front,
fails, or waits; it may take some bytes of an unfinished message out of the buffer and keep them in
its state. The writer has a buffer of its own, from which the bytes go to the wire piece by piece.

`Decoder.Reads` says what is needed of one message: that the decoder waits on every proper part of
it, in whatever steps the parts arrive, and takes the message once it is complete. From this follows
what arrives of a sequence of messages, in every interleaving of writes, reads and calls of the
decoder.
-/

namespace Alys.Lib

variable {σ ε α : Type}

/-- A decoder with its state and the buffer it is called on. -/
structure Decoder (σ ε α : Type) where
  init : σ
  decode : σ → List UInt8 → Except ε (Option α) × σ × List UInt8

/-- The decoder reads messages in a format. `Mid m s c` says that `s` is a state in which the bytes
`c` of the message were taken out of the buffer. -/
structure Decoder.Reads (D : Decoder σ ε α) (Valid : α → Prop) (encode : α → List UInt8)
    (Mid : α → σ → List UInt8 → Prop) : Prop where
  idle : D.decode D.init [] = (.ok none, D.init, [])
  start : ∀ {m}, Valid m → Mid m D.init []
  wait : ∀ {m s c b more}, Valid m → Mid m s c → more ≠ [] → c ++ b ++ more = encode m →
    ∃ s' c' b', D.decode s b = (.ok none, s', b') ∧ Mid m s' c' ∧ c' ++ b' = c ++ b
  done : ∀ {m s c b rest}, Valid m → Mid m s c → c ++ b = encode m ++ rest →
    D.decode s b = (.ok (some m), D.init, rest)

/-- A writer and a reader, and the bytes on their way. -/
structure Pipe (σ ε α : Type) where
  /-- the messages written so far -/
  sent : List α
  /-- the buffer of the writer -/
  pending : List UInt8
  wire : List UInt8
  /-- the buffer of the reader -/
  buffer : List UInt8
  state : σ
  /-- the messages read so far -/
  frames : List α
  failure : Option ε

inductive PipeEvent (α : Type) where
  | send (m : α)
  /-- so many bytes leave the writer -/
  | flush (n : Nat)
  /-- so many bytes arrive at the reader -/
  | read (n : Nat)
  | poll

namespace Pipe

/-- A pipe on which the given bytes are on their way. -/
def start (D : Decoder σ ε α) (wire : List UInt8) : Pipe σ ε α :=
  ⟨[], [], wire, [], D.init, [], none⟩

/-- A call of the decoder; after a failure it is not called any more. -/
def poll (D : Decoder σ ε α) (p : Pipe σ ε α) : Pipe σ ε α :=
  match p.failure with
  | some _ => p
  | none =>
    match D.decode p.state p.buffer with
    | (.error e, s, b) => { p with state := s, buffer := b, failure := some e }
    | (.ok none, s, b) => { p with state := s, buffer := b }
    | (.ok (some m), s, b) => { p with state := s, buffer := b, frames := p.frames ++ [m] }

/-- A step of the writer or the reader; `put` writes a message to the buffer of the writer. -/
def step (D : Decoder σ ε α) (put : α → List UInt8 → List UInt8) :
    PipeEvent α → Pipe σ ε α → Pipe σ ε α
  | .send m, p => { p with sent := p.sent ++ [m], pending := put m p.pending }
  | .flush n, p => { p with pending := p.pending.drop n, wire := p.wire ++ p.pending.take n }
  | .read n, p => { p with wire := p.wire.drop n, buffer := p.buffer ++ p.wire.take n }
  | .poll, p => p.poll D

/-- Messages of a kind are written. -/
def Sends (Valid : α → Prop) (_ : Pipe σ ε α) : PipeEvent α → Prop
  | .send m => Valid m
  | .flush _ => True
  | .read _ => True
  | .poll => True

/-- A message is written when those before it have left the writer. -/
def Flushed (Valid : α → Prop) (p : Pipe σ ε α) : PipeEvent α → Prop
  | .send m => Valid m ∧ p.pending = []
  | .flush _ => True
  | .read _ => True
  | .poll => True

/-- What is asked of a step for the messages to arrive: a message is added to the buffer of the
writer. -/
def Appends (Valid : α → Prop) (encode : α → List UInt8) (put : α → List UInt8 → List UInt8)
    (p : Pipe σ ε α) : PipeEvent α → Prop
  | .send m => Valid m ∧ put m p.pending = p.pending ++ encode m
  | .flush _ => True
  | .read _ => True
  | .poll => True

section Writers

variable {Valid : α → Prop} {encode : α → List UInt8} {put : α → List UInt8 → List UInt8}
  {p : Pipe σ ε α} {e : PipeEvent α}

/-- A writer that adds to its buffer. -/
lemma Sends.appends (ok : p.Sends Valid e) (hput : ∀ m b, Valid m → put m b = b ++ encode m) :
    p.Appends Valid encode put e := by
  cases e with
  | send m => exact ⟨ok, hput m _ ok⟩
  | flush => trivial
  | read => trivial
  | poll => trivial

/-- A writer that begins a new buffer with each message. -/
lemma Flushed.appends (ok : p.Flushed Valid e) (hput : ∀ m, Valid m → put m [] = encode m) :
    p.Appends Valid encode put e := by
  cases e with
  | send m => exact ⟨ok.1, by rw [ok.2, hput m ok.1, List.nil_append]⟩
  | flush => trivial
  | read => trivial
  | poll => trivial

end Writers

section Poll

variable {D : Decoder σ ε α} {p : Pipe σ ε α} {s : σ} {b : List UInt8}

lemma poll_wait (hp : p.failure = none) (h : D.decode p.state p.buffer = (.ok none, s, b)) :
    p.poll D = { p with state := s, buffer := b } := by
  simp only [poll, hp, h]

lemma poll_done {m : α} (hp : p.failure = none)
    (h : D.decode p.state p.buffer = (.ok (some m), s, b)) :
    p.poll D = { p with state := s, buffer := b, frames := p.frames ++ [m] } := by
  simp only [poll, hp, h]

/-- A call without a failure and without a new message is one that waits. -/
lemma decode_of_poll (hp : (p.poll D).failure = none) (h : (p.poll D).frames = p.frames) :
    D.decode p.state p.buffer = (.ok none, (p.poll D).state, (p.poll D).buffer) := by
  unfold poll at hp h ⊢
  split at hp
  case h_1 hfailed => rw [hfailed] at hp; cases hp
  case h_2 hnone =>
    simp only [hnone] at hp h ⊢
    match hr : D.decode p.state p.buffer with
    | (.error e, s, b) => simp [hr] at hp
    | (.ok none, s, b) => simp
    | (.ok (some m), s, b) => simp [hr] at h

end Poll

/-- What holds of every message that the decoder reads, in whatever state and from whatever bytes,
holds of all messages read in a run. -/
lemma forall_frames {D : Decoder σ ε α} {put : α → List UInt8 → List UInt8}
    {allowed : Pipe σ ε α → PipeEvent α → Prop} {Q : α → Prop}
    (hQ : ∀ s b m s' b', D.decode s b = (.ok (some m), s', b') → Q m) {wire : List UInt8}
    {p : Pipe σ ε α} (run : Run (step D put) allowed (Pipe.start D wire) p) :
    ∀ m ∈ p.frames, Q m := by
  refine run.invariant (I := fun p => ∀ m ∈ p.frames, Q m)
    (fun m mem => absurd mem List.not_mem_nil) fun p e h _ => ?_
  cases e with
  | send => exact h
  | flush => exact h
  | read => exact h
  | poll =>
    show ∀ m ∈ (p.poll D).frames, Q m
    unfold poll
    split
    case h_1 => exact h
    case h_2 =>
      split
      case h_1 => exact h
      case h_2 => exact h
      case h_3 m _ _ hr =>
        intro m' mem
        rcases List.mem_append.mp mem with mem | mem
        · exact h m' mem
        · exact List.mem_singleton.mp mem ▸ hQ _ _ _ _ _ hr

/-! ## What arrives -/

section Sound

variable {D : Decoder σ ε α} {Valid : α → Prop} {encode : α → List UInt8}
  {Mid : α → σ → List UInt8 → Prop} {put : α → List UInt8 → List UInt8}

/-- The state of the decoder fits the message that is to come. -/
def Next (D : Decoder σ ε α) (Mid : α → σ → List UInt8 → Prop) (s : σ) (c : List UInt8) :
    List α → Prop
  | [] => s = D.init ∧ c = []
  | m :: _ => Mid m s c

/-- The messages that were not read yet are on their way, in order. -/
structure Sound (D : Decoder σ ε α) (Valid : α → Prop) (encode : α → List UInt8)
    (Mid : α → σ → List UInt8 → Prop) (p : Pipe σ ε α) : Prop where
  failure_eq : p.failure = none
  valid : ∀ m ∈ p.sent, Valid m
  coming : ∃ todo c, p.sent = p.frames ++ todo ∧
    c ++ p.buffer ++ (p.wire ++ p.pending) = todo.flatMap encode ∧ Next D Mid p.state c todo

lemma Sound.start : Sound D Valid encode Mid (Pipe.start D []) where
  failure_eq := rfl
  valid _ mem := absurd mem List.not_mem_nil
  coming := ⟨[], [], rfl, rfl, rfl, rfl⟩

variable (hD : D.Reads Valid encode Mid)
include hD

lemma next_init {todo : List α} (h : ∀ m ∈ todo, Valid m) : Next D Mid D.init [] todo := by
  cases todo with
  | nil => exact ⟨rfl, rfl⟩
  | cons m todo => exact hD.start (h m List.mem_cons_self)

variable {p : Pipe σ ε α}

/-- A call of the decoder on what has arrived of a message: the message is complete and is read, or
there is nothing new. -/
lemma Sound.poll (h : Sound D Valid encode Mid p) :
    Sound D Valid encode Mid (p.poll D) := by
  obtain ⟨todo, c, hsent, hbytes, hnext⟩ := h.coming
  cases todo with
  | nil =>
    obtain ⟨hs, rfl⟩ := hnext
    obtain ⟨hbuffer, hway⟩ := List.append_eq_nil_iff.mp hbytes
    have hdecode : D.decode p.state p.buffer = (.ok none, D.init, []) := by
      rw [hs, show p.buffer = [] from hbuffer]
      exact hD.idle
    rw [poll_wait h.failure_eq hdecode]
    exact ⟨h.failure_eq, h.valid, [], [], hsent, hway, rfl, rfl⟩
  | cons m todo =>
    have hvalid : ∀ m' ∈ m :: todo, Valid m' := fun m' mem =>
      h.valid m' (hsent ▸ List.mem_append_right _ mem)
    obtain ⟨hm, htodo⟩ := List.forall_mem_cons.mp hvalid
    rw [List.flatMap_cons] at hbytes
    -- compare what has arrived with the message
    have hread : ∀ {rest}, c ++ p.buffer = encode m ++ rest →
        rest ++ (p.wire ++ p.pending) = todo.flatMap encode →
        Sound D Valid encode Mid (p.poll D) := by
      intro rest hdone hrest
      rw [poll_done h.failure_eq (hD.done hm hnext hdone)]
      exact ⟨h.failure_eq, h.valid, todo, [], by rw [hsent]; simp, hrest, next_init hD htodo⟩
    rcases List.append_eq_append_iff.mp hbytes with ⟨more, hmore, hrest⟩ | ⟨rest, hdone, hrest⟩
    · by_cases hnil : more = []
      · subst hnil
        rw [List.append_nil] at hmore
        exact hread (by rw [hmore, List.append_nil]) hrest
      · obtain ⟨s, c', b, hdecode, hmid, hkept⟩ := hD.wait hm hnext hnil hmore.symm
        rw [poll_wait h.failure_eq hdecode]
        exact ⟨h.failure_eq, h.valid, m :: todo, c', hsent,
          by rw [hkept, List.flatMap_cons]; exact hbytes, hmid⟩
    · exact hread hdone hrest.symm

/-- Every step keeps the messages on their way. -/
lemma Sound.step (h : Sound D Valid encode Mid p) (e : PipeEvent α)
    (ok : p.Appends Valid encode put e) : Sound D Valid encode Mid (p.step D put e) := by
  obtain ⟨todo, c, hsent, hbytes, hnext⟩ := h.coming
  cases e with
  | send m =>
    obtain ⟨hm, hput⟩ := ok
    refine ⟨h.failure_eq, ?_, todo ++ [m], c, ?_, ?_, ?_⟩
    · intro m' mem
      rcases List.mem_append.mp mem with mem | mem
      · exact h.valid m' mem
      · exact List.mem_singleton.mp mem ▸ hm
    · show p.sent ++ [m] = p.frames ++ (todo ++ [m])
      rw [hsent, List.append_assoc]
    · show c ++ p.buffer ++ (p.wire ++ put m p.pending) = _
      rw [hput, List.flatMap_append, ← hbytes]
      simp
    · cases todo with
      | nil =>
        obtain ⟨hs, rfl⟩ := hnext
        show Mid m p.state []
        rw [hs]
        exact hD.start hm
      | cons m' todo => exact hnext
  | flush n =>
    refine ⟨h.failure_eq, h.valid, todo, c, hsent, ?_, hnext⟩
    show c ++ p.buffer ++ (p.wire ++ p.pending.take n ++ p.pending.drop n) = _
    rw [List.append_assoc p.wire, List.take_append_drop, hbytes]
  | read n =>
    refine ⟨h.failure_eq, h.valid, todo, c, hsent, ?_, hnext⟩
    show c ++ (p.buffer ++ p.wire.take n) ++ (p.wire.drop n ++ p.pending) = _
    rw [← hbytes]
    conv_rhs => rw [← List.take_append_drop n p.wire]
    simp only [List.append_assoc]
  | poll => exact h.poll hD

/-- In every run what was read is what was written, in order and without a failure, and once nothing
is on its way and the decoder has nothing new, all of it. -/
lemma run_appends (run : Run (step D put) (Appends Valid encode put) (Pipe.start D []) p) :
    p.failure = none ∧ p.frames <+: p.sent ∧
      (p.pending = [] → p.wire = [] → (p.poll D).frames = p.frames → p.frames = p.sent) := by
  have h : Sound D Valid encode Mid p :=
    run.invariant .start fun p e h ok => h.step hD e ok
  obtain ⟨todo, c, hsent, hbytes, hnext⟩ := h.coming
  refine ⟨h.failure_eq, ⟨todo, hsent.symm⟩, fun hpending hwire hquiet => ?_⟩
  cases todo with
  | nil => rw [hsent, List.append_nil]
  | cons m todo =>
    have hm : Valid m := h.valid m (hsent ▸ List.mem_append_right _ List.mem_cons_self)
    rw [hpending, hwire, List.append_nil, List.append_nil, List.flatMap_cons] at hbytes
    rw [poll_done h.failure_eq (hD.done hm hnext hbytes)] at hquiet
    exact absurd (List.append_right_eq_self.mp hquiet) (List.cons_ne_nil _ _)

end Sound

end Pipe

end Alys.Lib

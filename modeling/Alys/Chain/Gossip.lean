import Alys.Chain.Signing
import Alys.Chain.Walks
import Alys.Pow.Adjustment

/-!
# A proof of work from a peer

Model of what `Chain::monitor_gossip` in `app/src/chain.rs` does with a `QueuePow` message: the
header is checked and, if it passes, queued. A peer chooses every field of the header. That the
header has an AuxPow is not checked but unwrapped, and so is the result of `AuxPow::check` once the
proof of work is met. The check asks for the hashes after the parent of the range's start, which it
also gets for an end below the start or on another branch, and a node that signs unwraps the error
of the walk for the proposals from the start to the end.

The store holds branches once the node has rolled back (`ForkRun`). What the check needs of it is
kept by every step: all parents are stored, the head in memory is the stored one, and the block with
the latest AuxPow is stored and does not lie above the head (`Forked`).
-/

namespace Alys
open Lib

/-- The handling of a `QueuePow` message; an error of the check is logged. -/
def receivePow (P : Primitives) (cfg : ChainConfig) (signer : Option BitcoinSigner)
    (pow : AuxPowHeader) : ChainM Unit := do
  let c ← Action.get
  match checkPow P cfg.retargetParams c.storage pow false with
  | .ok _ => queuePow P cfg signer pow
  | .error (.error _) => return
  | .error f => Action.fail f

/-- The checks of `check_pow` on the range of a header, which the AuxPow has to commit to by the
given hashes. -/
structure RangeChecked (P : Primitives) (s : Storage) (pow : AuxPowHeader)
    (start : SignedConsensusBlock) (hashes : List Hash256) : Prop where
  first : s.getBlock pow.rangeStart = some start
  child : ∃ finalized, s.getLatestFinalizedBlockRef P = .ok (some finalized) ∧
    (53143 < start.number → start.message.parentHash = finalized.hash)
  committed : s.getHashes start.message.parentHash pow.rangeEnd = .ok hashes

/-- What a header has to satisfy once its range passed the checks: it contains an AuxPow, an AuxPow
that meets the required target passes its own check, and if the node signs the start of the range is
an ancestor of its end, or the end. -/
def Answerable (P : Primitives) (params : BitcoinConsensusParams) (signer : Option BitcoinSigner)
    (s : Storage) (pow : AuxPowHeader) : Prop :=
  ∀ start hashes last bits, RangeChecked P s pow start hashes →
    s.getLastFinalizedBlock = .ok last → s.nextWorkRequired params last = .ok bits →
    ∃ auxpow, pow.auxpow = some auxpow ∧
      (auxpow.checkProofOfWork P bits = true →
        auxpow.check P (AuxPow.aggregateHash P hashes) pow.chainId = .ok () ∧
        (signer.isSome = true → s.IsAncestor pow.rangeStart pow.rangeEnd))

/-! ## The store -/

/-- What is kept of the store of a node that rolls back. -/
structure Forked (P : Primitives) (num : ExecutionBlockHash → Nat) (k : Core) : Prop where
  rooted : Rooted P num k.storage
  head : k.head = k.storage.head
  genesis : ∀ {h b}, k.storage.getBlock h = some b → b.message.parentHash = Hash256.zero →
    b.message.auxpowHeader.isSome = true
  latestPow : ∃ ref p, k.storage.latestPowBlock = some ref ∧ k.storage.getBlock ref.hash = some p ∧
    p.message.auxpowHeader.isSome = true ∧ ∀ head ∈ k.head, p.number ≤ head.height

/-- What is kept of a cached block: its parent and the end of its range are stored, and no other
stored block has its root. -/
structure ForkCandidate (P : Primitives) (k : Core) (m : ConsensusBlock) : Prop where
  parent : ∃ prev, k.storage.getBlock m.parentHash = some prev ∧
    m.executionPayload.parentHash = prev.message.executionPayload.blockHash
  range : RangeStored k.storage m
  unique : ∀ b, k.storage.getBlock (P.signingRoot m) = some b → b.message = m

/-- The walk of a rollback finds a stored block with a header that does not lie above its start. -/
lemma Forked.powBlockLoop_eq_ok {P num} {k : Core} (h : Forked P num k) {fuel : Nat} {hash}
    {b : SignedConsensusBlock} {r} (stored : k.storage.getBlock hash = some b)
    (e : k.storage.powBlockLoop fuel b = .ok r) :
    ∃ p, r = some p ∧ k.storage.getBlock (p.canonicalRoot P) = some p ∧
      p.message.auxpowHeader.isSome = true ∧ p.number ≤ b.number := by
  induction fuel generalizing hash b with
  | zero => cases e
  | succ fuel ih =>
    unfold Storage.powBlockLoop at e
    split at e
    case isTrue header =>
      cases e
      refine ⟨b, rfl, ?_, header, le_rfl⟩
      rw [h.rooted.keyed stored, stored]
    case isFalse header =>
      split at e
      case isTrue zero => exact absurd (h.genesis stored zero) header
      case isFalse nonzero =>
        rcases h.rooted.parents stored with ⟨_, zero⟩ | ⟨parent, hparent, number⟩
        · exact absurd zero nonzero
        · rw [hparent] at e
          obtain ⟨p, rfl, hp, hheader, hle⟩ := ih hparent e
          exact ⟨p, rfl, hp, hheader, by omega⟩

lemma Forked.ofGenesis {P num env g fees w} (hP : RootsSound P) (hg : g.IsGenesis)
    (hnum : num g.message.executionPayload.blockHash = 0) :
    Forked P num (Chain.ofGenesis P env g fees w).core := by
  obtain ⟨pow, hpow, _⟩ := hg.header
  have header : g.message.auxpowHeader.isSome = true := by rw [hpow, Option.isSome_some]
  refine ⟨.ofGenesis hP hg hnum fees, rfl, fun e _ => ?_, g.blockRef P, g, if_pos header,
    Storage.getBlock_extend_self, header, ?_⟩
  · rcases Storage.getBlock_extend_cases e with ⟨rfl, _⟩ | ⟨_, e⟩
    · exact header
    · cases e
  · rintro head ⟨⟩
    exact le_rfl

/-- The import of a candidate whose payload has the number after that of its parent. -/
lemma Forked.commit {P num env} {k : Core} {b p : SignedConsensusBlock} (h : Forked P num k)
    (hP : RootsSound P) (hp : k.storage.getBlock b.message.parentHash = some p)
    (number : b.number = p.number + 1)
    (hnum : num b.message.executionPayload.blockHash = b.number)
    (unique : ∀ b', k.storage.getBlock (b.canonicalRoot P) = some b' → b'.message = b.message)
    (fees : Nat) : Forked P num (k.commit P env b fees) := by
  constructor
  case rooted => exact h.rooted.extend hP hp number hnum fees
  case head =>
    change (if k.advances b then _ else k.head) = if k.advances b then _ else k.storage.head
    rw [h.head]
  case genesis =>
    intro hash b' e zero
    rcases Storage.getBlock_extend_cases e with ⟨rfl, _⟩ | ⟨_, e⟩
    · rw [zero, h.rooted.zero] at hp
      cases hp
    · exact h.genesis e zero
  case latestPow =>
    -- a block does not lie above the head that its import leaves
    have habove : ∀ {n}, n ≤ b.number → (∀ head ∈ k.head, k.advances b = false → n ≤ head.height) →
        ∀ head ∈ (k.commit P env b fees).head, n ≤ head.height := by
      intro n le old head mem
      change head ∈ (if k.advances b then some (b.blockRef P) else k.head) at mem
      cases hadv : k.advances b with
      | true =>
        rw [hadv, if_pos rfl] at mem
        cases mem
        exact le
      | false =>
        rw [hadv] at mem
        exact old head mem hadv
    cases header : b.message.auxpowHeader.isSome with
    | true =>
      refine ⟨b.blockRef P, b, if_pos header, Storage.getBlock_extend_self, header, ?_⟩
      refine habove le_rfl fun head mem hadv => ?_
      simp only [Core.advances, Option.mem_def.mp mem, Option.any_some, Bool.not_eq_false',
        decide_eq_true_eq] at hadv
      exact hadv.le
    | false =>
      obtain ⟨ref, q, href, hq, hheader, hle⟩ := h.latestPow
      obtain ⟨head, hb, hhead, _⟩ := h.rooted.head
      refine ⟨ref, q, ?_, ?_, hheader, ?_⟩
      · change (if b.message.auxpowHeader.isSome then _ else _) = _
        rw [header]
        exact href
      · change (k.storage.extend P b fees _).getBlock ref.hash = some q
        rw [Storage.Linear.getBlock_extend, if_neg, hq]
        intro same
        rw [unique q (same ▸ hq), header] at hheader
        cases hheader
      · by_cases hadv : k.advances b = true
        · have hhead' : head ∈ k.head := h.head.trans hhead
          refine habove ?_ fun _ mem _ => hle _ mem
          exact (hle head hhead').trans (Core.advances_iff.mp hadv head hhead')
        · intro head' mem
          change head' ∈ (if k.advances b then some (b.blockRef P) else k.head) at mem
          rw [if_neg hadv] at mem
          exact hle head' mem

/-- A rollback keeps the forked store. -/
lemma Forked.rollback {P num env} {k : Core} (h : Forked P num k) (commits : env.commitOps = true)
    {height : Nat} {target : SignedConsensusBlock} {powBlock}
    (htarget : k.storage.getBlockByHeight height = some target)
    (e : k.storage.powBlockLoop k.storage.fuel target = .ok powBlock) :
    Forked P num (k.rollback P env target powBlock) := by
  obtain ⟨hash, _, stored⟩ := Option.bind_eq_some_iff.mp htarget
  obtain ⟨p, rfl, hp, header, hle⟩ := h.powBlockLoop_eq_ok stored e
  rw [Core.rollback, if_pos commits]
  have rooted : Rooted P num (k.storage.rollback P target (some p)) := h.rooted.rollback htarget
  refine ⟨rooted, rfl, h.genesis, p.blockRef P, p, rfl, hp, header, ?_⟩
  rintro head ⟨⟩
  exact hle

/-- No stored block has the root of a block but another message. -/
def RootUnique (P : Primitives) (k : Core) (b : SignedConsensusBlock) : Prop :=
  ∀ b', k.storage.getBlock (b.canonicalRoot P) = some b' → b'.message = b.message

/-- Imports and rollbacks keep the forked store. -/
lemma maintains_forked {P cfg num} (hP : RootsSound P) :
    MaintainsForks P cfg (fun env => env.commitOps = true ∧ env.Numbers num)
      (IfValid P cfg (RootUnique P)) (Forked P num) (ForkCandidate P) where
  node :=
    { fetch := fun _ h _ => ⟨⟨h.rooted, h.head, h.genesis, h.latestPow⟩,
        fun _ hm => ⟨hm.parent, hm.range, hm.unique⟩⟩
      valid := fun ha _ valid =>
        ⟨(checkParent_eq_ok_iff.mp valid.parent).2.2.1, checkAuxPow_rangeStored valid.auxPow,
          ha _ valid⟩
      imports := by
        rintro k env b k' ⟨hcommit, henv⟩ h hm payload himp
        cases himp with
        | unchanged => exact h
        | stopped => exact ⟨h.rooted, h.head, h.genesis, h.latestPow⟩
        | dropped _ failed => exact absurd ⟨hm.range, hcommit⟩ failed
        | @committed w execution fees executed _ _ _ _ =>
          obtain ⟨prev, hprev, hparent⟩ := hm.parent
          obtain ⟨next, hnumb⟩ := henv _ _ payload executed
          rw [hparent, h.rooted.numbered hprev] at next
          have h' : Forked P num { k with bitcoinWallet := w } :=
            ⟨h.rooted, h.head, h.genesis, h.latestPow⟩
          exact h'.commit hP hprev next hnumb hm.unique fees
      restart := fun h => ⟨h.rooted, rfl, h.genesis, by
        obtain ⟨ref, p, href, hp, header, hle⟩ := h.latestPow
        exact ⟨ref, p, href, hp, header, fun head mem => hle head (h.head.trans mem)⟩⟩ }
  rollback := fun hq h htarget e =>
    ⟨h.rollback hq.1 htarget e, fun m hm => by
      rw [Core.rollback, if_pos hq.1]
      exact ⟨hm.parent, hm.range, hm.unique⟩⟩

section Gossip

variable {P : Primitives} {cfg : ChainConfig} {params : BitcoinConsensusParams}
  {signer : Option BitcoinSigner} {num : ExecutionBlockHash → Nat} {s : Storage} {c : Chain}
  {pow : AuxPowHeader}

/-! ## The check -/

/-- The result of the check for a range that passed. -/
def checkedPow (P : Primitives) (pow : AuxPowHeader) (bits : Nat) (hashes : List Hash256) :
    Except Failure Unit := do
  let auxpow ← okOr pow.auxpow .panic
  if auxpow.checkProofOfWork P bits then
    unwrap (auxpow.check P (AuxPow.aggregateHash P hashes) pow.chainId)
  else
    throw (.error .invalidPow)

/-- What is left of the check once the range is known. -/
lemma RangeChecked.checkPow_eq {start hashes last bits}
    (h : RangeChecked P s pow start hashes) (hlast : s.getLastFinalizedBlock = .ok last)
    (hbits : s.nextWorkRequired params last = .ok bits) :
    checkPow P params s pow false = checkedPow P pow bits hashes := by
  simp only [Storage.getLastFinalizedBlock, Storage.nextWorkRequired, bind_eq_ok_iff,
    okOr_eq_ok_iff] at hlast hbits
  obtain ⟨ref, href, block, hblock, e⟩ := hlast
  cases e
  obtain ⟨head, hhead, hbits⟩ := hbits
  obtain ⟨finalized, hfin, hchild⟩ := h.child
  have hrange : ¬ (53143 < start.number ∧ start.message.parentHash ≠ finalized.hash) :=
    fun hn => hn.2 (hchild hn.1)
  simp only [checkPow, href, hblock, hfin, h.first, h.committed, hhead, hbits, okOr, bind,
    Except.bind, if_neg hrange, Bool.false_or]
  rfl

lemma checkedPow_error_iff {bits hashes} :
    (∃ e, checkedPow P pow bits hashes = .error (.error e)) ↔
      ∃ auxpow, pow.auxpow = some auxpow ∧ auxpow.checkProofOfWork P bits = false := by
  unfold checkedPow
  cases pow.auxpow with
  | none => simp [okOr, bind, Except.bind]
  | some auxpow =>
    simp only [okOr, bind, Except.bind, Option.some.injEq, exists_eq_left']
    cases auxpow.checkProofOfWork P bits with
    | false => simp
    | true =>
      simp only [if_true, Bool.true_eq_false, iff_false, not_exists]
      intro e
      unfold unwrap
      split <;> simp

lemma checkedPow_ok_iff {bits hashes} :
    checkedPow P pow bits hashes = .ok () ↔
      ∃ auxpow, pow.auxpow = some auxpow ∧ auxpow.checkProofOfWork P bits = true ∧
        auxpow.check P (AuxPow.aggregateHash P hashes) pow.chainId = .ok () := by
  simp only [checkedPow, bind_eq_ok_iff, okOr_eq_ok_iff]
  refine exists_congr fun auxpow => and_congr_right fun _ => ?_
  cases auxpow.checkProofOfWork P bits with
  | false => simp
  | true =>
    simp only [if_true, true_and]
    exact ⟨unwrap_eq_ok, fun e => by rw [e]; rfl⟩

/-- A header whose range does not pass is answered with an error. -/
lemma Forked.checkPow_error (F : Forked P num c.core)
    (h : ∀ start hashes, ¬ RangeChecked P c.storage pow start hashes) :
    ∃ e, checkPow P params c.storage pow false = .error (.error e) := by
  obtain ⟨ref, p, href, hblock, _⟩ := F.latestPow
  change c.storage.latestPowBlock = some ref at href
  change c.storage.getBlock ref.hash = some p at hblock
  simp only [checkPow, href, hblock, okOr, bind, Except.bind]
  rcases @Storage.getLatestFinalizedBlockRef_cases P c.storage with ⟨_ | finalized, hfin⟩ | hfin
  · simp [hfin]
  · cases hstart : c.storage.getBlock pow.rangeStart with
    | none => simp [hfin]
    | some start =>
      simp only [hfin]
      by_cases hn : 53143 < start.number ∧ start.message.parentHash ≠ finalized.hash
      · simp [hn]
      · have hchild : 53143 < start.number → start.message.parentHash = finalized.hash :=
          fun hlt => not_not.mp fun ne => hn ⟨hlt, ne⟩
        rcases F.rooted.grounded.getHashes_cases start.message.parentHash pow.rangeEnd with
          ⟨hashes, hhashes⟩ | ⟨e, he⟩
        · exact absurd ⟨hstart, ⟨finalized, hfin, hchild⟩, hhashes⟩ (h start hashes)
        · change c.storage.getHashes _ _ = _ at he
          simp [hn, he]
  · simp [hfin]

/-- The block with the latest AuxPow and the target required after it. -/
lemma Forked.nextWorkRequired_total (F : Forked P num c.core) (hparams : params.Usable)
    (hheight : ∀ ref ∈ c.head, ref.height + 1 < 2 ^ 64) :
    ∃ last bits, c.storage.getLastFinalizedBlock = .ok last ∧
      c.storage.nextWorkRequired params last = .ok bits := by
  obtain ⟨ref, p, href, hblock, header, hle⟩ := F.latestPow
  obtain ⟨head, b, hhead, hb, hnumber⟩ := F.rooted.head
  have mem : head ∈ c.head := F.head.trans hhead
  have hbound := hheight head mem
  rw [hnumber] at hbound
  obtain ⟨bits, hbits⟩ := getNextWorkRequired_total hparams header (hnumber ▸ hle head mem) hbound
  refine ⟨p.message, bits, ?_, ?_⟩
  · simp only [Storage.getLastFinalizedBlock, bind_eq_ok_iff, okOr_eq_ok_iff]
    exact ⟨_, href, p, hblock, rfl⟩
  · simp only [Storage.nextWorkRequired, Storage.getHead, bind_eq_ok_iff, okOr_eq_ok_iff]
    exact ⟨_, ⟨_, hhead, hb⟩, hbits⟩

/-! ## The handling -/

lemma receivePow_ok_iff :
    (receivePow P cfg signer pow c).1 = .ok () ↔
      (∃ e, checkPow P cfg.retargetParams c.storage pow false = .error (.error e)) ∨
      checkPow P cfg.retargetParams c.storage pow false = .ok () ∧
        (queuePow P cfg signer pow c).1 = .ok () := by
  simp only [receivePow, Action.bind_apply, Action.get_apply]
  cases checkPow P cfg.retargetParams c.storage pow false with
  | ok => simp
  | error f => cases f <;> simp

/-- Queueing a header succeeds if the start of its range is an ancestor of the end or the end, or if
the node does not sign. -/
lemma queuePow_ok_iff (G : c.storage.Grounded)
    (hsigner : ∀ signer' ∈ signer,
      c.CanSign P signer' ∧ c.bitcoinWallet.Tracks P c.storage.proposals) :
    (queuePow P cfg signer pow c).1 = .ok () ↔
      (signer.isSome = true → c.storage.IsAncestor pow.rangeStart pow.rangeEnd) := by
  have hqueue : (queuePow P cfg signer pow c).1 = .ok () ↔
      (maybeGenerateSignatures P cfg signer pow { c with queuedPow := some pow }).1 = .ok () := by
    simp only [queuePow, Action.bind_apply, Action.modify_apply, Action.zoom, id]
    rcases maybeGenerateSignatures P cfg signer pow { c with queuedPow := some pow } with ⟨_ | _, _⟩
    · simp
    · simp
  rw [hqueue]
  cases signer with
  | none => simp [maybeGenerateSignatures]
  | some signer =>
    obtain ⟨hsign, tracks⟩ := hsigner signer rfl
    have hsign' : Chain.CanSign P signer { c with queuedPow := some pow } :=
      ⟨hsign.verifies, hsign.sighash, hsign.txids, hsign.keyed⟩
    rw [maybeGenerateSignatures_ok_iff hsign' tracks]
    constructor
    · rintro ⟨proposals, e⟩ _
      by_contra ancestor
      cases (G.proposalsLoop_error ancestor).symm.trans e
    · intro ancestor
      obtain ⟨_, _, _, e⟩ := G.walk_ok (ancestor rfl)
      exact ⟨_, e⟩

/-- There is one range, one last AuxPow and one target. -/
lemma RangeChecked.answerable_iff {start hashes last bits}
    (h : RangeChecked P s pow start hashes) (hlast : s.getLastFinalizedBlock = .ok last)
    (hbits : s.nextWorkRequired params last = .ok bits) :
    Answerable P params signer s pow ↔
      ∃ auxpow, pow.auxpow = some auxpow ∧
        (auxpow.checkProofOfWork P bits = true →
          auxpow.check P (AuxPow.aggregateHash P hashes) pow.chainId = .ok () ∧
          (signer.isSome = true → s.IsAncestor pow.rangeStart pow.rangeEnd)) := by
  refine ⟨fun all => all _ _ _ _ h hlast hbits, fun answer => ?_⟩
  intro start' hashes' last' bits' h' hlast' hbits'
  obtain rfl : start = start' := Option.some.inj (h.first.symm.trans h'.first)
  obtain rfl : hashes = hashes' := Except.ok.inj (h.committed.symm.trans h'.committed)
  obtain rfl : last = last' := Except.ok.inj (hlast.symm.trans hlast')
  obtain rfl : bits = bits' := Except.ok.inj (hbits.symm.trans hbits')
  exact answer

/-- On such a store, a message is handled without a panic if and only if it is answerable. -/
lemma Forked.receivePow_iff_answerable (F : Forked P num c.core)
    (hparams : cfg.retargetParams.Usable) (hheight : ∀ ref ∈ c.head, ref.height + 1 < 2 ^ 64)
    (hsigner : ∀ signer' ∈ signer,
      c.CanSign P signer' ∧ c.bitcoinWallet.Tracks P c.storage.proposals) :
    (receivePow P cfg signer pow c).1 = .ok () ↔
      Answerable P cfg.retargetParams signer c.storage pow := by
  rw [receivePow_ok_iff]
  by_cases hrange : ∃ start hashes, RangeChecked P c.storage pow start hashes
  · obtain ⟨start, hashes, h⟩ := hrange
    obtain ⟨last, bits, hlast, hbits⟩ := F.nextWorkRequired_total hparams hheight
    rw [h.checkPow_eq hlast hbits, checkedPow_error_iff, checkedPow_ok_iff,
      queuePow_ok_iff F.rooted.grounded hsigner, h.answerable_iff hlast hbits]
    cases pow.auxpow with
    | none => simp
    | some auxpow =>
      simp only [Option.some.injEq, exists_eq_left']
      cases auxpow.checkProofOfWork P bits <;> simp
  · have hnone : ∀ start hashes, ¬ RangeChecked P c.storage pow start hashes :=
      fun start hashes h => hrange ⟨start, hashes, h⟩
    exact ⟨fun _ start hashes _ _ h => absurd h (hnone start hashes),
      fun _ => .inl (F.checkPow_error hnone)⟩

end Gossip

/-- A rollback leaves the wallet and the proposals of the stored blocks. -/
lemma maintains_tracks {P cfg Q A} (hv : cfg.isValidator = true) :
    MaintainsForks P cfg Q A (fun k => k.bitcoinWallet.Tracks P k.storage.proposals)
      (fun _ _ => True) where
  node := (upholds_tracks hv).maintains
  rollback := by
    intro k env height target powBlock _ h _ _
    refine ⟨?_, fun _ _ => trivial⟩
    rw [Core.rollback]
    split
    · exact h
    · exact h

/-- An empty wallet tracks the proposals of a store with the genesis block only: there are none. -/
lemma UtxoManager.tracks_ofGenesis {P g fees} (hg : g.IsGenesis) :
    UtxoManager.empty.Tracks P (Storage.empty.extend P g fees true).proposals := by
  refine UtxoManager.tracks_empty.mono (Storage.proposals_extend.trans ?_)
  rintro tx (⟨root, b, hget, _⟩ | htx)
  · cases hget
  · rw [ConsensusBlock.proposals, hg.proposal] at htx
    cases htx

/-- In every state that a run from a stored genesis block reaches, with rollbacks to any height, a
`QueuePow` message is handled without a panic if and only if it is answerable. -/
theorem receivePow_returns_iff {P : Primitives} {cfg : ChainConfig}
    {num : ExecutionBlockHash → Nat} {env : Env} {spec : ChainSpec} {payload : ExecutionPayload}
    {signer : Option BitcoinSigner} {c₀ c : Chain} (pow : AuxPowHeader) (hP : RootsSound P)
    (hnum : num payload.blockHash = 0)
    (start : storeGenesis P cfg env spec payload (Chain.new .empty .empty) = (.ok (), c₀))
    (run : ForkRun P cfg (fun env => env.commitOps = true ∧ env.Numbers num)
      (IfValid P cfg (RootUnique P)) c₀ c)
    (hparams : cfg.retargetParams.Usable) (hheight : ∀ ref ∈ c.head, ref.height + 1 < 2 ^ 64)
    (hsigner : ∀ signer' ∈ signer, cfg.isValidator = true ∧ c.CanSign P signer') :
    (receivePow P cfg signer pow c).1 = .ok () ↔
      Answerable P cfg.retargetParams signer c.storage pow := by
  obtain ⟨g, fees, execution, hg, hpayload, _, _, rfl⟩ := storeGenesis_ok start
  rw [← hpayload] at hnum
  have F : Forked P num c.core := (maintains_forked hP).run run (.ofGenesis hP hg hnum) rfl
  refine F.receivePow_iff_answerable hparams hheight fun signer' mem => ?_
  obtain ⟨hv, hsign⟩ := hsigner signer' mem
  exact ⟨hsign, (maintains_tracks hv).run run (UtxoManager.tracks_ofGenesis hg) rfl⟩

/-- A block of height 1 whose proposal spends a deposit. -/
def SignedConsensusBlock.toyPaying : SignedConsensusBlock where
  message :=
    { (SignedConsensusBlock.toyPegout 1 500 ⟨[1], 0⟩).message with executionPayload := .toy 1 }
  signature := (SignedConsensusBlock.toyPegout 1 500 ⟨[1], 0⟩).signature

/-- A validator that has imported it on its genesis block, imported another block on it and gone
back. -/
def Chain.toyPaying : Chain :=
  [ForkEvent.node (.block .toyNumbered .toyPaying), .node (.block .toyNumbered (.toyNumbered 2)),
    .rollback .toyNumbered 1].foldl (fun c e => e.apply .toy (.toy 1 0) c) Chain.toyGenesis

/-- A block whose root is new. -/
lemma RootUnique.of_new {P cfg env} {k : Core} {b : SignedConsensusBlock}
    (hnew : k.storage.getBlock (b.canonicalRoot P) = none) :
    IfValid P cfg (RootUnique P) k env b := by
  intro missing _ b' e
  rw [hnew] at e
  cases e

lemma Chain.toyPaying_run :
    ForkRun .toy (.toy 1 0) (fun env => env.commitOps = true ∧ env.Numbers List.length)
      (IfValid .toy (.toy 1 0) (RootUnique .toy)) Chain.toyGenesis Chain.toyPaying := by
  have numbers : Env.toyNumbered.commitOps = true ∧ Env.toyNumbered.Numbers List.length :=
    ⟨rfl, Env.toyNumbered_numbers⟩
  refine .snoc (.snoc (.snoc .refl (ForkEvent.node (.block .toyNumbered .toyPaying)) ⟨numbers, ?_⟩)
    (ForkEvent.node (.block .toyNumbered (.toyNumbered 2))) ⟨numbers, ?_⟩)
    (ForkEvent.rollback .toyNumbered 1) numbers
  · exact .of_new (by decide)
  · exact .of_new (by decide)

/-- The proposal of the first block is the only transaction that the node holds. -/
lemma Chain.toyPaying_holds {tx : Transaction} (h : Chain.toyPaying.Holds tx) :
    SignedConsensusBlock.toyPaying.message.pegoutPaymentProposal = some tx := by
  have hblocks : Chain.toyPaying.storage.blocks.keys = {toyRoot 0 0, toyRoot 1 0, toyRoot 2 0} := by
    decide
  have hwallet : Chain.toyPaying.bitcoinWallet.rawTxs.keys = {[1, 1]} := by decide
  rcases h with ⟨root, b, hget, htx⟩ | ⟨txid, hraw⟩ | ⟨txid, psbt, hpsbt, _⟩
  · have mem := Finmap.mem_keys.mpr (Finmap.mem_of_lookup_eq_some hget)
    have hproposal : (Chain.toyPaying.storage.getBlock root).bind
        (·.message.pegoutPaymentProposal) = some tx := by rw [hget, Option.bind_some, htx]
    simp only [hblocks, Finset.mem_insert, Finset.mem_singleton] at mem
    rcases mem with rfl | rfl | rfl
    · cases hproposal
    · exact hproposal
    · cases hproposal
  · have mem := Finmap.mem_keys.mpr (Finmap.mem_of_lookup_eq_some hraw)
    rw [hwallet, Finset.mem_singleton] at mem
    rw [mem] at hraw
    exact hraw
  · cases hpsbt

/-- A member of the federation. -/
def BitcoinSigner.toy : BitcoinSigner :=
  ⟨[1], fun _ => ⟨List.replicate 64 0, List.length_replicate⟩⟩

lemma Chain.toyPaying_canSign : Chain.toyPaying.CanSign .toy .toy where
  verifies := fun _ => rfl
  sighash := fun _ _ _ _ => rfl
  txids := by
    intro tx tx' h h' _
    have e := (Chain.toyPaying_holds h).symm.trans (Chain.toyPaying_holds h')
    rw [Option.some.inj e]
  keyed := nofun

lemma Chain.toyPaying_signs :
    ∀ signer' ∈ some BitcoinSigner.toy,
      (ChainConfig.toy 1 0).isValidator = true ∧ Chain.toyPaying.CanSign .toy signer' := by
  rintro signer' ⟨⟩
  exact ⟨rfl, Chain.toyPaying_canSign⟩

lemma Chain.toyPaying_head : ∀ ref ∈ Chain.toyPaying.head, ref.height + 1 < 2 ^ 64 := by
  rintro ref ⟨⟩
  decide

lemma ChainConfig.toy_usable : (ChainConfig.toy 1 0).retargetParams.Usable :=
  ⟨by decide, by decide, by decide⟩

/-- After the rollback a header with a valid AuxPow is queued, and the node signs the proposal in
its range. -/
theorem receivePow_returns_signing :
    (receivePow .toy (.toy 1 0) (some .toy) (.toy (toyRoot 1 0)) Chain.toyPaying).1 = .ok () := by
  refine (receivePow_returns_iff _ Primitives.toy_rootsSound rfl Chain.toyGenesis_eq
    Chain.toyPaying_run ChainConfig.toy_usable Chain.toyPaying_head
    Chain.toyPaying_signs).mpr ?_
  intro start hashes last bits h _ _
  exact ⟨.toy, rfl, fun _ =>
    ⟨AuxPow.toy_check (.inl rfl) hashes, fun _ => ⟨⟨start, h.first⟩, .refl⟩⟩⟩

/-- A header without an AuxPow for a stored range makes the node panic. -/
theorem receivePow_returns_fails :
    ¬ ∀ (P : Primitives) (cfg : ChainConfig) (num : ExecutionBlockHash → Nat) (env : Env)
      (spec : ChainSpec) (payload : ExecutionPayload) (signer : Option BitcoinSigner)
      (c₀ c : Chain) (pow : AuxPowHeader), RootsSound P → num payload.blockHash = 0 →
      storeGenesis P cfg env spec payload (Chain.new .empty .empty) = (.ok (), c₀) →
      ForkRun P cfg (fun env => env.commitOps = true ∧ env.Numbers num)
        (IfValid P cfg (RootUnique P)) c₀ c →
      cfg.retargetParams.Usable → (∀ ref ∈ c.head, ref.height + 1 < 2 ^ 64) →
      (∀ signer' ∈ signer, cfg.isValidator = true ∧ c.CanSign P signer') →
      (receivePow P cfg signer pow c).1 = .ok () := by
  intro all
  have hpanic : (receivePow .toy (.toy 1 0) (some .toy)
      { AuxPowHeader.toy (toyRoot 1 0) with auxpow := none } Chain.toyPaying).1 =
      .error .panic := rfl
  have returns := all .toy (.toy 1 0) List.length .toyNumbered ⟨0x1d00ffff, 1⟩ (.toy 0) (some .toy)
    Chain.toyGenesis Chain.toyPaying { AuxPowHeader.toy (toyRoot 1 0) with auxpow := none }
    Primitives.toy_rootsSound rfl Chain.toyGenesis_eq Chain.toyPaying_run
    ChainConfig.toy_usable Chain.toyPaying_head Chain.toyPaying_signs
  rw [hpanic] at returns
  cases returns

end Alys

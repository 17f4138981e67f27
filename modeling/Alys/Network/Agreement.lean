import Alys.Chain.Steps
import Alys.Chain.Linear
import Alys.Candidate.Coherence
import Alys.Lib.Quorum
import Alys.Network.Nodes

/-!
# Agreement

Two nodes should never import different blocks of the same height. A node imports a block once two
thirds of the authorities have approved it, and any two such majorities have an authority in common,
so agreement holds if no authority approves two blocks of one height (`agreement`). This is the
argument of `Ballot.Sound.agree`, and what connects it to the nodes is that the approvals a node
counts were given for the very block that it counts them for (`BlockCandidateCache.Coherent`).

Nothing in the code keeps an authority from approving two blocks of one height: `process_block`
compares a block with the head, but not with the candidates, and in the cache a block gives way to
the next one of its height. Two nodes that propose in successive slots before they hear of each
other approve each other's block, and each of them imports the other's (`agreement_broken`).
-/

namespace Alys
open Lib

variable {P : Primitives} {S : Hash256 → Nat → Prop}

/-! ## A step of one node -/

/-- What a step of a node that keeps its cache coherent imports: a block that a majority approved,
as far as its bits tell, and that the authorities of these bits did approve. -/
structure NodeStep (P : Primitives) (cfg : ChainConfig) (S : Hash256 → Nat → Prop) (c c' : Chain) :
    Prop where
  head : c'.head.isSome
  coherent : c'.blockCandidates.Coherent P S
  imported : ∀ x ∈ c'.imported, x ∈ c.imported ∨
    cfg.aura.majorityApproved P x.block = .ok true ∧ x.block.SignedBy P S

/-- An import leaves a head and records at most the block. -/
lemma Imported.frame {cfg env b k k'} (h : Imported P cfg env b k k') (hhead : k.head.isSome) :
    k'.head.isSome ∧ ∀ x ∈ k'.imported, x ∈ k.imported ∨ x.block = b := by
  have hmoved : ∀ {k : Core}, k.head.isSome → (k.withHead P b).head.isSome := by
    intro k hk
    unfold Core.withHead
    split
    · rfl
    · exact hk
  cases h with
  | unchanged => exact ⟨hhead, fun x => .inl⟩
  | stopped => exact ⟨hhead, fun x => .inl⟩
  | dropped => exact ⟨hmoved hhead, fun x => .inl⟩
  | committed =>
    refine ⟨hmoved hhead, fun x mem => ?_⟩
    rcases List.mem_append.mp mem with mem | mem
    · exact .inl mem
    · rw [List.mem_singleton.mp mem]
      exact .inr rfl

namespace NodeStep

variable {cfg : ChainConfig} {env : Env} {c c' : Chain}

/-- The cache changes and the node stays as it is. -/
lemma of_stage {k : Core} (hhead : c.head.isSome) (hk : k.head = c.head)
    (himp : k.imported = c.imported) (h : Stage k (·.Coherent P S) c') : NodeStep P cfg S c c' where
  head := by rw [show c'.head = k.head from congrArg Core.head h.1, hk]; exact hhead
  coherent := h.2
  imported x mem := by
    rw [show c'.imported = k.imported from congrArg Core.imported h.1, himp] at mem
    exact .inl mem

/-- A node accepts a block or leaves it. -/
lemma maybeAcceptBlock {k : Core} {hash : Hash256} (hhead : c.head.isSome) (hk : k.head = c.head)
    (himp : k.imported = c.imported) (h : Stage k (·.Coherent P S) c') :
    NodeStep P cfg S c (Alys.maybeAcceptBlock P cfg env hash c').2 := by
  have step : NodeStep P cfg S c c' := of_stage hhead hk himp h
  obtain e | ⟨b, hb, hmajority, e⟩ := @maybeAcceptBlock_cases P cfg env hash c'
  · rw [e]
    exact step
  · rw [e]
    obtain ⟨himported, hcache⟩ := @importVerifiedBlock_imported P cfg env b
      { c' with blockCandidates := .empty }
    obtain ⟨hhead', hnew⟩ := himported.frame step.head
    refine ⟨hhead', by rw [hcache]; exact BlockCandidateCache.coherent_empty, fun x mem => ?_⟩
    rcases hnew x mem with mem | rfl
    · exact step.imported x mem
    · exact .inr ⟨hmajority, step.coherent.getBlock hb⟩

variable {b : SignedConsensusBlock}

/-- Processing a block that is signed by whom it says, at a node that signs it if it is valid. -/
lemma processBlock (hhead : c.head.isSome) (hc : c.blockCandidates.Coherent P S)
    (hb : b.SignedBy P S)
    (hself : (validateBlock P cfg env b c).1 = .ok () → ∀ authority ∈ cfg.aura.authority,
      S (b.canonicalRoot P) authority.index) :
    NodeStep P cfg S c (Alys.processBlock P cfg env b c).2 := by
  refine processBlock_keeps (fun missing _ => ⟨hhead, hc, fun x => .inl⟩) fun missing valid e => ?_
  have hz : b.number ≠ 0 := by
    obtain ⟨head, hhead⟩ := Option.isSome_iff_exists.mp hhead
    have := (checkParent_eq_ok_iff.mp valid.parent).2.1 head hhead
    omega
  refine ⟨(·.Coherent P S), hc,
    storeCandidate_keeps (fun h => h.insert hz hb)
      (fun ha h => h.addApproval (hself (by rw [e]) _ ha)),
    fun c' stage => ?_⟩
  exact ⟨of_stage hhead rfl rfl stage, maybeAcceptBlock hhead rfl rfl stage⟩

/-- Processing a block that does not pass the checks. -/
lemma rejected (hhead : c.head.isSome) (hc : c.blockCandidates.Coherent P S) {f : Failure}
    {missing : List LocalUtxo}
    (e : validateBlock P cfg env b c = (.error f, c.registerUtxos missing)) :
    NodeStep P cfg S c (Alys.processBlock P cfg env b c).2 := by
  simp only [Alys.processBlock, Action.bind_apply, e]
  exact ⟨hhead, hc, fun x => .inl⟩

lemma processApproval {a : ApproveBlock} (hhead : c.head.isSome)
    (hc : c.blockCandidates.Coherent P S) (ha : S a.blockHash a.signature.authorityIndex) :
    NodeStep P cfg S c (Alys.processApproval P cfg env a c).2 :=
  processApproval_keeps hc (fun h => h.addApproval ha) fun _ stage =>
    ⟨of_stage hhead rfl rfl stage, maybeAcceptBlock hhead rfl rfl stage⟩

end NodeStep

/-! ## The world -/

/-- An authority has signed a root. -/
def World.signedBy {n : Nat} (P : Primitives) (w : World n) (root : Hash256) (j : Nat) : Prop :=
  ∃ lt : j < n, ∃ m ∈ w.signed ⟨j, lt⟩, P.signingRoot m = root

/-- The votes are the signatures and the decisions are the imports, of a root at a height. -/
def World.ballot {n : Nat} (P : Primitives) (w : World n) : Ballot (Fin n) Nat Hash256 where
  votes j height root :=
    ∃ m ∈ w.signed j, m.executionPayload.blockNumber = height ∧ P.signingRoot m = root
  decided i height root :=
    ∃ x ∈ (w.nodes i).imported, x.block.number = height ∧ x.block.canonicalRoot P = root

/-- The votes and decisions are sound, all approvals that were published or are cached were given by
whom they say, and every node has a head. -/
structure World.Sound {n : Nat} (P : Primitives) (w : World n) : Prop where
  ballot : (w.ballot P).Sound (requiredSignatures n)
  blocks : ∀ b ∈ w.blocks, b.SignedBy P (w.signedBy P)
  approvals : ∀ a ∈ w.approvals, w.signedBy P a.blockHash a.signature.authorityIndex
  heads : ∀ i, (w.nodes i).head.isSome
  caches : ∀ i, (w.nodes i).blockCandidates.Coherent P (w.signedBy P)

/-- A block is backed if a majority of bits is set on it and their authorities signed it. -/
lemma World.backed_of_majority {n : Nat} {w : World n} {cfg : ChainConfig}
    {b : SignedConsensusBlock} (hP : RootsSound P) (hlen : cfg.aura.authorities.length = n)
    (hmajority : cfg.aura.majorityApproved P b = .ok true) (hb : b.SignedBy P (w.signedBy P)) :
    (w.ballot P).Backed (requiredSignatures n) b.number (b.canonicalRoot P) := by
  classical
  obtain ⟨_, _, hnum⟩ := Aura.majorityApproved_true_iff.mp hmajority
  rw [hlen] at hnum
  refine ⟨Finset.univ.filter fun j => (w.ballot P).votes j b.number (b.canonicalRoot P), ?_,
    fun j mem => (Finset.mem_filter.mp mem).2⟩
  rw [← Finset.card_map Fin.valEmbedding]
  refine hnum.trans (BitList.numSetBits_le_card fun j hj => ?_)
  obtain ⟨lt, m, mem, hroot⟩ := hb j hj
  have votes : (w.ballot P).votes ⟨j, lt⟩ b.number (b.canonicalRoot P) :=
    ⟨m, mem, hP.height hroot, hroot⟩
  exact Finset.mem_map.mpr ⟨⟨j, lt⟩, Finset.mem_filter.mpr ⟨Finset.mem_univ _, votes⟩, rfl⟩

/-- All blocks of this height that a node has signed have this root. -/
def World.Unopposed {n : Nat} (P : Primitives) (w : World n) (i : Fin n) (m : ConsensusBlock) :
    Prop :=
  ∀ m' ∈ w.signed i, m'.executionPayload.blockNumber = m.executionPayload.blockNumber →
    P.signingRoot m' = P.signingRoot m

namespace World.Sound

variable {n : Nat} {N : Nodes n} {w w' : World n} {i : Fin n}

/-- Nodes with a common head start soundly. -/
lemma start {stores : Fin n → Storage} {wallets : Fin n → UtxoManager} {head : BlockRef}
    (hhead : ∀ i, (stores i).head = some head) : (World.start stores wallets).Sound P where
  ballot := by
    constructor
    case once =>
      rintro v k a b ⟨_, mem, _⟩
      cases mem
    case backed =>
      rintro v k a ⟨_, mem, _⟩
      cases mem
  blocks := nofun
  approvals := nofun
  heads i := Option.isSome_iff_exists.mpr ⟨head, hhead i⟩
  caches _ := BlockCandidateCache.coherent_empty

/-- A step of one node that adds at most signatures that nothing it signed before opposes, and
publishes what was signed. -/
lemma step (hP : RootsSound P) (h : w.Sound P)
    (kept : ∀ {j m}, m ∈ w.signed j → m ∈ w'.signed j)
    (signed : ∀ {j m}, m ∈ w'.signed j → m ∈ w.signed j ∨ w'.Unopposed P j m)
    (others : ∀ {j}, j ≠ i → w'.nodes j = w.nodes j)
    (node : NodeStep P (N.cfg i) (w'.signedBy P) (w.nodes i) (w'.nodes i))
    (blocks : ∀ b ∈ w'.blocks, b ∈ w.blocks ∨ b.SignedBy P (w'.signedBy P))
    (approvals : ∀ a ∈ w'.approvals,
      a ∈ w.approvals ∨ w'.signedBy P a.blockHash a.signature.authorityIndex) : w'.Sound P := by
  have mono : ∀ root j, w.signedBy P root j → w'.signedBy P root j := by
    rintro root j ⟨lt, m, mem, hroot⟩
    exact ⟨lt, m, kept mem, hroot⟩
  constructor
  case ballot =>
    refine h.ballot.step ?_ ?_ ?_
    · rintro j k root ⟨m, mem, hm⟩
      exact ⟨m, kept mem, hm⟩
    · rintro j k root ⟨m, mem, hk, hroot⟩
      rcases signed mem with mem | only
      · exact .inl ⟨m, mem, hk, hroot⟩
      · refine .inr ?_
        rintro root' ⟨m', mem', hk', rfl⟩
        rw [← hroot]
        exact only m' mem' (hk'.trans hk.symm)
    · rintro j k root ⟨x, mem, hk, hroot⟩
      by_cases eq : j = i
      · subst eq
        rcases node.imported x mem with mem | ⟨hmajority, hx⟩
        · exact .inl ⟨x, mem, hk, hroot⟩
        · rw [← hk, ← hroot]
          exact .inr (World.backed_of_majority hP (N.length_eq j) hmajority hx)
      · rw [others eq] at mem
        exact .inl ⟨x, mem, hk, hroot⟩
  case blocks =>
    intro b mem
    rcases blocks b mem with mem | hb
    · exact fun j hj => mono _ j (h.blocks b mem j hj)
    · exact hb
  case approvals =>
    intro a mem
    rcases approvals a mem with mem | ha
    · exact mono _ _ (h.approvals a mem)
    · exact ha
  case heads =>
    intro j
    by_cases eq : j = i
    · subst eq
      exact node.head
    · rw [others eq]
      exact h.heads j
  case caches =>
    intro j
    by_cases eq : j = i
    · subst eq
      exact node.coherent
    · rw [others eq]
      exact (h.caches j).mono mono

variable {m : ConsensusBlock} {b : SignedConsensusBlock} {env : Env}

/-- A node signs a block that nothing it signed before opposes, moves on and publishes. -/
lemma signs (hP : RootsSound P) (h : w.Sound P) {c : Chain} (hm : w.Unopposed P i m)
    (nodes : w'.nodes = Function.update w.nodes i c) (hsigned : w'.signed = (w.sign i m).signed)
    (node : NodeStep P (N.cfg i) ((w.sign i m).signedBy P) (w.nodes i) c)
    (blocks : ∀ b ∈ w'.blocks, b ∈ w.blocks ∨ b.SignedBy P ((w.sign i m).signedBy P))
    (approvals : ∀ a ∈ w'.approvals,
      a ∈ w.approvals ∨ (w.sign i m).signedBy P a.blockHash a.signature.authorityIndex) :
    w'.Sound P := by
  have hby : w'.signedBy P = (w.sign i m).signedBy P := by
    unfold World.signedBy
    rw [hsigned]
  refine step (N := N) (i := i) hP h ?_ ?_ ?_ ?_ ?_ ?_
  · intro j m' mem
    rw [hsigned]
    exact World.mem_signed_sign.mpr (.inl mem)
  · intro j m' mem
    rw [hsigned] at mem
    rcases World.mem_signed_sign.mp mem with mem | ⟨rfl, rfl⟩
    · exact .inl mem
    · refine .inr fun m₂ mem₂ hn => ?_
      rw [hsigned] at mem₂
      rcases World.mem_signed_sign.mp mem₂ with mem₂ | ⟨_, rfl⟩
      · exact hm m₂ mem₂ hn
      · rfl
  · intro j ne
    rw [nodes, Function.update_of_ne ne]
  · rw [nodes, Function.update_self, hby]
    exact node
  · rwa [hby]
  · rwa [hby]

lemma signedBy_sign : (w.sign i m).signedBy P (P.signingRoot m) i :=
  ⟨i.isLt, m, World.mem_signed_sign.mpr (.inr ⟨rfl, rfl⟩), rfl⟩

lemma signedBy_mono {root : Hash256} {j : Nat} (h : w.signedBy P root j) :
    (w.sign i m).signedBy P root j := by
  obtain ⟨lt, m', mem, hroot⟩ := h
  exact ⟨lt, m', World.mem_signed_sign.mpr (.inl mem), hroot⟩

/-- A node processes a block that it signs. -/
lemma processBlock_signs (h : w.Sound P) (hb : b.SignedBy P ((w.sign i b.message).signedBy P)) :
    NodeStep P (N.cfg i) ((w.sign i b.message).signedBy P) (w.nodes i)
      (processBlock P (N.cfg i) env b (w.nodes i)).2 := by
  refine NodeStep.processBlock (h.heads i) ((h.caches i).mono fun _ _ => signedBy_mono) hb ?_
  intro _ authority ha
  rw [N.authority_eq, Option.mem_some_iff] at ha
  rw [← ha]
  exact signedBy_sign

/-- A node moves on without signing or publishing anything. -/
lemma moves (hP : RootsSound P) (h : w.Sound P) {c : Chain}
    (node : NodeStep P (N.cfg i) (w.signedBy P) (w.nodes i) c) : (w.setNode i c).Sound P := by
  refine step (N := N) (i := i) hP h id (fun mem => .inl mem)
    (fun ne => Function.update_of_ne ne _ _) ?_ (fun b mem => .inl mem) fun a mem => .inl mem
  rw [show (w.setNode i c).nodes i = c from Function.update_self ..]
  exact node

lemma deliverApproval (hP : RootsSound P) (h : w.Sound P) {a : ApproveBlock}
    (mem : a ∈ w.approvals) : (NetEvent.deliverApproval.run P N i env a w).Sound P :=
  h.moves hP (NodeStep.processApproval (h.heads i) (h.caches i) (h.approvals a mem))

/-- A node processes a block and publishes what it signed: the block that passes its checks, by whom
it says apart from the node itself, is opposed by nothing that the node signed before. -/
lemma process (hP : RootsSound P) (h : w.Sound P)
    (hb : b.SignedBy P ((w.sign i b.message).signedBy P))
    (hm : w.passes P N i env b = true → w.Unopposed P i b.message)
    (nodes : w'.nodes = (w.process P N i env b).nodes)
    (hsigned : w'.signed = (w.process P N i env b).signed)
    (blocks : ∀ b' ∈ w'.blocks, b' ∈ w.blocks ∨ w.passes P N i env b = true ∧ b' = b)
    (approvals : ∀ a ∈ w'.approvals, a ∈ w.approvals ∨ w.passes P N i env b = true ∧
      a.blockHash = b.canonicalRoot P ∧ a.signature.authorityIndex = i) : w'.Sound P := by
  obtain ⟨missing, valid, hv⟩ | ⟨f, missing, _, hv⟩ :=
    @validateBlock_cases P (N.cfg i) env b (w.nodes i)
  · have hpasses : w.passes P N i env b = true := by rw [World.passes, hv]; rfl
    rw [World.process, if_pos hpasses] at nodes hsigned
    refine h.signs hP (hm hpasses) nodes hsigned (processBlock_signs h hb) ?_ ?_
    · intro b' mem
      rcases blocks b' mem with mem | ⟨_, rfl⟩
      · exact .inl mem
      · exact .inr hb
    · intro a mem
      rcases approvals a mem with mem | ⟨_, hhash, hindex⟩
      · exact .inl mem
      · rw [hhash, hindex]
        exact .inr signedBy_sign
  · have hpasses : ¬ w.passes P N i env b = true := by
      rw [World.passes, hv]
      exact Bool.false_ne_true
    rw [World.process, if_neg hpasses] at nodes hsigned
    have moved := h.moves hP (NodeStep.rejected (h.heads i) (h.caches i) hv)
    have hby : w'.signedBy P = w.signedBy P := by
      unfold World.signedBy
      rw [hsigned]
      rfl
    have hballot : w'.ballot P =
        (w.setNode i (processBlock P (N.cfg i) env b (w.nodes i)).2).ballot P := by
      unfold World.ballot
      rw [nodes, hsigned]
    refine ⟨hballot ▸ moved.ballot, ?_, ?_, nodes ▸ moved.heads, ?_⟩
    · intro b' mem
      rw [hby]
      exact h.blocks b' ((blocks b' mem).resolve_right fun x => hpasses x.1)
    · intro a mem
      rw [hby]
      exact h.approvals a ((approvals a mem).resolve_right fun x => hpasses x.1)
    · intro j
      rw [nodes, hby]
      exact moved.caches j

/-- What is returned as processed has passed the checks. -/
lemma passes_of_ok {r : Option IndividualApproval}
    (e : (processBlock P (N.cfg i) env b (w.nodes i)).1 = .ok r) :
    w.passes P N i env b = true := by
  obtain ⟨_, _, hvalid, _⟩ := Action.bind_eq_ok e
  rw [World.passes, hvalid]
  rfl

/-- A node signs a block of its own. -/
lemma propose (hP : RootsSound P) (h : w.Sound P)
    (hm : w.proposes P N i env m = true → w.Unopposed P i m) :
    (NetEvent.propose.run P N i env m w).Sound P := by
  unfold NetEvent.propose.run
  split
  case h_1 => exact h
  case h_2 b e =>
    obtain ⟨rfl, hbits⟩ := ConsensusBlock.signBlock_eq_ok e
    have hb : b.SignedBy P ((w.sign i b.message).signedBy P) := by
      intro j hj
      rw [hbits j hj]
      exact signedBy_sign
    have hm : w.passes P N i env b = true → w.Unopposed P i b.message := by
      intro hpasses
      exact hm (by rw [World.proposes, e]; exact hpasses)
    split
    case h_1 r hr =>
      refine h.process hP hb hm rfl rfl (fun b' mem => ?_) fun a mem => .inl ?_
      · rcases List.mem_append.mp mem with mem | mem
        · rw [World.process_blocks] at mem
          exact .inl mem
        · exact .inr ⟨passes_of_ok hr, List.mem_singleton.mp mem⟩
      · rw [← World.process_approvals]
        exact mem
    case h_2 =>
      refine h.process hP hb hm rfl rfl (fun b' mem => .inl ?_) fun a mem => .inl ?_
      · rw [← World.process_blocks]
        exact mem
      · rw [← World.process_approvals]
        exact mem

/-- A node processes a block. -/
lemma deliverBlock (hP : RootsSound P) (h : w.Sound P) (mem : b ∈ w.blocks)
    (hm : w.passes P N i env b = true → w.Unopposed P i b.message) :
    (NetEvent.deliverBlock.run P N i env b w).Sound P := by
  have hb : b.SignedBy P ((w.sign i b.message).signedBy P) :=
    fun j hj => signedBy_mono (h.blocks b mem j hj)
  have happroval := @processBlock_approval (w.nodes i) P (N.cfg i) env b
  unfold NetEvent.deliverBlock.run
  split
  case h_1 approval hr =>
    obtain ⟨_, authority, ha, rfl⟩ := happroval hr
    rw [N.authority_eq, Option.some.injEq] at ha
    subst ha
    refine h.process hP hb hm rfl rfl (fun b' mem => .inl ?_) fun a mem => ?_
    · rw [← World.process_blocks]
      exact mem
    · rcases List.mem_append.mp mem with mem | mem
      · rw [World.process_approvals] at mem
        exact .inl mem
      · rw [List.mem_singleton.mp mem]
        exact .inr ⟨passes_of_ok hr, rfl, rfl⟩
  case h_2 =>
    refine h.process hP hb hm rfl rfl (fun b' mem => .inl ?_) fun a mem => .inl ?_
    · rw [← World.process_blocks]
      exact mem
    · rw [← World.process_approvals]
      exact mem

end World.Sound

/-- No node gets two valid blocks of some height: a block that is proposed or arrives and passes the
checks of the node is the only one of its height that this node has signed. -/
def NetEvent.NoConflict {n : Nat} (P : Primitives) (N : Nodes n) (w : World n) : NetEvent n → Prop
  | .propose i env m => w.proposes P N i env m = true → w.Unopposed P i m
  | .deliverBlock i env b => w.passes P N i env b = true → w.Unopposed P i b.message
  | .deliverApproval .. => True

instance {n : Nat} {w : World n} {i : Fin n} {m : ConsensusBlock} : Decidable (w.Unopposed P i m) :=
  inferInstanceAs (Decidable (∀ m' ∈ w.signed i, _))

instance {n : Nat} {N : Nodes n} {w : World n} : DecidablePred (NetEvent.NoConflict P N w)
  | .propose .. => inferInstanceAs (Decidable (_ → _))
  | .deliverBlock .. => inferInstanceAs (Decidable (_ → _))
  | .deliverApproval .. => inferInstanceAs (Decidable True)

/-- Two majorities meet. -/
lemma lt_two_mul_requiredSignatures {n : Nat} (hn : 0 < n) : n < 2 * requiredSignatures n := by
  unfold requiredSignatures
  omega

/-- In every run of nodes with a common head in which no conflict arises at a node, blocks of the
same height that two nodes import have the same root. -/
theorem agreement {n : Nat} {N : Nodes n} {stores : Fin n → Storage} {wallets : Fin n → UtxoManager}
    {head : BlockRef} {w : World n} (hP : RootsSound P) (hhead : ∀ i, (stores i).head = some head)
    (run : Run (NetEvent.apply P N) (fun w e => e.Possible N w ∧ e.NoConflict P N w)
      (World.start stores wallets) w) (i j : Fin n) :
    ∀ x ∈ (w.nodes i).imported, ∀ y ∈ (w.nodes j).imported, x.block.number = y.block.number →
      x.block.canonicalRoot P = y.block.canonicalRoot P := by
  have sound : w.Sound P := by
    refine run.invariant (World.Sound.start hhead) ?_
    rintro w (⟨i, env, m⟩ | ⟨i, env, b⟩ | ⟨i, env, a⟩) h ⟨possible, noConflict⟩
    · exact h.propose hP noConflict
    · exact h.deliverBlock hP possible noConflict
    · exact h.deliverApproval hP possible.2
  intro x hx y hy hxy
  refine sound.ballot.agree ?_ ⟨x, hx, rfl, rfl⟩ ⟨y, hy, hxy.symm, rfl⟩
  rw [Fintype.card_fin]
  exact lt_two_mul_requiredSignatures i.pos

/-- Two validators. -/
def Nodes.toy : Nodes 2 where
  cfg i := .toy 2 i
  signer _ := []
  length_eq _ := rfl
  authority_eq _ := rfl

/-- Two validators after steps from a common block of height 0. -/
def World.toyAfter (events : List (NetEvent 2)) : World 2 :=
  events.foldl (fun w e => e.apply .toy .toy w) (World.start (fun _ => .toy) fun _ => .empty)

lemma World.toyAfter_snoc {allowed : World 2 → NetEvent 2 → Prop} (events : List (NetEvent 2))
    (e : NetEvent 2)
    (run : Run (NetEvent.apply .toy .toy) allowed (World.start (fun _ => .toy) fun _ => .empty)
      (World.toyAfter events))
    (ok : allowed (World.toyAfter events) e) :
    Run (NetEvent.apply .toy .toy) allowed (World.start (fun _ => .toy) fun _ => .empty)
      (World.toyAfter (events ++ [e])) := by
  rw [World.toyAfter, List.foldl_append]
  exact run.snoc e ok

/-- The block of height 1 that the `i`-th validator proposes in a slot, with its approval. -/
def SignedConsensusBlock.toyProposal (i slot : Nat) : SignedConsensusBlock where
  message := (SignedConsensusBlock.toy 1 slot).message
  signature := ⟨⟨(List.replicate maxValidators false).set i true, by simp⟩, []⟩

/-- The first validator proposes a block, the second one imports it, and so does the first one when
the second one's approval arrives. -/
def World.toyAgreed : World 2 :=
  World.toyAfter [.propose 0 .toy (SignedConsensusBlock.toy 1 0).message,
    .deliverBlock 1 .toy (.toyProposal 0 0), .deliverApproval 0 .toy ⟨toyRoot 1 0, ⟨[], 1⟩⟩]

/-- The validators agree on the block. -/
theorem agreement_toyAgreed :
    (∀ i, (World.toyAgreed.nodes i).imported.map (fun x => x.block.canonicalRoot .toy) =
      [toyRoot 1 0]) ∧
    ∀ x ∈ (World.toyAgreed.nodes 0).imported, ∀ y ∈ (World.toyAgreed.nodes 1).imported,
      x.block.number = y.block.number →
        x.block.canonicalRoot .toy = y.block.canonicalRoot .toy := by
  refine ⟨by decide, agreement Primitives.toy_rootsSound (fun _ => rfl)
    (World.toyAfter_snoc [_, _] _
      (World.toyAfter_snoc [_] _ (World.toyAfter_snoc [] _ .refl ?_) ?_) ?_) 0 1⟩
  · decide
  · decide
  · decide

/-- The validators propose in the slots 0 and 1, and then each gets the other's block. -/
def World.toyDivided : World 2 :=
  World.toyAfter [.propose 0 .toy (SignedConsensusBlock.toy 1 0).message,
    .propose 1 .toy (SignedConsensusBlock.toy 1 1).message,
    .deliverBlock 1 .toy (.toyProposal 0 0), .deliverBlock 0 .toy (.toyProposal 1 1)]

/-- Each of the two validators imports the other's block of height 1. -/
theorem agreement_broken :
    ¬ ∀ (P : Primitives) (n : Nat) (N : Nodes n) (stores : Fin n → Storage)
      (wallets : Fin n → UtxoManager) (head : BlockRef) (w : World n),
      RootsSound P → (∀ i, (stores i).head = some head) →
      Run (NetEvent.apply P N) (fun w e => e.Possible N w) (World.start stores wallets) w →
      ∀ i j, ∀ x ∈ (w.nodes i).imported, ∀ y ∈ (w.nodes j).imported,
        x.block.number = y.block.number → x.block.canonicalRoot P = y.block.canonicalRoot P := by
  intro all
  have run : Run (NetEvent.apply .toy .toy) (fun w e => e.Possible .toy w)
      (World.start (fun _ => .toy) fun _ => .empty) World.toyDivided := by
    refine World.toyAfter_snoc [_, _, _] _ (World.toyAfter_snoc [_, _] _
      (World.toyAfter_snoc [_] _ (World.toyAfter_snoc [] _ .refl ?_) ?_) ?_) ?_
    · decide
    · decide
    · decide
    · decide
  have agreed := all _ _ _ _ _ ⟨toyRoot 0 0, 0⟩ _ Primitives.toy_rootsSound (fun _ => rfl) run 0 1
  have divided : ∃ x ∈ (World.toyDivided.nodes 0).imported,
      ∃ y ∈ (World.toyDivided.nodes 1).imported, x.block.number = y.block.number ∧
        x.block.canonicalRoot .toy ≠ y.block.canonicalRoot .toy := by decide
  obtain ⟨x, hx, y, hy, hn, hne⟩ := divided
  exact hne (agreed x hx y hy hn)

end Alys

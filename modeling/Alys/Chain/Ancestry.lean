import Alys.Chain.Rollback

/-!
# Ancestors of the head

After a rollback the store holds more than one chain: the blocks above the new head stay, and the
next block may name any stored block as its parent. What the node keeps about the chain of its head,
the reference to the latest AuxPow and with it the block finalized last, is right as long as each
imported block extends the stored head and the range of its header ends on the chain of that head.
-/

namespace Alys
open Lib

/-- The messages of a store are those of another one, which may hold more. -/
def Storage.Retains (s s' : Storage) : Prop :=
  ∀ {h b}, s.getBlock h = some b → ∃ b', s'.getBlock h = some b' ∧ b'.message = b.message

/-- `NearestPow s h h'`: of the block `h` and its ancestors, `h'` is the nearest one with an AuxPow
header. -/
inductive NearestPow (s : Storage) : Hash256 → Hash256 → Prop where
  | here {h b} (stored : s.getBlock h = some b) (header : b.message.auxpowHeader.isSome = true) :
    NearestPow s h h
  | parent {h b h'} (stored : s.getBlock h = some b) (none : b.message.auxpowHeader = none)
    (rest : NearestPow s b.message.parentHash h') : NearestPow s h h'

namespace NearestPow

variable {P : Primitives} {s s' : Storage} {h h' : Hash256}

lemma mono (n : NearestPow s h h') (le : s.Retains s') : NearestPow s' h h' := by
  induction n with
  | here stored header =>
    obtain ⟨b', stored', e⟩ := le stored
    exact .here stored' (by rw [e]; exact header)
  | parent stored none _ ih =>
    obtain ⟨b', stored', e⟩ := le stored
    refine .parent stored' (by rw [e]; exact none) ?_
    rw [e]
    exact ih

lemma stored (n : NearestPow s h h') : ∃ b, s.getBlock h = some b := by
  cases n with
  | here stored => exact ⟨_, stored⟩
  | parent stored => exact ⟨_, stored⟩

/-- The nearest block with a header has a header and is an ancestor, or the block itself. -/
lemma header (n : NearestPow s h h') :
    (∃ p pow, s.getBlock h' = some p ∧ p.message.auxpowHeader = some pow) ∧
      Relation.ReflTransGen s.IsParent h' h := by
  induction n with
  | here stored header =>
    obtain ⟨pow, hpow⟩ := Option.isSome_iff_exists.mp header
    exact ⟨⟨_, pow, stored, hpow⟩, .refl⟩
  | parent stored none _ ih => exact ⟨ih.1, ih.2.tail ⟨_, stored, rfl⟩⟩

end NearestPow

variable {h h' : Hash256} {advances : Bool} {fees : Nat}

lemma Storage.IsParent.mono {s s' : Storage} (le : s.Retains s') (e : s.IsParent h h') :
    s'.IsParent h h' := by
  obtain ⟨b, hb, rfl⟩ := e
  obtain ⟨b', hb', e⟩ := le hb
  exact ⟨b', hb', by rw [e]⟩

lemma Storage.Retains.ancestor {s s' : Storage} (le : s.Retains s')
    (e : Relation.ReflTransGen s.IsParent h h') : Relation.ReflTransGen s'.IsParent h h' :=
  Relation.ReflTransGen.mono (fun _ _ => Storage.IsParent.mono le) _ _ e

variable {s : Storage} {b : SignedConsensusBlock}

/-- A stored block after an import is the new one or an old one. -/
lemma Storage.getBlock_extend_cases {P} {b b' : SignedConsensusBlock} {h : Hash256}
    (e : (s.extend P b fees advances).getBlock h = some b') :
    b' = b ∧ h = b.canonicalRoot P ∨ h ≠ b.canonicalRoot P ∧ s.getBlock h = some b' := by
  rw [Storage.Linear.getBlock_extend] at e
  split at e
  case isTrue eq => exact .inl ⟨(Option.some.inj e).symm, eq⟩
  case isFalse ne => exact .inr ⟨ne, e⟩

lemma Storage.getBlock_extend_self {P} :
    (s.extend P b fees advances).getBlock (b.canonicalRoot P) = some b := by
  rw [Storage.Linear.getBlock_extend, if_pos rfl]

lemma Storage.getBlock_extend_zero {P} (hP : RootsSound P) (zero : s.getBlock Hash256.zero = none) :
    (s.extend P b fees advances).getBlock Hash256.zero = none := by
  have ne : Hash256.zero ≠ b.canonicalRoot P := (hP.nonzero b.message).symm
  rw [Storage.Linear.getBlock_extend, if_neg ne, zero]

/-- Storing a block keeps the messages if no other block has its root. -/
lemma Storage.retains_extend {P}
    (unique : ∀ b', s.getBlock (b.canonicalRoot P) = some b' → b'.message = b.message) :
    s.Retains (s.extend P b fees true) := by
  intro h b' e
  rw [Storage.Linear.getBlock_extend]
  split
  case isTrue eq =>
    subst eq
    exact ⟨b, rfl, (unique b' e).symm⟩
  case isFalse => exact ⟨b', e, rfl⟩

/-! ## The walk of a rollback -/

/-- The walk finds the nearest block with a header, if there is one. -/
lemma Storage.powBlockLoop_nearest {P}
    (keyed : ∀ {h b}, s.getBlock h = some b → b.canonicalRoot P = h)
    (zero : s.getBlock Hash256.zero = none) {fuel : Nat} {r} (hb : s.getBlock h = some b)
    (near : NearestPow s h h') (e : s.powBlockLoop fuel b = .ok r) :
    ∃ p, r = some p ∧ NearestPow s h (p.canonicalRoot P) := by
  induction fuel generalizing h b with
  | zero => cases e
  | succ fuel ih =>
    unfold powBlockLoop at e
    split at e
    case isTrue header =>
      cases e
      refine ⟨b, rfl, ?_⟩
      rw [keyed hb]
      exact .here hb header
    case isFalse header =>
      cases near with
      | here stored header' =>
        rw [hb] at stored
        cases stored
        exact absurd header' header
      | parent stored none rest =>
        rw [hb] at stored
        cases stored
        obtain ⟨parent, hparent⟩ := rest.stored
        split at e
        case isTrue hz =>
          rw [hz, zero] at hparent
          cases hparent
        case isFalse =>
          rw [hparent] at e
          obtain ⟨p, rfl, hp⟩ := ih hparent rest e
          exact ⟨p, rfl, .parent hb none hp⟩

/-! ## What is kept -/

/-- The reference to the latest AuxPow is right for the head: it is the nearest block with a header,
and the block finalized last is an ancestor of the head or the head. -/
def TracksPow (P : Primitives) (s : Storage) : Prop :=
  ∃ head ref finalized, s.head = some head ∧ s.latestPowBlock = some ref ∧
    NearestPow s head.hash ref.hash ∧ s.getLatestFinalizedBlockRef P = .ok (some finalized) ∧
    Relation.ReflTransGen s.IsParent finalized.hash head.hash

/-- A block extends the stored head, its range ends on the chain of that head, and no other stored
block has its root. -/
structure ExtendsOwnHead (P : Primitives) (s : Storage) (b : SignedConsensusBlock) : Prop where
  parent : ∃ head, s.head = some head ∧ b.message.parentHash = head.hash ∧
    ∀ pow, b.message.auxpowHeader = some pow → pow.height ≠ 0 →
      Relation.ReflTransGen s.IsParent pow.rangeEnd head.hash
  unique : ∀ b', s.getBlock (b.canonicalRoot P) = some b' → b'.message = b.message

/-- Every stored block has an ancestor with a header, the range of every header ends with an
ancestor, and the reference to the latest AuxPow is right for the head. -/
structure Tracked (P : Primitives) (s : Storage) : Prop where
  keyed : ∀ {h b}, s.getBlock h = some b → b.canonicalRoot P = h
  zero : s.getBlock Hash256.zero = none
  nearest : ∀ {h b}, s.getBlock h = some b → ∃ h', NearestPow s h h'
  ranges : ∀ {h b pow}, s.getBlock h = some b → b.message.auxpowHeader = some pow →
    pow.height ≠ 0 →
    (∃ stop, s.getBlock pow.rangeEnd = some stop) ∧
      Relation.ReflTransGen s.IsParent pow.rangeEnd h
  current : ∃ head ref, s.head = some head ∧ s.latestPowBlock = some ref ∧
    NearestPow s head.hash ref.hash

namespace Tracked

variable {P : Primitives} {s : Storage} {b g : SignedConsensusBlock}

/-- The end of the range of the nearest header is an ancestor of the head. -/
lemma tracksPow (h : Tracked P s) : TracksPow P s := by
  obtain ⟨head, ref, hhead, href, near⟩ := h.current
  obtain ⟨⟨p, pow, hp, hpow⟩, ancestor⟩ := near.header
  by_cases h0 : pow.height = 0
  · exact ⟨head, ref, ref, hhead, href, near, Storage.getLatestFinalizedBlockRef_eq_iff.mpr
      ⟨ref, p, pow, href, hp, hpow, .inr ⟨h0, rfl⟩⟩, ancestor⟩
  · obtain ⟨⟨stop, hstop⟩, hrange⟩ := h.ranges hp hpow h0
    refine ⟨head, ref, stop.blockRef P, hhead, href, near,
      Storage.getLatestFinalizedBlockRef_eq_iff.mpr
        ⟨ref, p, pow, href, hp, hpow, .inl ⟨h0, stop, hstop, rfl⟩⟩, ?_⟩
    change Relation.ReflTransGen _ (stop.canonicalRoot P) _
    rw [h.keyed hstop]
    exact hrange.trans ancestor

/-- The store with the genesis block. -/
lemma ofGenesis (hP : RootsSound P) (hg : g.IsGenesis) (fees : Nat) :
    Tracked P (Storage.empty.extend P g fees true) := by
  have L := (SingleChain.ofGenesis hP hg fees).linear
  obtain ⟨pow, hpow, hheight, _⟩ := hg.header
  have hget : ∀ {h b}, (Storage.empty.extend P g fees true).getBlock h = some b →
      b = g ∧ g.canonicalRoot P = h := by
    intro h b e
    obtain ⟨mem, rfl⟩ := L.stored.mp e
    cases List.mem_singleton.mp mem
    exact ⟨rfl, rfl⟩
  have near : NearestPow (Storage.empty.extend P g fees true) (g.canonicalRoot P)
      (g.canonicalRoot P) := .here (L.getBlock (List.mem_singleton.mpr rfl)) (by simp [hpow])
  constructor
  case keyed =>
    intro h b e
    obtain ⟨rfl, rfl⟩ := hget e
    rfl
  case zero => exact L.zero
  case nearest =>
    intro h b e
    obtain ⟨rfl, rfl⟩ := hget e
    exact ⟨_, near⟩
  case ranges =>
    intro h b pow' e hpow' h0
    obtain ⟨rfl, rfl⟩ := hget e
    rw [hpow, Option.some.injEq] at hpow'
    exact absurd (hpow' ▸ hheight) h0
  case current =>
    exact ⟨g.blockRef P, g.blockRef P, rfl, by simp [Storage.extend, hpow], near⟩

/-- The import of a block that extends the head, whose header has passed the checks. -/
lemma extend (h : Tracked P s) (hP : RootsSound P) (hb : ExtendsOwnHead P s b)
    (stored : ∀ pow, b.message.auxpowHeader = some pow →
      ∃ stop, s.getBlock pow.rangeEnd = some stop) (fees : Nat) :
    Tracked P (s.extend P b fees true) := by
  have le : s.Retains (s.extend P b fees true) := Storage.retains_extend hb.unique
  have hget : (s.extend P b fees true).getBlock (b.canonicalRoot P) = some b :=
    Storage.getBlock_extend_self
  obtain ⟨head, hhead, hpar, hrange⟩ := hb.parent
  obtain ⟨head', ref, hhead', href, near⟩ := h.current
  cases hhead.symm.trans hhead'
  -- the nearest header of the new head: its own, or that of the old head
  have nearNew : ∀ {ref'}, (s.extend P b fees true).latestPowBlock = some ref' →
      NearestPow (s.extend P b fees true) (b.canonicalRoot P) ref'.hash := by
    intro ref' e
    cases hpow : b.message.auxpowHeader with
    | some pow =>
      simp only [Storage.extend, hpow, Option.isSome_some, if_true, Option.some.injEq] at e
      rw [← e]
      exact .here hget (by simp [hpow])
    | none =>
      simp only [Storage.extend, hpow, Option.isSome_none, Bool.false_eq_true, if_false, href,
        Option.some.injEq] at e
      rw [← e]
      exact .parent hget hpow (hpar ▸ near.mono le)
  have hlatest : ∃ ref', (s.extend P b fees true).latestPowBlock = some ref' := by
    cases hpow : b.message.auxpowHeader with
    | some pow => exact ⟨b.blockRef P, by simp [Storage.extend, hpow]⟩
    | none => exact ⟨ref, by simp [Storage.extend, hpow, href]⟩
  obtain ⟨ref', href'⟩ := hlatest
  constructor
  case keyed =>
    intro h' b' e
    rcases Storage.getBlock_extend_cases e with ⟨rfl, rfl⟩ | ⟨_, e⟩
    · rfl
    · exact h.keyed e
  case zero => exact Storage.getBlock_extend_zero hP h.zero
  case nearest =>
    intro h' b' e
    rcases Storage.getBlock_extend_cases e with ⟨rfl, rfl⟩ | ⟨_, e⟩
    · exact ⟨_, nearNew href'⟩
    · obtain ⟨h'', n⟩ := h.nearest e
      exact ⟨h'', n.mono le⟩
  case ranges =>
    intro h' b' pow e hpow h0
    rcases Storage.getBlock_extend_cases e with ⟨rfl, rfl⟩ | ⟨_, e⟩
    · obtain ⟨stop, hstop⟩ := stored pow hpow
      obtain ⟨stop', hstop', _⟩ := le hstop
      refine ⟨⟨stop', hstop'⟩, (le.ancestor (hrange pow hpow h0)).tail ⟨b', hget, hpar⟩⟩
    · obtain ⟨⟨stop, hstop⟩, hanc⟩ := h.ranges e hpow h0
      obtain ⟨stop', hstop', _⟩ := le hstop
      exact ⟨⟨stop', hstop'⟩, le.ancestor hanc⟩
  case current => exact ⟨b.blockRef P, ref', rfl, href', nearNew href'⟩

/-- A rollback to any height. -/
lemma rollback (h : Tracked P s) {target : SignedConsensusBlock} {height fuel : Nat} {powBlock}
    (htarget : s.getBlockByHeight height = some target)
    (e : s.powBlockLoop fuel target = .ok powBlock) : Tracked P (s.rollback P target powBlock) := by
  obtain ⟨hash, _, hstored⟩ := Option.bind_eq_some_iff.mp htarget
  obtain ⟨h', near⟩ := h.nearest hstored
  obtain ⟨p, rfl, hp⟩ := Storage.powBlockLoop_nearest h.keyed h.zero hstored near e
  have le : s.Retains (s.rollback P target (some p)) := fun e => ⟨_, e, rfl⟩
  refine ⟨h.keyed, h.zero, fun e => ?_, fun e hpow h0 => ?_, ?_⟩
  · obtain ⟨h'', n⟩ := h.nearest e
    exact ⟨h'', n.mono le⟩
  · obtain ⟨hstop, hanc⟩ := h.ranges e hpow h0
    exact ⟨hstop, le.ancestor hanc⟩
  · refine ⟨target.blockRef P, p.blockRef P, rfl, rfl, ?_⟩
    change NearestPow _ (target.canonicalRoot P) _
    rw [h.keyed hstored]
    exact hp.mono le

end Tracked

/-! ## Runs -/

/-- In every run of accepted imports, each of a block that extends the stored head with a range that
ends on the head's chain, and of rollbacks, the reference to the latest AuxPow is right for the
head. -/
theorem run_tracksPow {P : Primitives} {cfg : ChainConfig} {env : Env} {spec : ChainSpec}
    {payload : ExecutionPayload} {w : UtxoManager} {c₀ c : Chain} (hP : RootsSound P)
    (start : storeGenesis P cfg env spec payload (Chain.new .empty w) = (.ok (), c₀))
    (run : ReorgRun P cfg (fun c _ b => ExtendsOwnHead P c.storage b) (fun _ _ _ => True) c₀ c) :
    TracksPow P c.storage := by
  obtain ⟨g, fees, _, hg, _, _, _, rfl⟩ := storeGenesis_ok start
  have init : Tracked P (Chain.ofGenesis P env g fees w).storage := .ofGenesis hP hg fees
  refine (run.invariant (I := fun c => Tracked P c.storage) init fun c e h ok => ?_).tracksPow
  cases e with
  | accept env b =>
    simp only [Reorg.apply]
    obtain ⟨e, _⟩ | ⟨missing, fees, _, valid, _, _, e, _⟩ := @acceptBlock_stores P cfg env b c
    · rw [e]
      exact h
    · rw [e]
      exact h.extend hP ok (fun pow hpow => checkAuxPow_rangeEnd valid.auxPow hpow) fees
  | rollback env height =>
    simp only [Reorg.apply]
    obtain e | ⟨target, powBlock, htarget, hpow, e⟩ := @rollbackHead_cases P env height c
    · rw [e]
      exact h
    · rw [e]
      cases env.commitOps with
      | false => exact h
      | true => exact h.rollback htarget hpow

/-- A block that finalizes its parent, with the payload that a numbering execution layer expects. -/
def SignedConsensusBlock.toyNumberedPow (number : Nat) : SignedConsensusBlock where
  message :=
    { (SignedConsensusBlock.toyNumbered number).message with
      auxpowHeader := some (.toy (toyRoot (number - 1) 0)) }
  signature := (SignedConsensusBlock.toyNumbered number).signature

/-- A validator after accepted imports and rollbacks. -/
def Chain.toyReorg (steps : List Reorg) : Chain :=
  steps.foldl (fun c e => e.apply .toy (.toy 1 0) c) Chain.toyGenesis

/-- A validator imports two blocks, the second of which finalizes the first, and goes back to the
first one. -/
def toyRolledBack : List Reorg :=
  [.accept .toyNumbered (.toyNumbered 1), .accept .toyNumbered (.toyNumberedPow 2),
    .rollback .toyNumbered 1]

/-- A new block on the head, whose range, if it has one, ends with the head. -/
lemma ExtendsOwnHead.of_new {P} {s : Storage} {b : SignedConsensusBlock} (head : BlockRef)
    (hhead : s.head = some head) (hpar : b.message.parentHash = head.hash)
    (hrange : ∀ pow, b.message.auxpowHeader = some pow → pow.rangeEnd = head.hash)
    (hnew : s.getBlock (b.canonicalRoot P) = none) : ExtendsOwnHead P s b := by
  refine ⟨⟨head, hhead, hpar, fun pow hpow _ => ?_⟩, fun b' e => ?_⟩
  · rw [hrange pow hpow]
  · rw [hnew] at e
    cases e

/-- After a rollback past the header. -/
theorem run_tracksPow_rollback :
    (Chain.toyReorg toyRolledBack).storage.latestPowBlock = some ⟨toyRoot 0 0, 0⟩ ∧
      TracksPow .toy (Chain.toyReorg toyRolledBack).storage := by
  have first : ExtendsOwnHead .toy Chain.toyGenesis.storage (.toyNumbered 1) :=
    .of_new ⟨toyRoot 0 0, 0⟩ rfl rfl nofun (by decide)
  have second : ExtendsOwnHead .toy (Chain.toyReorg (toyRolledBack.take 1)).storage
      (.toyNumberedPow 2) := by
    refine .of_new ⟨toyRoot 1 0, 1⟩ (by decide) rfl (fun pow hpow => ?_) (by decide)
    cases hpow
    rfl
  have run : ReorgRun .toy (.toy 1 0) (fun c _ b => ExtendsOwnHead .toy c.storage b)
      (fun _ _ _ => True) Chain.toyGenesis (Chain.toyReorg toyRolledBack) :=
    .snoc (.snoc (.snoc .refl (Reorg.accept .toyNumbered (.toyNumbered 1)) first)
      (Reorg.accept .toyNumbered (.toyNumberedPow 2)) second)
      (Reorg.rollback .toyNumbered 1) trivial
  exact ⟨by decide, run_tracksPow Primitives.toy_rootsSound Chain.toyGenesis_eq run⟩

/-- After that rollback a block arrives on the second block, which is still stored: the head is a
descendant of the second block's header, the reference is to the genesis block. -/
theorem run_tracksPow_fails :
    ¬ ∀ (P : Primitives) (cfg : ChainConfig) (num : ExecutionBlockHash → Nat) (env : Env)
      (spec : ChainSpec) (payload : ExecutionPayload) (w : UtxoManager) (c₀ c : Chain),
      RootsSound P → num payload.blockHash = 0 →
      storeGenesis P cfg env spec payload (Chain.new .empty w) = (.ok (), c₀) →
      ReorgRun P cfg (fun _ env _ => env.commitOps = true ∧ env.Numbers num)
        (fun _ env _ => env.commitOps = true) c₀ c →
      TracksPow P c.storage := by
  intro all
  let c := Chain.toyReorg (toyRolledBack ++ [.accept .toyNumbered (.toyNumbered 3)])
  have ok : Env.toyNumbered.commitOps = true ∧ Env.toyNumbered.Numbers List.length :=
    ⟨rfl, Env.toyNumbered_numbers⟩
  have run : ReorgRun .toy (.toy 1 0)
      (fun _ env _ => env.commitOps = true ∧ env.Numbers List.length)
      (fun _ env _ => env.commitOps = true) Chain.toyGenesis c :=
    .snoc (.snoc (.snoc (.snoc .refl (Reorg.accept .toyNumbered (.toyNumbered 1)) ok)
      (Reorg.accept .toyNumbered (.toyNumberedPow 2)) ok) (Reorg.rollback .toyNumbered 1) ok.1)
      (Reorg.accept .toyNumbered (.toyNumbered 3)) ok
  obtain ⟨head, ref, _, hhead, href, near, _⟩ :=
    all _ _ List.length _ _ _ _ _ c Primitives.toy_rootsSound rfl Chain.toyGenesis_eq run
  have third : c.storage.head = some ⟨toyRoot 3 0, 3⟩ := by decide
  have genesis : c.storage.latestPowBlock = some ⟨toyRoot 0 0, 0⟩ := by decide
  rw [third, Option.some.injEq] at hhead
  rw [genesis, Option.some.injEq] at href
  subst hhead href
  have h₃ : c.storage.getBlock (toyRoot 3 0) = some (.toyNumbered 3) := by decide
  have h₂ : c.storage.getBlock (toyRoot 2 0) = some (.toyNumberedPow 2) := by decide
  -- from the third block the walk ends at the second one
  cases near with
  | parent stored none rest =>
    rw [h₃] at stored
    cases stored
    cases rest with
    | parent stored none rest =>
      rw [show (SignedConsensusBlock.toyNumbered 3).message.parentHash = toyRoot 2 0 from rfl,
        h₂] at stored
      cases stored
      cases none

end Alys

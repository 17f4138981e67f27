import Alys.Candidate.Cache

/-!
# Approvals of one candidate

What the candidate cache makes of one block and of the approvals for it, delivered in any order
while the node is synced and no other candidate is involved. The deliveries are a list of
`Delivery`; the block may occur several times.

Two things decide the outcome. `insert` files the block under its own height, so the approvals that
were parked under the placeholder height 0 are not found again, and while the node is synced a
second `insert` replaces the candidate together with the approvals collected so far. So after any
sequence of deliveries the candidate carries the block's own approvals and those delivered since the
last `insert` (`deliverAll_filed`), less those whose authority index lies beyond the peer's bit
list. `deliverAll_union_iff` says when that is the union the cache is meant to compute.
-/

namespace Alys
open Lib

/-! ## Adding several approvals -/

/-- Adds approvals one after the other and skips those that do not fit the bit list. -/
def AggregateApproval.addEach (P : Primitives) (a : AggregateApproval) :
    List IndividualApproval → AggregateApproval
  | [] => a
  | approval :: rest =>
    match a.addApproval P approval with
    | .ok a' => a'.addEach P rest
    | .error _ => a.addEach P rest

variable {a : AggregateApproval}

/-- Adding in two batches. -/
lemma AggregateApproval.addEach_append {P as bs} :
    a.addEach P (as ++ bs) = (a.addEach P as).addEach P bs := by
  induction as generalizing a with
  | nil => rfl
  | cons approval as ih =>
    simp only [List.cons_append, addEach]
    cases a.addApproval P approval with
    | ok a' => exact ih
    | error e => exact ih

lemma AggregateApproval.addApproval_length {P approval} {a a' : AggregateApproval}
    (e : a.addApproval P approval = .ok a') :
    a'.aggregationBits.bits.length = a.aggregationBits.bits.length := by
  obtain ⟨_, rfl⟩ | ⟨bits, _, hs, rfl⟩ := addApproval_cases e
  · rfl
  · exact BitList.set_length hs

/-- The bits after some approvals were added. -/
lemma AggregateApproval.get_addEach {P as j} :
    (a.addEach P as).aggregationBits.get j = some true ↔
      a.aggregationBits.get j = some true ∨
        j < a.aggregationBits.bits.length ∧ ∃ approval ∈ as, approval.authorityIndex = j := by
  induction as generalizing a with
  | nil => simp [addEach]
  | cons approval as ih =>
    simp only [addEach]
    cases e : a.addApproval P approval with
    | ok a' =>
      have lt := addApproval_ok_iff.mp ⟨a', e⟩
      rw [ih, get_addApproval e, addApproval_length e]
      constructor
      · rintro ((rfl | h) | ⟨hlt, x, mem, rfl⟩)
        · exact .inr ⟨lt, approval, List.mem_cons_self, rfl⟩
        · exact .inl h
        · exact .inr ⟨hlt, x, List.mem_cons_of_mem _ mem, rfl⟩
      · rintro (h | ⟨hlt, x, mem, rfl⟩)
        · exact .inl (.inr h)
        · rcases List.mem_cons.mp mem with rfl | mem
          · exact .inl (.inl rfl)
          · exact .inr ⟨hlt, x, mem, rfl⟩
    | error e' =>
      have ge : ¬ approval.authorityIndex < a.aggregationBits.bits.length := by
        intro lt
        obtain ⟨a', h⟩ := addApproval_ok_iff (P := P).mpr lt
        rw [e] at h
        cases h
      rw [ih]
      constructor
      · rintro (h | ⟨hlt, x, mem, rfl⟩)
        · exact .inl h
        · exact .inr ⟨hlt, x, List.mem_cons_of_mem _ mem, rfl⟩
      · rintro (h | ⟨hlt, x, mem, rfl⟩)
        · exact .inl h
        · rcases List.mem_cons.mp mem with rfl | mem
          · exact absurd hlt ge
          · exact .inr ⟨hlt, x, mem, rfl⟩

/-- The approvals of authorities that the aggregate does not count yet. -/
def AggregateApproval.fresh (a : AggregateApproval) (as : List IndividualApproval) :
    List IndividualApproval :=
  as.filter fun approval => a.aggregationBits.get approval.authorityIndex ≠ some true

/-- The aggregate signature after adding approvals of distinct authorities that all fit: that of the
aggregate with the fresh signatures added in order. -/
lemma AggregateApproval.addEach_signature {P as} (hdist : (as.map (·.authorityIndex)).Nodup)
    (hfit : ∀ approval ∈ as, approval.authorityIndex < a.aggregationBits.bits.length) :
    (a.addEach P as).aggregateSignature =
      ((a.fresh as).map (·.signature)).foldl P.blsAddAssign a.aggregateSignature := by
  induction as generalizing a with
  | nil => rfl
  | cons approval as ih =>
    rw [List.map_cons, List.nodup_cons] at hdist
    have hfit' : ∀ x ∈ as, x.authorityIndex < a.aggregationBits.bits.length :=
      fun x mem => hfit x (List.mem_cons_of_mem _ mem)
    obtain ⟨a', e⟩ := addApproval_ok_iff (P := P).mpr (hfit approval List.mem_cons_self)
    simp only [addEach, e]
    rw [ih hdist.2 (by rwa [addApproval_length e])]
    -- the added bit is none of the remaining authorities', so these stay fresh
    have hfresh : a'.fresh as = a.fresh as := by
      refine List.filter_congr fun x mem => ?_
      have ne : x.authorityIndex ≠ approval.authorityIndex := by
        intro eq
        exact hdist.1 (eq ▸ List.mem_map_of_mem mem)
      simp only [ne_eq, get_addApproval e, ne, false_or]
    rw [hfresh]
    obtain ⟨h, rfl⟩ | ⟨bits, h, _, rfl⟩ := addApproval_cases e
    · simp [fresh, h]
    · simp [fresh, h]

/-! ## Deliveries -/

/-- One delivery for a fixed block: the block itself or an approval for its hash. -/
inductive Delivery where
  | block
  | approval (a : IndividualApproval)

/-- What the candidate cache of a synced node does with a delivery. -/
def Delivery.run (P : Primitives) (authorities : List PublicKey) (b : SignedConsensusBlock) :
    Delivery → BlockCandidateCache → BlockCandidateCache
  | .block, c => (c.insert P b true).2
  | .approval a, c => (c.addApproval P ⟨b.canonicalRoot P, a⟩ authorities true).2

/-- The cache after a sequence of deliveries. -/
def deliverAll (P : Primitives) (authorities : List PublicKey) (b : SignedConsensusBlock)
    (ds : List Delivery) : BlockCandidateCache :=
  ds.foldl (fun c d => d.run P authorities b c) .empty

/-- The approvals among the deliveries. -/
def approvals (ds : List Delivery) : List IndividualApproval :=
  ds.filterMap fun
    | .block => none
    | .approval a => some a

/-- The approvals delivered after the last delivery of the block. -/
def sinceLastBlock (ds : List Delivery) : List IndividualApproval :=
  ds.foldl
    (fun as d =>
      match d with
      | .block => []
      | .approval a => as ++ [a])
    []

/-- Delivering one more. -/
lemma deliverAll_concat {P authorities b ds d} :
    deliverAll P authorities b (ds ++ [d]) =
      d.run P authorities b (deliverAll P authorities b ds) := by
  simp [deliverAll]

@[simp] lemma sinceLastBlock_block {ds} : sinceLastBlock (ds ++ [.block]) = [] := by
  simp [sinceLastBlock]

@[simp] lemma sinceLastBlock_approval {ds a} :
    sinceLastBlock (ds ++ [.approval a]) = sinceLastBlock ds ++ [a] := by
  simp [sinceLastBlock]

@[simp] lemma approvals_block {ds} : approvals (ds ++ [.block]) = approvals ds := by
  simp [approvals]

@[simp] lemma approvals_approval {ds a} :
    approvals (ds ++ [.approval a]) = approvals ds ++ [a] := by
  simp [approvals]

lemma approvals_eq_append (ds : List Delivery) :
    ∃ before, approvals ds = before ++ sinceLastBlock ds := by
  induction ds using List.reverseRecOn with
  | nil => exact ⟨[], rfl⟩
  | append_singleton ds d ih =>
    obtain ⟨before, e⟩ := ih
    cases d with
    | block => exact ⟨approvals ds, by simp⟩
    | approval a => exact ⟨before, by simp [e]⟩

variable {b : SignedConsensusBlock}

/-- A valid approval that arrives on the checked block of its hash is added to it. -/
lemma BlockCandidateCache.addApproval_checked {P authorities a isSyncing root}
    {c : BlockCandidateCache} {height} (hh : c.hashToHeight.lookup root = some height)
    (hc : c.candidatesByHeight.lookup height = some (.checkedBlock b))
    (hroot : b.canonicalRoot P = root) (hvalid : a.check P root authorities = .ok a) :
    (c.addApproval P ⟨root, a⟩ authorities isSyncing).2 =
      { c with
        candidatesByHeight := c.candidatesByHeight.insert height
          (.checkedBlock { b with signature := b.signature.addEach P [a] }) } := by
  unfold BlockCandidateCache.addApproval
  simp only [hh, hc, hroot, CandidateState.getBlock, ne_eq, not_true_eq_false, false_and, if_false]
  unfold BlockCandidateCache.addApprovalAt CandidateState.addUncheckedApproval
  simp only [hvalid, bind, Action.lift, CandidateState.addCheckedApproval,
    SignedConsensusBlock.addApproval, AggregateApproval.addEach]
  cases b.signature.addApproval P a with
  | ok a' => rfl
  | error e => rfl

/-- Before the block arrives, its height has no candidate, and its hash is unknown or maps to the
queue at the placeholder height. -/
lemma deliverAll_parked {P authorities b ds} (hpos : 0 < b.number)
    (hvalid : ∀ a ∈ approvals ds, a.check P (b.canonicalRoot P) authorities = .ok a)
    (hno : Delivery.block ∉ ds) :
    (deliverAll P authorities b ds).candidatesByHeight.lookup b.number = none ∧
    ((deliverAll P authorities b ds).hashToHeight.lookup (b.canonicalRoot P) = none ∨
      (deliverAll P authorities b ds).hashToHeight.lookup (b.canonicalRoot P) = some 0 ∧
      ∃ q, (deliverAll P authorities b ds).candidatesByHeight.lookup 0 =
        some (.queuedApprovals q)) := by
  induction ds using List.reverseRecOn with
  | nil => exact ⟨rfl, .inl rfl⟩
  | append_singleton ds d ih =>
    have ne : b.number ≠ 0 := by omega
    cases d with
    | block => exact absurd (List.mem_append_right _ List.mem_cons_self) hno
    | approval a =>
      simp only [approvals_approval, List.forall_mem_append, List.forall_mem_singleton] at hvalid
      obtain ⟨hb, hroot⟩ := ih hvalid.1 (fun mem => hno (List.mem_append_left _ mem))
      rw [deliverAll_concat]
      generalize deliverAll P authorities b ds = c at hb hroot ⊢
      simp only [Delivery.run, BlockCandidateCache.addApproval]
      rcases hroot with hnone | ⟨hzero, q, hq⟩
      · -- a new queue is put at the placeholder
        rw [hnone]
        simp only [BlockCandidateCache.parkApproval, CandidateState.addUncheckedApproval,
          hvalid.2, bind, Action.lift, CandidateState.default, CandidateState.addCheckedApproval]
        exact ⟨by rw [Finmap.lookup_insert_of_ne _ ne, hb],
          .inr ⟨Finmap.lookup_insert _, _, Finmap.lookup_insert _⟩⟩
      · -- the approval joins the queue
        rw [hzero]
        simp only [hq, CandidateState.getBlock, BlockCandidateCache.addApprovalAt,
          CandidateState.addUncheckedApproval, hvalid.2, bind, Action.lift,
          CandidateState.addCheckedApproval]
        exact ⟨by rw [Finmap.lookup_insert_of_ne _ ne, hb],
          .inr ⟨hzero, _, Finmap.lookup_insert _⟩⟩

/-- Once the block has arrived, its hash maps to its height and the candidate there is the block
with the approvals since the last delivery of the block added. -/
lemma deliverAll_filed {P authorities b ds} (hpos : 0 < b.number)
    (hvalid : ∀ a ∈ approvals ds, a.check P (b.canonicalRoot P) authorities = .ok a)
    (hblock : Delivery.block ∈ ds) :
    (deliverAll P authorities b ds).hashToHeight.lookup (b.canonicalRoot P) = some b.number ∧
    (deliverAll P authorities b ds).candidatesByHeight.lookup b.number =
      some (.checkedBlock { b with signature := b.signature.addEach P (sinceLastBlock ds) }) := by
  induction ds using List.reverseRecOn with
  | nil => cases hblock
  | append_singleton ds d ih =>
    rw [deliverAll_concat]
    cases d with
    | block =>
      simp only [approvals_block] at hvalid
      rw [sinceLastBlock_block]
      by_cases hmem : Delivery.block ∈ ds
      · -- the candidate is replaced, together with the approvals collected so far
        obtain ⟨_, hc⟩ := ih hvalid hmem
        generalize deliverAll P authorities b ds = c at hc ⊢
        simp only [Delivery.run, BlockCandidateCache.insert, hc, CandidateState.getBlock, or_true,
          if_true, BlockCandidateCache.fileBlock, CandidateState.addCheckedBlock]
        exact ⟨Finmap.lookup_insert _, Finmap.lookup_insert _⟩
      · obtain ⟨hb, _⟩ := deliverAll_parked hpos hvalid hmem
        generalize deliverAll P authorities b ds = c at hb ⊢
        simp only [Delivery.run, BlockCandidateCache.insert, hb, BlockCandidateCache.fileBlock,
          CandidateState.default, CandidateState.addCheckedBlock, List.foldlM_nil, pure,
          Except.pure]
        exact ⟨Finmap.lookup_insert _, Finmap.lookup_insert _⟩
    | approval a =>
      simp only [approvals_approval, List.forall_mem_append, List.forall_mem_singleton] at hvalid
      have hmem : Delivery.block ∈ ds := by
        rcases List.mem_append.mp hblock with mem | mem
        · exact mem
        · cases List.mem_singleton.mp mem
      obtain ⟨hh, hc⟩ := ih hvalid.1 hmem
      generalize deliverAll P authorities b ds = c at hh hc ⊢
      rw [Delivery.run, BlockCandidateCache.addApproval_checked hh hc rfl hvalid.2]
      refine ⟨hh, ?_⟩
      rw [Finmap.lookup_insert, sinceLastBlock_approval, AggregateApproval.addEach_append]

/-! ## The union of all approvals -/

/-- The cache holds the block under its hash, with exactly the block's own approvals and all
delivered ones: the set bits are theirs and the aggregate signature is the block's with the
signatures of the authorities it did not count yet. -/
def UnionCached (P : Primitives) (b : SignedConsensusBlock) (ds : List Delivery)
    (c : BlockCandidateCache) : Prop :=
  ∃ candidate, c.getBlock (b.canonicalRoot P) = some candidate ∧
    candidate.message = b.message ∧
    (∀ j, candidate.signature.aggregationBits.get j = some true ↔
      b.signature.aggregationBits.get j = some true ∨
        ∃ a ∈ approvals ds, a.authorityIndex = j) ∧
    candidate.signature.aggregateSignature =
      ((b.signature.fresh (approvals ds)).map (·.signature)).foldl P.blsAddAssign
        b.signature.aggregateSignature

/-- The approvals that the cache keeps: those the block carries itself, and those delivered since
the last delivery of the block that fit its bit list. -/
def Kept (b : SignedConsensusBlock) (ds : List Delivery) (a : IndividualApproval) : Prop :=
  b.signature.aggregationBits.get a.authorityIndex = some true ∨
    a ∈ sinceLastBlock ds ∧ a.authorityIndex < b.signature.aggregationBits.bits.length

/-- The candidate that the cache returns after the deliveries. -/
lemma getBlock_deliverAll {P authorities b ds} (hpos : 0 < b.number)
    (hvalid : ∀ a ∈ approvals ds, a.check P (b.canonicalRoot P) authorities = .ok a)
    (hblock : Delivery.block ∈ ds) :
    (deliverAll P authorities b ds).getBlock (b.canonicalRoot P) =
      some { b with signature := b.signature.addEach P (sinceLastBlock ds) } := by
  obtain ⟨hh, hc⟩ := deliverAll_filed hpos hvalid hblock
  simp [BlockCandidateCache.getBlock, hh, hc, CandidateState.getBlock]

/-- If everything delivered is kept, then what is fresh was delivered since the last block. -/
lemma fresh_sinceLastBlock {ds} (hdist : ((approvals ds).map (·.authorityIndex)).Nodup)
    (hkept : ∀ a ∈ approvals ds, Kept b ds a) :
    b.signature.fresh (approvals ds) = b.signature.fresh (sinceLastBlock ds) := by
  obtain ⟨before, e⟩ := approvals_eq_append ds
  rw [e, List.map_append, List.nodup_append] at hdist
  rw [e, AggregateApproval.fresh, List.filter_append, List.filter_eq_nil_iff.mpr]
  · rfl
  · intro a mem
    rcases hkept a (e ▸ List.mem_append_left _ mem) with h | ⟨h, _⟩
    · simp [h]
    · exact absurd rfl
        (hdist.2.2 _ (List.mem_map_of_mem mem) _ (List.mem_map_of_mem h))

/-- After any interleaving of a block of positive height, delivered at least once, with valid
approvals of distinct authorities, the candidate carries exactly the union of the block's own
approvals and all delivered ones if and only if every delivered approval is kept. -/
theorem deliverAll_union_iff {P : Primitives} {authorities : List PublicKey}
    {b : SignedConsensusBlock} {ds : List Delivery} (hpos : 0 < b.number)
    (hvalid : ∀ a ∈ approvals ds, a.check P (b.canonicalRoot P) authorities = .ok a)
    (hdist : ((approvals ds).map (·.authorityIndex)).Nodup) (hblock : Delivery.block ∈ ds) :
    UnionCached P b ds (deliverAll P authorities b ds) ↔ ∀ a ∈ approvals ds, Kept b ds a := by
  have hget := getBlock_deliverAll hpos hvalid hblock
  constructor
  · rintro ⟨candidate, hc, _, hbits, _⟩ a mem
    rw [hget] at hc
    cases hc
    have hset := (hbits a.authorityIndex).mpr (.inr ⟨a, mem, rfl⟩)
    rcases AggregateApproval.get_addEach.mp hset with h | ⟨hlt, a', mem', e⟩
    · exact .inl h
    · -- the approval kept is the one delivered, since the authorities are distinct
      obtain ⟨before, e'⟩ := approvals_eq_append ds
      have mem'' : a' ∈ approvals ds := e' ▸ List.mem_append_right _ mem'
      have := List.inj_on_of_nodup_map hdist mem'' mem e
      exact .inr ⟨this ▸ mem', hlt⟩
  · intro hkept
    obtain ⟨before, e⟩ := approvals_eq_append ds
    refine ⟨_, hget, rfl, ?_, ?_⟩
    · intro j
      rw [AggregateApproval.get_addEach]
      constructor
      · rintro (h | ⟨_, a, mem, rfl⟩)
        · exact .inl h
        · exact .inr ⟨a, e ▸ List.mem_append_right _ mem, rfl⟩
      · rintro (h | ⟨a, mem, rfl⟩)
        · exact .inl h
        · rcases hkept a mem with h | ⟨h, hlt⟩
          · exact .inl h
          · exact .inr ⟨hlt, a, h, rfl⟩
    · rw [fresh_sinceLastBlock hdist hkept]
      apply AggregateApproval.addEach_signature
      · rw [e, List.map_append] at hdist
        exact (List.nodup_append.mp hdist).2.1
      · intro a mem
        rcases hkept a (e ▸ List.mem_append_right _ mem) with h | ⟨_, hlt⟩
        · exact (List.getElem?_eq_some_iff.mp h).1
        · exact hlt

/-- The block arrives before an approval of the second authority. -/
theorem deliverAll_union_block_first :
    UnionCached .toy (.toy 1 0) [.block, .approval ⟨[], 1⟩]
      (deliverAll .toy [[10], [11], [12]] (.toy 1 0) [.block, .approval ⟨[], 1⟩]) :=
  (deliverAll_union_iff (by decide) (by decide) (by decide) List.mem_cons_self).mpr
    (fun a mem => .inr ⟨mem, by cases List.mem_singleton.mp mem; decide⟩)

/-- The same two deliveries in the other order: the approval is parked at height 0 and the candidate
at height 1 never gets it. -/
theorem deliverAll_approval_lost :
    ¬ ∀ (P : Primitives) (authorities : List PublicKey) (b : SignedConsensusBlock)
      (ds : List Delivery), 0 < b.number →
      (∀ a ∈ approvals ds, a.check P (b.canonicalRoot P) authorities = .ok a) →
      ((approvals ds).map (·.authorityIndex)).Nodup → Delivery.block ∈ ds →
      UnionCached P b ds (deliverAll P authorities b ds) := by
  intro all
  obtain ⟨candidate, hc, _, hbits, _⟩ := all .toy [[10], [11], [12]] (.toy 1 0)
    [.approval ⟨[], 1⟩, .block] (by decide) (by decide) (by decide)
    (List.mem_cons_of_mem _ List.mem_cons_self)
  have hget : (deliverAll .toy [[10], [11], [12]] (.toy 1 0)
      [.approval ⟨[], 1⟩, .block]).getBlock (SignedConsensusBlock.canonicalRoot .toy (.toy 1 0)) =
      some (.toy 1 0) := by decide
  cases hc.symm.trans hget
  have hset := (hbits 1).mpr (.inr ⟨⟨[], 1⟩, List.mem_cons_self, rfl⟩)
  exact absurd hset (by decide)

end Alys

import Alys.Aura.Signatures
import Alys.Lib.Collect

/-!
# Aggregation as a set

Approvals that arrive in any order and any number of times are collected into one
`AggregateApproval` (`app/src/signatures.rs`). The bit of an authority keeps a repeated approval
from being added twice, so that the sum of the signatures stays in step with the bits (`Collects`),
and the aggregate depends on the set of authorities only.
-/

namespace Alys
open Lib

/-- The sum of the signatures of some approvals. -/
def sumSignatures (P : Primitives) (approvals : List IndividualApproval) : Bytes :=
  approvals.foldl (fun sum approval => P.blsAddAssign sum approval.signature) P.blsEmpty

/-- What is assumed of BLS: the order of additions does not matter, which follows from commutativity
and associativity; valid signatures of some keys add up to a valid aggregate; and a key has one
valid signature of a message. -/
structure BlsAdditive (P : Primitives) : Prop where
  exchange : ∀ sum s t,
    P.blsAddAssign (P.blsAddAssign sum s) t = P.blsAddAssign (P.blsAddAssign sum t) s
  complete : ∀ (approvals : List IndividualApproval) (key : IndividualApproval → PublicKey) data,
    approvals ≠ [] → (∀ x ∈ approvals, P.blsVerify x.signature (key x) data = true) →
    P.blsVerifyMultiple (sumSignatures P approvals) (approvals.map key) data = true
  unique : ∀ s t pubkey data, P.blsVerify s pubkey data = true → P.blsVerify t pubkey data = true →
    s = t

section Collect

variable {P : Primitives} {authorities : List PublicKey} {data : Hash256}
  {l l' : List IndividualApproval} {x : IndividualApproval}

lemma sumSignatures_perm (hbls : BlsAdditive P) (h : l.Perm l') :
    sumSignatures P l = sumSignatures P l' :=
  h.foldl_eq' (fun x _ y _ sum => hbls.exchange sum x.signature y.signature) _

/-- The key that an approval is checked against. -/
def IndividualApproval.pubkey (authorities : List PublicKey) (x : IndividualApproval) : PublicKey :=
  authorities[x.authorityIndex]?.getD []

lemma IndividualApproval.check_pubkey (e : x.check P data authorities = .ok x) :
    authorities[x.authorityIndex]? = some (x.pubkey authorities) ∧
      P.blsVerify x.signature (x.pubkey authorities) data = true := by
  obtain ⟨pubkey, hkey, hvalid⟩ := IndividualApproval.check_ok e
  have hpubkey : x.pubkey authorities = pubkey := by rw [IndividualApproval.pubkey, hkey]; rfl
  rw [hpubkey]
  exact ⟨hkey, hvalid⟩

/-- A checked approval is determined by its authority. -/
lemma IndividualApproval.eq_of_check {x y : IndividualApproval} (hbls : BlsAdditive P)
    (hx : x.check P data authorities = .ok x) (hy : y.check P data authorities = .ok y)
    (same : x.authorityIndex = y.authorityIndex) : x = y := by
  obtain ⟨_, hvalid⟩ := check_pubkey hx
  obtain ⟨_, hvalid'⟩ := check_pubkey hy
  have hkey : x.pubkey authorities = y.pubkey authorities := by rw [pubkey, pubkey, same]
  rw [hkey] at hvalid
  obtain ⟨signature, index⟩ := x
  obtain ⟨signature', index'⟩ := y
  cases same
  cases hbls.unique _ _ _ _ hvalid hvalid'
  rfl

/-- An aggregate that collects a list of approvals: the bits are those of the authorities, and the
signature is the sum over the same approvals without repetition, in the order of the selected
keys. -/
structure Collects (P : Primitives) (authorities : List PublicKey) (l : List IndividualApproval)
    (a : AggregateApproval) : Prop where
  length : a.aggregationBits.bits.length = maxValidators
  bits : ∀ j, a.aggregationBits.get j = some true ↔ j ∈ l.map (·.authorityIndex)
  sum : ∃ m : List IndividualApproval, m.Nodup ∧ (∀ x, x ∈ m ↔ x ∈ l) ∧
    a.selectedKeys authorities = m.map (·.pubkey authorities) ∧
    a.aggregateSignature = sumSignatures P m

lemma Collects.new : Collects P authorities [] (.new P) where
  length := rfl
  bits j := by
    simp [AggregateApproval.new, BitList.new, BitList.get, List.getElem?_replicate]
  sum := by
    refine ⟨[], List.nodup_nil, fun _ => Iff.rfl, ?_, rfl⟩
    rw [AggregateApproval.selectedKeys, List.map_nil, List.filterMap_eq_nil_iff]
    rintro ⟨present, pubkey⟩ mem
    have hpresent : present = false := List.eq_of_mem_replicate (List.of_mem_zip mem).1
    rw [hpresent]
    rfl

variable {l : List IndividualApproval}

/-- One approval: a repeated one is among the collected, and a new one is inserted where its key
is. -/
lemma Collects.addApproval {a : AggregateApproval} (hbls : BlsAdditive P)
    (hcard : authorities.length ≤ maxValidators)
    (hl : ∀ y ∈ l, y.check P data authorities = .ok y) (hx : x.check P data authorities = .ok x)
    (h : Collects P authorities l a) :
    ∃ a', a.addApproval P x = .ok a' ∧ Collects P authorities (l ++ [x]) a' := by
  obtain ⟨hkey, _⟩ := IndividualApproval.check_pubkey hx
  have lt := (List.getElem?_eq_some_iff.mp hkey).1
  obtain ⟨a', e⟩ := AggregateApproval.addApproval_ok_iff.mpr (show
    x.authorityIndex < a.aggregationBits.bits.length by rw [h.length]; omega)
  have hbits : ∀ j, a'.aggregationBits.get j = some true ↔
      j ∈ (l ++ [x]).map (·.authorityIndex) := by
    intro j
    rw [AggregateApproval.get_addApproval e, h.bits, List.map_append, List.mem_append, or_comm,
      List.map_singleton, List.mem_singleton]
  obtain ⟨m, nodup, members, hkeys, hsum⟩ := h.sum
  refine ⟨a', e, ?_⟩
  obtain ⟨htrue, rfl⟩ | ⟨bits, hfalse, hset, rfl⟩ := AggregateApproval.addApproval_cases e
  · -- the authority was counted with the same approval
    obtain ⟨y, mem, same⟩ := List.mem_map.mp ((h.bits _).mp htrue)
    have hmem : x ∈ l := by
      rwa [← IndividualApproval.eq_of_check hbls (hl y mem) hx same]
    refine ⟨h.length, hbits, m, nodup, fun z => ?_, hkeys, hsum⟩
    rw [members, List.mem_append, List.mem_singleton]
    refine ⟨.inl, ?_⟩
    rintro (mem | rfl)
    · exact mem
    · exact hmem
  · have hnew : x ∉ m := by
      intro mem
      have htrue := (h.bits _).mpr (List.mem_map_of_mem ((members x).mp mem))
      rw [hfalse] at htrue
      cases htrue
    obtain ⟨before, after, hbefore, hafter⟩ := AggregateApproval.selectedKeys_set hfalse hset hkey
      (P.blsAddAssign a.aggregateSignature x.signature)
    obtain ⟨m₁, m₂, rfl, hm₁, hm₂⟩ := List.map_eq_append_iff.mp (hkeys.symm.trans hbefore)
    have perm : (m₁ ++ x :: m₂).Perm (m₁ ++ m₂ ++ [x]) :=
      List.perm_middle.trans (List.perm_append_singleton x (m₁ ++ m₂)).symm
    refine ⟨(BitList.set_length hset).trans h.length, hbits, m₁ ++ x :: m₂, ?_, fun z => ?_, ?_, ?_⟩
    · exact List.nodup_middle.mpr (List.nodup_cons.mpr ⟨hnew, nodup⟩)
    · rw [perm.mem_iff, List.mem_append (s := m₁ ++ m₂), members, List.mem_append]
    · rw [hafter, List.map_append, List.map_cons, hm₁, hm₂]
    · rw [sumSignatures_perm hbls perm, hsum]
      simp only [sumSignatures, List.foldl_append, List.foldl_cons, List.foldl_nil]

/-- All approvals of a list. -/
lemma Collects.addAll (hbls : BlsAdditive P) (hcard : authorities.length ≤ maxValidators)
    (hl : ∀ x ∈ l, x.check P data authorities = .ok x) :
    ∃ a, l.foldlM (AggregateApproval.addApproval P) (.new P) = .ok a ∧
      Collects P authorities l a := by
  refine exists_foldlM_ok Collects.new fun before x after a e h => ?_
  subst e
  exact h.addApproval hbls hcard (fun y mem => hl y (List.mem_append_left _ mem))
    (hl x (List.mem_append_right _ List.mem_cons_self))

/-- The authorities determine the aggregate. -/
lemma Collects.unique {a a' : AggregateApproval} (hbls : BlsAdditive P)
    (h : Collects P authorities l a) (h' : Collects P authorities l' a')
    (same : ∀ x, x ∈ l ↔ x ∈ l') : a = a' := by
  obtain ⟨m, nodup, members, _, hsum⟩ := h.sum
  obtain ⟨m', nodup', members', _, hsum'⟩ := h'.sum
  have perm : m.Perm m' := (List.perm_ext_iff_of_nodup nodup nodup').mpr fun x => by
    rw [members, members', same]
  have hindices : ∀ j, a.aggregationBits.get j = some true ↔
      a'.aggregationBits.get j = some true := by
    intro j
    rw [h.bits, h'.bits, List.mem_map, List.mem_map]
    simp only [same]
  have hbits : a.aggregationBits.bits = a'.aggregationBits.bits := by
    refine List.ext_getElem (h.length.trans h'.length.symm) fun j lt lt' => ?_
    have hj := hindices j
    rw [BitList.get, BitList.get, List.getElem?_eq_getElem lt, List.getElem?_eq_getElem lt',
      Option.some.injEq, Option.some.injEq] at hj
    exact Bool.eq_iff_iff.mpr hj
  have hsignature : a.aggregateSignature = a'.aggregateSignature := by
    rw [hsum, hsum', sumSignatures_perm hbls perm]
  obtain ⟨⟨bits, _⟩, signature⟩ := a
  obtain ⟨⟨bits', _⟩, signature'⟩ := a'
  cases hbits
  cases hsignature
  rfl

/-- A nonempty aggregate verifies. -/
lemma Collects.verify {a : AggregateApproval} (hbls : BlsAdditive P)
    (hl : ∀ x ∈ l, x.check P data authorities = .ok x) (hne : l ≠ [])
    (h : Collects P authorities l a) : a.verify P authorities data = true := by
  obtain ⟨m, _, members, hkeys, hsum⟩ := h.sum
  rw [AggregateApproval.verify, hkeys, hsum]
  refine hbls.complete m _ data ?_ fun x mem => ?_
  · obtain ⟨x, mem⟩ := List.exists_mem_of_ne_nil l hne
    exact List.ne_nil_of_mem ((members x).mpr mem)
  · exact (IndividualApproval.check_pubkey (hl x ((members x).mp mem))).2

end Collect

/-- Two sequences of checked approvals of the same authorities give the same aggregate; its bits are
those of the authorities, it counts each of them once, and it verifies. -/
theorem addApproval_set {P : Primitives} {authorities : List PublicKey} {data : Hash256}
    {l l' : List IndividualApproval} (hbls : BlsAdditive P)
    (hcard : authorities.length ≤ maxValidators)
    (hl : ∀ x ∈ l, x.check P data authorities = .ok x)
    (hl' : ∀ x ∈ l', x.check P data authorities = .ok x)
    (same : ∀ i, i ∈ l.map (·.authorityIndex) ↔ i ∈ l'.map (·.authorityIndex)) :
    ∃ a, l.foldlM (AggregateApproval.addApproval P) (.new P) = .ok a ∧
      l'.foldlM (AggregateApproval.addApproval P) (.new P) = .ok a ∧
      (∀ i, a.isSignedBy i = true ↔ i ∈ l.map (·.authorityIndex)) ∧
      a.numApprovals = (l.map (·.authorityIndex)).toFinset.card ∧
      (l ≠ [] → a.verify P authorities data = true) := by
  have contains : ∀ {l l' : List IndividualApproval},
      (∀ x ∈ l, x.check P data authorities = .ok x) →
      (∀ x ∈ l', x.check P data authorities = .ok x) →
      (∀ i, i ∈ l.map (·.authorityIndex) → i ∈ l'.map (·.authorityIndex)) → ∀ x ∈ l, x ∈ l' := by
    intro l l' hl hl' same x mem
    obtain ⟨y, mem', eq⟩ := List.mem_map.mp (same _ (List.mem_map_of_mem mem))
    rwa [IndividualApproval.eq_of_check hbls (hl x mem) (hl' y mem') eq.symm]
  obtain ⟨a, e, h⟩ := Collects.addAll hbls hcard hl
  obtain ⟨a', e', h'⟩ := Collects.addAll hbls hcard hl'
  have eq : a = a' := h.unique hbls h' fun x =>
    ⟨contains hl hl' (fun i => (same i).mp) x, contains hl' hl (fun i => (same i).mpr) x⟩
  subst eq
  refine ⟨a, e, e', fun i => ?_, ?_, fun hne => h.verify hbls hl hne⟩
  · rw [← h.bits, AggregateApproval.isSignedBy]
    cases a.aggregationBits.get i <;> simp
  · exact BitList.numSetBits_eq_card fun j => by rw [h.bits, List.mem_toFinset]

/-- BLS for closed examples: a signature is as long as its key, and lengths are added. -/
def Primitives.toyBls : Primitives :=
  { Primitives.toy with
    blsVerify := fun signature pubkey _ => signature = List.replicate pubkey.length 1
    blsVerifyMultiple := fun signature pubkeys _ => signature.length = pubkeys.flatten.length
    blsAddAssign := fun s t => List.replicate (s.length + t.length) 1 }

lemma Primitives.toyBls_additive : BlsAdditive .toyBls where
  exchange sum s t := by
    simp only [toyBls, List.length_replicate]
    rw [Nat.add_right_comm]
  complete approvals key data hne hvalid := by
    refine decide_eq_true ?_
    clear hne
    induction approvals using List.reverseRecOn with
    | nil => rfl
    | append_singleton approvals x ih =>
      have hx := of_decide_eq_true (hvalid x (by simp))
      have hsum := ih fun y mem => hvalid y (List.mem_append_left _ mem)
      rw [sumSignatures, List.foldl_append, ← sumSignatures, List.map_append, List.flatten_append,
        List.length_append, ← hsum]
      simp [toyBls, hx]
  unique s t pubkey data hs ht := (of_decide_eq_true hs).trans (of_decide_eq_true ht).symm

/-- Two authorities of three, in two orders and one of them twice. -/
theorem addApproval_set_pair :
    ∃ a, [⟨[1, 1], 2⟩, ⟨[1], 0⟩].foldlM (AggregateApproval.addApproval .toyBls) (.new .toyBls) =
        .ok a ∧
      [⟨[1], 0⟩, ⟨[1, 1], 2⟩, ⟨[1], 0⟩].foldlM (AggregateApproval.addApproval .toyBls)
        (.new .toyBls) = .ok a ∧
      a.numApprovals = 2 ∧ a.verify .toyBls [[5], [6], [7, 7]] [] = true := by
  have hl : ∀ x ∈ [⟨[1, 1], 2⟩, ⟨[1], 0⟩],
      IndividualApproval.check .toyBls x [] [[5], [6], [7, 7]] = .ok x := by decide
  have hl' : ∀ x ∈ [⟨[1], 0⟩, ⟨[1, 1], 2⟩, ⟨[1], 0⟩],
      IndividualApproval.check .toyBls x [] [[5], [6], [7, 7]] = .ok x := by decide
  obtain ⟨a, e, e', _, hcount, hverify⟩ := addApproval_set Primitives.toyBls_additive (by decide)
    hl hl' fun i => by
      change i ∈ [2, 0] ↔ i ∈ [0, 2, 0]
      simp only [List.mem_cons, List.not_mem_nil, or_false]
      omega
  exact ⟨a, e, e', hcount, hverify (by decide)⟩

end Alys

import Mathlib.Data.Nat.Digits.Defs
import Mathlib.Data.Nat.Digits.Lemmas
import Mathlib.Tactic.Common

/-!
# Scripts of Bitcoin

The part of the script language of Bitcoin that spends of an output by one of its scripts rest on:
data pushes, the two opcodes that check a signature and the comparison of numbers, as Bitcoin
validates version 0xc0 leaves of a taproot output. A script is bytes; a failed step fails the spend.
An empty signature counts as none and is not an error, any other signature that is wrong is. The
witness of a spend may end with an annex, which the signatures then cover.
-/

namespace Alys.Lib.Tapscript

/-- An element of the stack. -/
abbrev Element := List UInt8

/-! ## Numbers -/

/-- The bytes of a natural number, the lowest first. -/
def magnitude (n : Nat) : Element := (Nat.digits 256 n).map UInt8.ofNat

/-- The natural number that the bytes stand for. -/
def value (e : Element) : Nat := Nat.ofDigits 256 (e.map UInt8.toNat)

/-- A number as an element: the magnitude, with the sign in the highest bit of the last byte. -/
def encodeNum (n : Int) : Element :=
  match (magnitude n.natAbs).getLast? with
  | none => []
  | some b =>
    if 0x80 ≤ b then magnitude n.natAbs ++ [if n < 0 then 0x80 else 0]
    else if n < 0 then (magnitude n.natAbs).dropLast ++ [b + 0x80]
    else magnitude n.natAbs

/-- The number of an element of at most four bytes. -/
def decodeNum (e : Element) : Option Int :=
  if 4 < e.length then none
  else
    match e.getLast? with
    | none => some 0
    | some b =>
      if 0x80 ≤ b then some (-(value (e.dropLast ++ [b - 0x80]) : Nat))
      else some (value e : Nat)

lemma value_magnitude (n : Nat) : value (magnitude n) = n := by
  have same : (magnitude n).map UInt8.toNat = Nat.digits 256 n := by
    rw [magnitude, List.map_map]
    conv_rhs => rw [← List.map_id (Nat.digits 256 n)]
    refine List.map_congr_left fun d mem => ?_
    have lt : d < 256 := Nat.digits_lt_base (by omega) mem
    simp [Nat.mod_eq_of_lt lt]
  rw [value, same, Nat.ofDigits_digits]

lemma length_magnitude_le {n k : Nat} (h : n < 256 ^ k) : (magnitude n).length ≤ k := by
  rw [magnitude, List.length_map]
  exact (Nat.digits_length_le_iff (by omega) n).mpr h

lemma value_append_zero (e : Element) : value (e ++ [0]) = value e := by
  simp [value, Nat.ofDigits_append]

/-- A number whose bytes are full has at least the highest bit of its last byte. -/
lemma le_value_of_getLast {e : Element} {b : UInt8} (h : e.getLast? = some b) :
    b.toNat * 256 ^ (e.length - 1) ≤ value e := by
  obtain ⟨front, rfl⟩ := List.getLast?_eq_some_iff.mp h
  simp only [value, List.map_append, List.map_cons, List.map_nil, Nat.ofDigits_append,
    List.length_map, Nat.ofDigits_singleton, List.length_append, List.length_cons, List.length_nil]
  rw [Nat.mul_comm]
  exact Nat.le_add_left _ _

/-- Natural numbers that fit are read back. -/
lemma decodeNum_encodeNum {n : Nat} (h : n < 2 ^ 31) :
    decodeNum (encodeNum n) = some (n : Int) := by
  have hlen : (magnitude n).length ≤ 4 := length_magnitude_le (by omega)
  have nonneg : ¬ (n : Int) < 0 := by omega
  simp only [encodeNum, Int.natAbs_natCast, nonneg, if_false]
  cases hlast : (magnitude n).getLast? with
  | none =>
    have zero : n = 0 := by
      rw [← value_magnitude n, List.getLast?_eq_none_iff.mp hlast]
      rfl
    subst zero
    rfl
  | some b =>
    have hle := le_value_of_getLast hlast
    rw [value_magnitude] at hle
    show decodeNum (if 0x80 ≤ b then _ else _) = _
    split
    case isTrue full =>
      -- the fourth byte of a number that fits is not full
      have short : (magnitude n).length < 4 := by
        by_contra long
        have eq : (magnitude n).length = 4 := by omega
        have : 128 ≤ b.toNat := UInt8.le_iff_toNat_le.mp full
        rw [eq] at hle
        omega
      simp [decodeNum, short, value_append_zero, value_magnitude]
    case isFalse small =>
      rw [decodeNum, if_neg (by omega), hlast]
      simp [small, value_magnitude]

lemma length_encodeNum_le {n k : Nat} (h : n < 256 ^ k) : (encodeNum n).length ≤ k + 1 := by
  have hlen := length_magnitude_le h
  have nonneg : ¬ (n : Int) < 0 := by omega
  simp only [encodeNum, Int.natAbs_natCast, nonneg, if_false]
  cases (magnitude n).getLast? with
  | none => exact Nat.zero_le _
  | some b =>
    show (if 0x80 ≤ b then _ else _ : Element).length ≤ k + 1
    split
    · rw [List.length_append, List.length_singleton]
      omega
    · omega

/-! ## Execution -/

inductive Op where
  | push (data : Element)
  | checkSig
  | checkSigAdd
  | greaterThanOrEqual
  deriving DecidableEq

/-- The stack with its top first, and what is left of the allowance for signature checks. -/
structure Machine where
  stack : List Element
  budget : Nat
  deriving DecidableEq

/-- The truth value of an element: some byte is not zero, and it is not a negative zero. -/
def castToBool (e : Element) : Bool :=
  e.dropLast.any (· ≠ 0) || e.getLast?.any fun b => b ≠ 0 && b ≠ 0x80

def ofBool (b : Bool) : Element := if b then [1] else []

section Semantics

variable (verify : Element → Element → Bool)

/-- The check of a signature under a key: whether there is one, and the allowance left. Keys of
other lengths than 32 bytes are reserved and verify nothing. -/
def evalChecksig (sig key : Element) (budget : Nat) : Option (Bool × Nat) :=
  if key = [] then none
  else if sig = [] then some (false, budget)
  else if budget < 50 then none
  else if key.length = 32 && !verify sig key then none
  else some (true, budget - 50)

def step : Op → Machine → Option Machine
  | .push data, m => some { m with stack := data :: m.stack }
  | .checkSig, ⟨key :: sig :: stack, budget⟩ => do
    let (success, budget) ← evalChecksig verify sig key budget
    return ⟨ofBool success :: stack, budget⟩
  | .checkSigAdd, ⟨key :: num :: sig :: stack, budget⟩ => do
    let n ← decodeNum num
    let (success, budget) ← evalChecksig verify sig key budget
    return ⟨encodeNum (n + if success then 1 else 0) :: stack, budget⟩
  | .greaterThanOrEqual, ⟨b :: a :: stack, budget⟩ => do
    let b ← decodeNum b
    let a ← decodeNum a
    return ⟨ofBool (decide (b ≤ a)) :: stack, budget⟩
  | _, _ => none

/-- The bound on the size of the stack, checked after each opcode. -/
def maxStackSize : Nat := 1000

def run : List Op → Machine → Option Machine
  | [], m => some m
  | op :: ops, m => do
    let m ← step verify op m
    if maxStackSize < m.stack.length then none else run ops m

/-! ## Scripts as bytes -/

/-- The opcodes of a script; other opcodes are outside of this fragment. -/
def parse (script : List UInt8) : Option (List Op) :=
  match script with
  | [] => some []
  | b :: rest =>
    if b.toNat ≤ 75 then
      if rest.length < b.toNat then none
      else (parse (rest.drop b.toNat)).map (.push (rest.take b.toNat) :: ·)
    else if 0x51 ≤ b.toNat ∧ b.toNat ≤ 0x60 then
      (parse rest).map (.push (encodeNum (b.toNat - 0x50 : Nat)) :: ·)
    else if b = 0xac then (parse rest).map (.checkSig :: ·)
    else if b = 0xba then (parse rest).map (.checkSigAdd :: ·)
    else if b = 0xa2 then (parse rest).map (.greaterThanOrEqual :: ·)
    else none
termination_by script.length
decreasing_by all_goals simp only [List.length_drop, List.length_cons]; omega

lemma parse_push {data : Element} (h : data.length ≤ 75) (rest : List UInt8) :
    parse (UInt8.ofNat data.length :: (data ++ rest)) = (parse rest).map (.push data :: ·) := by
  have hb : (UInt8.ofNat data.length).toNat = data.length := by
    rw [UInt8.toNat_ofNat']
    omega
  rw [parse]
  simp [hb, h]

lemma parse_number {n : Nat} (h : 1 ≤ n ∧ n ≤ 16) (rest : List UInt8) :
    parse (UInt8.ofNat (n - 1 + 0x51) :: rest) = (parse rest).map (.push (encodeNum n) :: ·) := by
  have hb : (UInt8.ofNat (n - 1 + 0x51)).toNat = n + 0x50 := by
    rw [UInt8.toNat_ofNat']
    omega
  rw [parse, hb, if_neg (by omega), if_pos (by omega), Nat.add_sub_cancel]

lemma parse_checkSig (rest : List UInt8) :
    parse (0xac :: rest) = (parse rest).map (.checkSig :: ·) := by
  rw [parse]
  rfl

lemma parse_checkSigAdd (rest : List UInt8) :
    parse (0xba :: rest) = (parse rest).map (.checkSigAdd :: ·) := by
  rw [parse]
  rfl

lemma parse_greaterThanOrEqual (rest : List UInt8) :
    parse (0xa2 :: rest) = (parse rest).map (.greaterThanOrEqual :: ·) := by
  rw [parse]
  rfl

/-- The bound on the size of an element of the initial stack. -/
def maxElementSize : Nat := 520

/-- The number of bytes of a length in front of its data. -/
def compactSize (n : Nat) : Nat :=
  if n < 0xfd then 1 else if n < 0x10000 then 3 else if n < 0x100000000 then 5 else 9

/-- The size of a witness stack in a transaction. -/
def witnessSize (witness : List Element) : Nat :=
  compactSize witness.length + (witness.map fun e => compactSize e.length + e.length).sum

/-- The script did not fail and left a single element, which is true. -/
def succeeds (m : Option Machine) : Bool :=
  m.any fun m => m.stack.length = 1 && m.stack.all castToBool

/-- Validation of a witness stack without its annex: the stack, then the script, then the control
block. `commits` says whether the output commits to the script by that control block, `allowance`
limits the signature checks. -/
def acceptsScript (commits : Element → Element → Bool) (allowance : Nat) (witness : List Element) :
    Bool :=
  match witness.reverse with
  | [] => false
  | [_] => false
  | control :: script :: stack =>
    commits script control && stack.length ≤ maxStackSize &&
      stack.all (·.length ≤ maxElementSize) &&
      succeeds ((parse script).bind fun ops => run verify ops ⟨stack, allowance⟩)

/-- The last of at least two elements is the annex if it starts with 0x50. -/
def annexOf (witness : List Element) : Option Element :=
  if 2 ≤ witness.length then witness.getLast?.filter (·.head? = some 0x50) else none

/-- Validation of a witness stack of a script path. Signatures cover the annex; the allowance for
their checks grows with the size of the whole witness. -/
def accepts (verify : Option Element → Element → Element → Bool)
    (commits : Element → Element → Bool) (witness : List Element) : Bool :=
  acceptsScript (verify (annexOf witness)) commits (50 + witnessSize witness)
    (if (annexOf witness).isSome then witness.dropLast else witness)

/-! ## Counting signatures -/

/-- The opcodes that count the signatures under some keys, from a number that is on the stack. -/
def adds (keys : List Element) : List Op := keys.flatMap fun key => [.push key, .checkSigAdd]

/-- The script that asks for a number of signatures under some keys. -/
def multisig (key : Element) (keys : List Element) (threshold : Nat) : List Op :=
  [.push key, .checkSig] ++ adds keys ++ [.push (encodeNum threshold), .greaterThanOrEqual]

/-- Each place of the stack is empty or has a signature under the key of the place. -/
def Signed : List Element → List Element → Prop :=
  List.Forall₂ fun sig key => sig = [] ∨ verify sig key = true

/-- The number of signatures. -/
def count (sigs : List Element) : Nat := sigs.countP (· ≠ [])

end Semantics

@[simp]
lemma count_empty (sigs : List Element) : count ([] :: sigs) = count sigs := rfl

lemma count_cons {sig : Element} (h : sig ≠ []) (sigs : List Element) :
    count (sig :: sigs) = count sigs + 1 := by
  simp [count, h]

lemma count_le_length (sigs : List Element) : count sigs ≤ sigs.length := List.countP_le_length

lemma ofBool_eq_encodeNum (b : Bool) : ofBool b = encodeNum (if b then 1 else 0 : Nat) := by
  cases b
  · rfl
  · simp [ofBool, encodeNum, magnitude]

lemma castToBool_ofBool (b : Bool) : castToBool (ofBool b) = b := by
  cases b <;> rfl

section Counting

variable {verify : Element → Element → Bool} {budget : Nat} {m : Machine} {key : Element}
  {stack : List Element} {commits : Element → Element → Bool} {witness : List Element}

/-- What follows on a check under a key of 32 bytes: the place is empty, or it has a signature that
is paid for. -/
lemma evalChecksig_bind_iff {sig key : Element} (hkey : key.length = 32)
    {f : Bool × Nat → Option Machine} :
    (evalChecksig verify sig key budget).bind f = some m ↔
      sig = [] ∧ f (false, budget) = some m ∨
      sig ≠ [] ∧ verify sig key = true ∧ 50 ≤ budget ∧ f (true, budget - 50) = some m := by
  have hne : key ≠ [] := by
    intro e
    simp [e] at hkey
  by_cases hsig : sig = []
  · simp [evalChecksig, hne, hsig]
  · cases hv : verify sig key
    · simp [evalChecksig, hne, hsig, hkey, hv]
    · by_cases hb : budget < 50
      · simp [evalChecksig, hne, hsig, hb, Nat.not_le.mpr hb]
      · simp [evalChecksig, hne, hsig, hb, hv, Nat.not_lt.mp hb]

variable {ops : List Op} {keys : List Element}

/-- The first key. -/
lemma run_first_iff (hkey : key.length = 32) :
    run verify ([.push key, .checkSig] ++ ops) ⟨stack, budget⟩ = some m ↔
      ∃ sig rest, stack = sig :: rest ∧ rest.length + 2 ≤ maxStackSize ∧
        (sig = [] ∧ run verify ops ⟨encodeNum (0 : Nat) :: rest, budget⟩ = some m ∨
          sig ≠ [] ∧ verify sig key = true ∧ 50 ≤ budget ∧
            run verify ops ⟨encodeNum (1 : Nat) :: rest, budget - 50⟩ = some m) := by
  cases stack with
  | nil => simp [run, step]
  | cons sig rest =>
    simp only [List.cons_append, List.nil_append, run, step, Option.bind_eq_bind,
      Option.bind_some, List.length_cons, List.cons.injEq, Option.bind_assoc]
    by_cases hlimit : maxStackSize < rest.length + 2
    · simp [hlimit]
    · have hroom : ¬ maxStackSize < rest.length + 1 := by omega
      have hle : rest.length + 2 ≤ maxStackSize := by omega
      simp [hlimit, evalChecksig_bind_iff hkey, hroom, hle, ofBool_eq_encodeNum]

/-- One more key, whose signature is added to the number on the stack. -/
lemma run_add_iff (hkey : key.length = 32) {c : Nat} (hc : c < 2 ^ 31) :
    run verify ([.push key, .checkSigAdd] ++ ops) ⟨encodeNum c :: stack, budget⟩ = some m ↔
      ∃ sig rest, stack = sig :: rest ∧ rest.length + 3 ≤ maxStackSize ∧
        (sig = [] ∧ run verify ops ⟨encodeNum c :: rest, budget⟩ = some m ∨
          sig ≠ [] ∧ verify sig key = true ∧ 50 ≤ budget ∧
            run verify ops ⟨encodeNum (c + 1 : Nat) :: rest, budget - 50⟩ = some m) := by
  cases stack with
  | nil => simp [run, step]
  | cons sig rest =>
    simp only [List.cons_append, List.nil_append, run, step, Option.bind_eq_bind,
      Option.bind_some, List.length_cons, decodeNum_encodeNum hc, List.cons.injEq,
      Option.bind_assoc]
    by_cases hlimit : maxStackSize < rest.length + 3
    · simp [hlimit]
    · have hroom : ¬ maxStackSize < rest.length + 1 := by omega
      have hle : rest.length + 3 ≤ maxStackSize := by omega
      simp [hlimit, evalChecksig_bind_iff hkey, hroom, hle]

/-- Some more keys: the signatures on top of the stack are counted and paid for. -/
lemma run_adds_iff (hkeys : ∀ key ∈ keys, key.length = 32) {c : Nat}
    (hc : c + keys.length < 2 ^ 31) :
    run verify (adds keys ++ ops) ⟨encodeNum c :: stack, budget⟩ = some m ↔
      ∃ sigs rest, stack = sigs ++ rest ∧ Signed verify sigs keys ∧
        (keys = [] ∨ stack.length + 2 ≤ maxStackSize) ∧ 50 * count sigs ≤ budget ∧
        run verify ops ⟨encodeNum (c + count sigs : Nat) :: rest, budget - 50 * count sigs⟩ =
          some m := by
  induction keys generalizing c stack budget with
  | nil =>
    constructor
    · intro h
      exact ⟨[], stack, rfl, .nil, .inl rfl, Nat.zero_le _, h⟩
    · rintro ⟨sigs, rest, rfl, hsigned, _, _, h⟩
      cases hsigned
      exact h
  | cons key keys ih =>
    obtain ⟨hkey, hkeys⟩ := List.forall_mem_cons.mp hkeys
    rw [List.length_cons] at hc
    rw [show adds (key :: keys) = [.push key, .checkSigAdd] ++ adds keys from rfl,
      List.append_assoc, run_add_iff hkey (by omega)]
    constructor
    · rintro ⟨sig, stack, rfl, hroom, ⟨rfl, h⟩ | ⟨hne, hv, hpaid, h⟩⟩
      · obtain ⟨sigs, rest, rfl, hsigned, _, hbudget, h⟩ := (ih hkeys (by omega)).mp h
        exact ⟨[] :: sigs, rest, rfl, .cons (.inl rfl) hsigned,
          .inr (by simpa using hroom), hbudget, h⟩
      · obtain ⟨sigs, rest, rfl, hsigned, _, hbudget, h⟩ := (ih hkeys (by omega)).mp h
        refine ⟨sig :: sigs, rest, rfl, .cons (.inr hv) hsigned, .inr (by simpa using hroom), ?_,
          ?_⟩
        · rw [count_cons hne]
          omega
        · rw [count_cons hne, Nat.add_comm (count sigs), ← Nat.add_assoc, Nat.mul_add,
            Nat.mul_one, ← Nat.sub_sub]
          exact h
    · rintro ⟨sigs, rest, rfl, hsigned, hroom, hbudget, h⟩
      cases hsigned with
      | @cons sig _ sigs _ hsig hsigned =>
        replace hroom : (sigs ++ rest).length + 3 ≤ maxStackSize := by simpa using hroom
        refine ⟨sig, sigs ++ rest, rfl, hroom, ?_⟩
        by_cases hne : sig = []
        · subst hne
          exact .inl ⟨rfl, (ih hkeys (by omega)).mpr
            ⟨sigs, rest, rfl, hsigned, .inr (by omega), hbudget, h⟩⟩
        · rw [count_cons hne] at hbudget h
          refine .inr ⟨hne, hsig.resolve_left hne, by omega, (ih hkeys (by omega)).mpr
            ⟨sigs, rest, rfl, hsigned, .inr (by omega), by omega, ?_⟩⟩
          rw [Nat.add_comm (count sigs), ← Nat.add_assoc, Nat.mul_add, Nat.mul_one,
            ← Nat.sub_sub] at h
          exact h

/-- The comparison at the end. -/
lemma run_compare_iff {n threshold : Nat} (hn : n < 2 ^ 31) (ht : threshold < 2 ^ 31) :
    run verify [.push (encodeNum threshold), .greaterThanOrEqual] ⟨encodeNum n :: stack, budget⟩ =
        some m ↔
      stack.length + 2 ≤ maxStackSize ∧ ⟨ofBool (decide (threshold ≤ n)) :: stack, budget⟩ = m := by
  simp only [run, step, Option.bind_eq_bind, Option.bind_some, List.length_cons,
    decodeNum_encodeNum hn, decodeNum_encodeNum ht, pure, Int.ofNat_le]
  by_cases hlimit : maxStackSize < stack.length + 2
  · simp [hlimit, Nat.not_le.mpr hlimit]
  · have hroom : ¬ maxStackSize < stack.length + 1 := by omega
    simp [hlimit, hroom, Nat.not_lt.mp hlimit]

/-- The script takes the signatures from the stack and leaves whether there are enough of them. -/
lemma run_multisig_iff (hkeys : ∀ k ∈ key :: keys, k.length = 32) {threshold : Nat}
    (hn : keys.length + 1 < 2 ^ 31) (ht : threshold < 2 ^ 31) :
    run verify (multisig key keys threshold) ⟨stack, budget⟩ = some m ↔
      ∃ sigs rest, stack = sigs ++ rest ∧ Signed verify sigs (key :: keys) ∧
        stack.length + 1 ≤ maxStackSize ∧ 50 * count sigs ≤ budget ∧
        ⟨ofBool (decide (threshold ≤ count sigs)) :: rest, budget - 50 * count sigs⟩ = m := by
  obtain ⟨hkey, hkeys⟩ := List.forall_mem_cons.mp hkeys
  have hcount : ∀ {sigs}, Signed verify sigs keys → count sigs ≤ keys.length :=
    fun h => h.length_eq ▸ count_le_length _
  rw [multisig, List.append_assoc, run_first_iff hkey]
  constructor
  · rintro ⟨sig, stack, rfl, hroom, ⟨rfl, h⟩ | ⟨hne, hv, hpaid, h⟩⟩
    · obtain ⟨sigs, rest, rfl, hsigned, _, hbudget, h⟩ := (run_adds_iff hkeys (by omega)).mp h
      have := hcount hsigned
      rw [Nat.zero_add, run_compare_iff (by omega) ht] at h
      exact ⟨[] :: sigs, rest, rfl, .cons (.inl rfl) hsigned, hroom, hbudget, h.2⟩
    · obtain ⟨sigs, rest, rfl, hsigned, _, hbudget, h⟩ := (run_adds_iff hkeys (by omega)).mp h
      have := hcount hsigned
      rw [run_compare_iff (by omega) ht] at h
      refine ⟨sig :: sigs, rest, rfl, .cons (.inr hv) hsigned, hroom, ?_, ?_⟩
      · rw [count_cons hne]
        omega
      · rw [count_cons hne, Nat.add_comm (count sigs), Nat.mul_add, Nat.mul_one, ← Nat.sub_sub]
        exact h.2
  · rintro ⟨sigs, rest, rfl, hsigned, hroom, hbudget, h⟩
    cases hsigned with
    | @cons sig _ sigs _ hsig hsigned =>
      have := hcount hsigned
      change (sigs ++ rest).length + 2 ≤ maxStackSize at hroom
      have hrest : rest.length + 2 ≤ maxStackSize := by
        rw [List.length_append] at hroom
        omega
      refine ⟨sig, sigs ++ rest, rfl, hroom, ?_⟩
      by_cases hne : sig = []
      · subst hne
        refine .inl ⟨rfl, (run_adds_iff hkeys (by omega)).mpr
          ⟨sigs, rest, rfl, hsigned, .inr hroom, hbudget, ?_⟩⟩
        rw [Nat.zero_add, run_compare_iff (by omega) ht]
        exact ⟨hrest, h⟩
      · rw [count_cons hne] at hbudget h
        refine .inr ⟨hne, hsig.resolve_left hne, by omega, (run_adds_iff hkeys (by omega)).mpr
          ⟨sigs, rest, rfl, hsigned, .inr hroom, by omega, ?_⟩⟩
        rw [run_compare_iff (by omega) ht]
        rw [Nat.add_comm (count sigs), Nat.mul_add, Nat.mul_one, ← Nat.sub_sub] at h
        exact ⟨hrest, h⟩

/-- Non-empty elements of more than fifty bytes pay for their checks. -/
lemma count_le_witnessSize {sigs tail : List Element}
    (h : ∀ sig ∈ sigs, sig ≠ [] → 50 ≤ sig.length) :
    50 * count sigs ≤ witnessSize (sigs.reverse ++ tail) := by
  have hsum : 50 * count sigs ≤ (sigs.map fun e => compactSize e.length + e.length).sum := by
    induction sigs with
    | nil => exact Nat.le_refl 0
    | cons sig sigs ih =>
      obtain ⟨hsig, h⟩ := List.forall_mem_cons.mp h
      have := ih h
      rw [List.map_cons, List.sum_cons]
      by_cases hne : sig = []
      · subst hne
        rw [count_empty]
        omega
      · have := hsig hne
        rw [count_cons hne]
        omega
  rw [witnessSize, List.map_append, List.sum_append, List.map_reverse, List.sum_reverse]
  omega

/-- The parts of an accepted witness. -/
lemma exists_of_acceptsScript {allowance : Nat}
    (h : acceptsScript verify commits allowance witness = true) :
    ∃ (stack : List Element) (script control : Element),
      witness = stack.reverse ++ [script, control] ∧ commits script control = true := by
  unfold acceptsScript at h
  split at h
  case h_1 => cases h
  case h_2 => cases h
  case h_3 control script stack e =>
    simp only [Bool.and_eq_true] at h
    refine ⟨stack, script, control, ?_, h.1.1.1⟩
    rw [← List.reverse_reverse witness, e]
    simp

/-- A spend by the script is accepted exactly when every place is empty or has a signature under its
key, there are enough of them, and the elements keep to the limits. -/
lemma acceptsScript_multisig_iff {threshold : Nat} {script : List UInt8}
    (hkeys : ∀ k ∈ key :: keys, k.length = 32) (hn : keys.length + 1 < 2 ^ 31)
    (ht : threshold < 2 ^ 31) (hscript : parse script = some (multisig key keys threshold))
    {allowance : Nat} {control : Element} :
    acceptsScript verify commits allowance (stack.reverse ++ [script, control]) = true ↔
      commits script control = true ∧ Signed verify stack (key :: keys) ∧
        threshold ≤ count stack ∧ stack.length + 1 ≤ maxStackSize ∧
        (∀ e ∈ stack, e.length ≤ maxElementSize) ∧ 50 * count stack ≤ allowance := by
  have hrev : (stack.reverse ++ [script, control]).reverse = control :: script :: stack := by simp
  have haccepts : acceptsScript verify commits allowance (stack.reverse ++ [script, control]) =
      (commits script control && stack.length ≤ maxStackSize &&
        stack.all (·.length ≤ maxElementSize) &&
        succeeds (run verify (multisig key keys threshold) ⟨stack, allowance⟩)) := by
    rw [acceptsScript, hrev]
    simp only [hscript, Option.bind_some]
  rw [haccepts]
  simp only [Bool.and_eq_true, decide_eq_true_eq, List.all_eq_true, succeeds, Option.any_eq_true,
    run_multisig_iff hkeys hn ht]
  constructor
  · rintro ⟨⟨⟨hcommits, _⟩, hsizes⟩, _, ⟨sigs, rest, rfl, hsigned, hroom, hbudget, rfl⟩, hone,
      htrue⟩
    -- the answer is alone on the stack, so nothing lay below the signatures
    have hrest : rest = [] := List.length_eq_zero_iff.mp (Nat.succ.inj hone)
    subst hrest
    have henough := htrue _ List.mem_cons_self
    rw [castToBool_ofBool, decide_eq_true_eq] at henough
    rw [List.append_nil] at hsizes hroom ⊢
    exact ⟨hcommits, hsigned, henough, hroom, hsizes, hbudget⟩
  · rintro ⟨hcommits, hsigned, henough, hroom, hsizes, hbudget⟩
    refine ⟨⟨⟨hcommits, by omega⟩, hsizes⟩, _,
      ⟨stack, [], (List.append_nil _).symm, hsigned, hroom, hbudget, rfl⟩, rfl, ?_⟩
    intro e mem
    rw [List.mem_singleton.mp mem, castToBool_ofBool, decide_eq_true_eq]
    exact henough

/-- A witness whose last element does not start with 0x50 has no annex. -/
lemma annexOf_eq_none {last : Element} (h : last.head? ≠ some 0x50) :
    annexOf (witness ++ [last]) = none := by
  unfold annexOf
  split
  · rw [List.getLast?_concat, Option.filter_some, if_neg (by simpa using h)]
  · rfl

/-- One that has an annex ends with it. -/
lemma annexOf_concat {annex : Element} (hne : witness ≠ []) (h : annex.head? = some 0x50) :
    annexOf (witness ++ [annex]) = some annex := by
  have := List.length_pos_iff.mpr hne
  rw [annexOf, if_pos (by rw [List.length_append, List.length_singleton]; omega),
    List.getLast?_concat, Option.filter_some, if_pos (by simpa using h)]

lemma eq_concat_of_annexOf {annex : Element} (h : annexOf witness = some annex) :
    witness = witness.dropLast ++ [annex] ∧ annex.head? = some 0x50 := by
  unfold annexOf at h
  split at h
  case isFalse => cases h
  case isTrue =>
    obtain ⟨hlast, hhead⟩ := Option.filter_eq_some_iff.mp h
    exact ⟨(List.dropLast_append_getLast? _ hlast).symm, by simpa using hhead⟩

/-- A spend by a script that no control block can be confused with an annex is accepted exactly if
what comes before the annex is. -/
lemma accepts_eq_true_iff {verify : Option Element → Element → Element → Bool}
    (hcommits : ∀ script control, commits script control = true → control.head? ≠ some 0x50) :
    accepts verify commits witness = true ↔
      ∃ rest annex, witness = rest ++ annex.toList ∧ (∀ a ∈ annex, a.head? = some 0x50) ∧
        acceptsScript (verify annex) commits (50 + witnessSize witness) rest = true := by
  constructor
  · intro h
    unfold accepts at h
    cases hannex : annexOf witness with
    | none =>
      rw [hannex] at h
      exact ⟨witness, none, (List.append_nil _).symm, by simp, h⟩
    | some annex =>
      rw [hannex] at h
      obtain ⟨hwitness, hhead⟩ := eq_concat_of_annexOf hannex
      refine ⟨witness.dropLast, some annex, hwitness, ?_, h⟩
      rintro a ⟨⟩
      exact hhead
  · rintro ⟨rest, annex, rfl, hhead, h⟩
    obtain ⟨stack, script, control, rfl, hcommit⟩ := exists_of_acceptsScript h
    cases annex with
    | none =>
      have hnone : annexOf (stack.reverse ++ [script, control]) = none := by
        rw [List.append_cons]
        exact annexOf_eq_none (hcommits _ _ hcommit)
      rw [Option.toList_none, List.append_nil] at h ⊢
      rw [accepts, hnone]
      exact h
    | some annex =>
      have hsome : annexOf (stack.reverse ++ [script, control] ++ [annex]) = some annex :=
        annexOf_concat (by simp) (hhead annex rfl)
      rw [Option.toList_some] at h ⊢
      rw [accepts, hsome, if_pos Option.isSome_some, List.dropLast_concat]
      exact h

end Counting

end Alys.Lib.Tapscript

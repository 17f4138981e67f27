import Alys.Lib.Text

/-!
# Numerals

Natural numbers written with digits, in a base of at most sixteen, and read back up to a limit.
-/

namespace Alys.Lib

/-- The number that digits stand for, if all of them are digits of the base. -/
def digitsValue (base : Nat) (digits : List Char) : Option Nat :=
  digits.foldlM
    (fun n c => (hexValue c).bind fun d => if d < base then some (base * n + d) else none) 0

/-- The number that a text stands for, if it is at most `max`. A sign may stand before the digits,
and there is at least one digit. -/
def parseNumeral (base max : Nat) (text : List Char) : Option Nat :=
  let digits := if text.head? = some '+' then text.tail else text
  if digits.isEmpty then none else (digitsValue base digits).filter (· ≤ max)

variable {base n : Nat}

lemma digitsValue_append_one {digits : List Char} {c : Char} :
    digitsValue base (digits ++ [c]) = (digitsValue base digits).bind fun n =>
      (hexValue c).bind fun d => if d < base then some (base * n + d) else none := by
  rw [digitsValue, List.foldlM_append]
  simp only [List.foldlM_cons, List.foldlM_nil, bind_pure]
  rfl

/-- The value of written digits. -/
lemma digitsValue_toDigits (hbase : 1 < base) (hle : base ≤ 16) :
    digitsValue base (base.toDigits n) = some n := by
  have digit {d : Nat} (lt : d < base) : hexValue d.digitChar = some d :=
    hexValue_digitChar d (Nat.lt_of_lt_of_le lt hle)
  induction n using Nat.strongRecOn with
  | ind n ih =>
    rcases Nat.lt_or_ge n base with lt | ge
    · rw [Nat.toDigits_of_lt_base lt, ← List.nil_append [n.digitChar], digitsValue_append_one,
        digit lt]
      show (if n < base then some (base * 0 + n) else none) = some n
      rw [if_pos lt, Nat.mul_zero, Nat.zero_add]
    · have lt : n % base < base := Nat.mod_lt n (by omega)
      rw [Nat.toDigits_of_base_le hbase ge, digitsValue_append_one,
        ih (n / base) (Nat.div_lt_self (by omega) hbase), digit lt]
      show (if n % base < base then some (base * (n / base) + n % base) else none) = some n
      rw [if_pos lt, Nat.div_add_mod]

/-- A number is not written with other characters than digits. -/
lemma hexValue_of_mem_toDigits (hbase : 1 < base) (hle : base ≤ 16) {c : Char}
    (mem : c ∈ base.toDigits n) : (hexValue c).isSome = true := by
  induction n using Nat.strongRecOn with
  | ind n ih =>
    rcases Nat.lt_or_ge n base with lt | ge
    · rw [Nat.toDigits_of_lt_base lt, List.mem_singleton] at mem
      rw [mem, hexValue_digitChar n (Nat.lt_of_lt_of_le lt hle)]
      rfl
    · have lt : n % base < base := Nat.mod_lt n (by omega)
      rw [Nat.toDigits_of_base_le hbase ge, List.mem_append, List.mem_singleton] at mem
      rcases mem with mem | rfl
      · exact ih (n / base) (Nat.div_lt_self (by omega) hbase) mem
      · rw [hexValue_digitChar _ (Nat.lt_of_lt_of_le lt hle)]
        rfl

lemma toDigits_ne_nil (hbase : 1 < base) : base.toDigits n ≠ [] := by
  rcases Nat.lt_or_ge n base with lt | ge
  · rw [Nat.toDigits_of_lt_base lt]
    exact List.cons_ne_nil _ _
  · rw [Nat.toDigits_of_base_le hbase ge]
    exact List.append_ne_nil_of_right_ne_nil _ (List.cons_ne_nil _ _)

lemma parseNumeral_toDigits {max : Nat} (hbase : 1 < base) (hle : base ≤ 16) (h : n ≤ max) :
    parseNumeral base max (base.toDigits n) = some n := by
  have unsigned : (base.toDigits n).head? ≠ some '+' := by
    intro e
    have := hexValue_of_mem_toDigits hbase hle (List.mem_of_mem_head? e)
    cases this
  have nonempty : ¬ (base.toDigits n).isEmpty = true := by
    rw [List.isEmpty_iff]
    exact toDigits_ne_nil hbase
  rw [parseNumeral, if_neg unsigned]
  show (if _ then _ else _) = _
  rw [if_neg nonempty, digitsValue_toDigits hbase hle, Option.filter_some, decide_eq_true h]
  rfl

end Alys.Lib

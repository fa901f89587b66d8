/-! Decimal numbers of 64 bits. A number is read digit by digit, and given up at the first digit
that makes it too large; since a further digit never makes a number smaller, that is the same as
reading all of the digits and looking at the value. -/
namespace TextGrammar.Text

def digitValue (x : Char) : Nat := x.toNat - '0'.toNat

theorem digitValue_lt_ten {x : Char} (hx : x.isDigit) : digitValue x < 10 := by
  rw [Char.isDigit_iff_toNat] at hx
  have zero : '0'.toNat = 48 := rfl
  have nine : '9'.toNat = 57 := rfl
  unfold digitValue
  omega

theorem toDigits_digitValue {x : Char} (hx : x.isDigit) : Nat.toDigits 10 (digitValue x) = [x] := by
  have small := digitValue_lt_ten hx
  rw [Nat.toDigits_of_lt_base small, List.singleton_inj, ← Char.toNat_inj,
    Nat.toNat_digitChar_of_lt_ten small]
  rw [Char.isDigit_iff_toNat] at hx
  have zero : '0'.toNat = 48 := rfl
  unfold digitValue
  omega

theorem ofDigitChars_cons (x : Char) (xs : List Char) (n : Nat) :
    Nat.ofDigitChars 10 (x :: xs) n = Nat.ofDigitChars 10 xs (10 * n + digitValue x) :=
  Nat.ofDigitChars_cons

/-- Writes a digit after `n`; refused when the result needs more than 64 bits. -/
def pushDigit? (n : UInt64) (x : Char) : Option UInt64 :=
  let wide := 10 * n.toNat + digitValue x
  if wide < UInt64.size then some (UInt64.ofNat wide) else none

def decimal? (digits : List Char) : Option UInt64 :=
  digits.foldlM pushDigit? 0

theorem le_ofDigitChars (digits : List Char) (n : Nat) : n ≤ Nat.ofDigitChars 10 digits n := by
  induction digits generalizing n with
  | nil => simp
  | cons x xs ih =>
    rw [Nat.ofDigitChars_cons]
    exact Nat.le_trans (by omega) (ih _)

theorem foldlM_pushDigit? (digits : List Char) (n : UInt64) :
    digits.foldlM pushDigit? n =
      if Nat.ofDigitChars 10 digits n.toNat < UInt64.size then
        some (UInt64.ofNat (Nat.ofDigitChars 10 digits n.toNat)) else none := by
  induction digits generalizing n with
  | nil => simp [n.toNat_lt_size]
  | cons x xs ih =>
    rw [List.foldlM_cons, Nat.ofDigitChars_cons, pushDigit?, digitValue]
    split
    case isTrue small =>
      show xs.foldlM pushDigit? _ = _
      rw [ih, UInt64.toNat_ofNat_of_lt' small]
    case isFalse large =>
      have := le_ofDigitChars xs (10 * n.toNat + (x.toNat - '0'.toNat))
      rw [if_neg (by omega)]
      rfl

theorem decimal?_eq (digits : List Char) :
    decimal? digits =
      if Nat.ofDigitChars 10 digits 0 < UInt64.size then
        some (UInt64.ofNat (Nat.ofDigitChars 10 digits 0)) else none :=
  foldlM_pushDigit? digits 0

end TextGrammar.Text

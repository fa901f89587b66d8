import Mathlib.Algebra.GroupWithZero.Nat
import TextGrammar.Proofs.Languages
import TextGrammar.Proofs.Reachability

/-! Numbers digit by digit. The digits are taken into a number one at a time, and each product and
each sum is checked; no check fails before the digits so far are too large a number, and the digits
that follow never make it smaller. So the checks refuse a run of digits when its value needs more
than 64 bits, and only then. -/
namespace TextGrammar

namespace Text
variable {m n k : UInt64} {x : Char} {digits : List Char}

def times? (m n : UInt64) : Option UInt64 :=
  if m.toNat * n.toNat < UInt64.size then some (m * n) else none

def plus? (m n : UInt64) : Option UInt64 :=
  if m.toNat + n.toNat < UInt64.size then some (m + n) else none

def takeDigit? (n : UInt64) (x : Char) : Option UInt64 :=
  (times? n 10).bind fun tens => plus? tens (UInt64.ofNat (digitValue x))

theorem times?_eq_some_iff : times? m n = some k ↔ k.toNat = m.toNat * n.toNat := by
  have small := k.toNat_lt_size
  unfold times?
  split
  case isTrue fits =>
    rw [Option.some_inj, ← UInt64.toNat_inj, UInt64.toNat_mul, Nat.mod_eq_of_lt fits]
    exact eq_comm
  case isFalse large =>
    simp only [reduceCtorEq, false_iff]
    omega

theorem plus?_eq_some_iff : plus? m n = some k ↔ k.toNat = m.toNat + n.toNat := by
  have small := k.toNat_lt_size
  unfold plus?
  split
  case isTrue fits =>
    rw [Option.some_inj, ← UInt64.toNat_inj, UInt64.toNat_add, Nat.mod_eq_of_lt fits]
    exact eq_comm
  case isFalse large =>
    simp only [reduceCtorEq, false_iff]
    omega

theorem takeDigit?_eq_some_iff (hx : x.isDigit) :
    takeDigit? n x = some m ↔ m.toNat = 10 * n.toNat + digitValue x := by
  have ten : (10 : UInt64).toNat = 10 := rfl
  have digit : (UInt64.ofNat (digitValue x)).toNat = digitValue x := by
    apply UInt64.toNat_ofNat_of_lt'
    have := digitValue_lt_ten hx
    have : (10 : Nat) < UInt64.size := by decide
    omega
  unfold takeDigit?
  rw [Option.bind_eq_some_iff]
  simp only [times?_eq_some_iff, plus?_eq_some_iff, ten, digit]
  constructor
  · rintro ⟨tens, htens, hm⟩
    omega
  · intro hm
    -- the product is no larger than the sum, which 64 bits hold
    have fits : n.toNat * 10 < UInt64.size := by
      have := m.toNat_lt_size
      omega
    refine ⟨UInt64.ofNat (n.toNat * 10), UInt64.toNat_ofNat_of_lt' fits, ?_⟩
    rw [UInt64.toNat_ofNat_of_lt' fits]
    omega

theorem takeDigit?_eq_none_iff (hx : x.isDigit) :
    takeDigit? n x = none ↔ UInt64.size ≤ 10 * n.toNat + digitValue x := by
  rw [Option.eq_none_iff_forall_ne_some]
  simp only [ne_eq, takeDigit?_eq_some_iff hx]
  constructor
  · intro refused
    apply Nat.le_of_not_lt
    intro fits
    exact refused (UInt64.ofNat _) (UInt64.toNat_ofNat_of_lt' fits)
  · intro large m hm
    have := m.toNat_lt_size
    omega

theorem takeDigit?_eq_pushDigit? (hx : x.isDigit) : takeDigit? n x = pushDigit? n x := by
  cases h : takeDigit? n x with
  | none =>
    rw [takeDigit?_eq_none_iff hx] at h
    simp [pushDigit?, h]
  | some m =>
    rw [takeDigit?_eq_some_iff hx] at h
    have small := m.toNat_lt_size
    simp [pushDigit?, ← h, small]

theorem too_large_iff_exists_digit (hd : ∀ x ∈ digits, x.isDigit) (n : UInt64) :
    UInt64.size ≤ Nat.ofDigitChars 10 digits n.toNat ↔ ∃ xs x ys m, digits = xs ++ x :: ys ∧
      m.toNat = Nat.ofDigitChars 10 xs n.toNat ∧ takeDigit? m x = none := by
  constructor
  · intro large
    induction digits generalizing n with
    | nil =>
      have := n.toNat_lt_size
      simp at large
      omega
    | cons x xs ih =>
      have hx := hd x List.mem_cons_self
      cases h : takeDigit? n x with
      | none => exact ⟨[], x, xs, n, rfl, rfl, h⟩
      | some m =>
        rw [takeDigit?_eq_some_iff hx] at h
        rw [Nat.ofDigitChars_cons, ← digitValue, ← h] at large
        obtain ⟨us, y, vs, k, rfl, hk, refused⟩ :=
          ih (fun y hy => hd y (List.mem_cons_of_mem x hy)) m large
        refine ⟨x :: us, y, vs, k, rfl, ?_, refused⟩
        rw [hk, h, Nat.ofDigitChars_cons, digitValue]
  · rintro ⟨xs, x, ys, m, rfl, hm, refused⟩
    rw [takeDigit?_eq_none_iff (hd x (by simp)), hm] at refused
    rw [Nat.ofDigitChars_append, Nat.ofDigitChars_cons]
    exact Nat.le_trans refused (le_ofDigitChars ys _)

end Text

namespace Parser
open Cursor (between)
open Text (Stops takeDigit?)

/-- Takes the digits at `c` one after another into `n`, up to the first scalar that is none. Gives
up at a digit that makes the number too large. -/
def takeDigits? (n : UInt64) (c : Cursor) : Option (UInt64 × Cursor) :=
  match _h : c.scalar? with
  | some x =>
    if x.isDigit then (takeDigit? n x).bind fun m => takeDigits? m c.next else some (n, c)
  | none => some (n, c)
termination_by c.source.utf8ByteSize - c.offset
decreasing_by
  have := Cursor.offset_lt_of_scalar _h
  have := Char.utf8Size_pos ‹_›
  simp only [Cursor.next_of_scalar _h]
  omega

theorem takeDigits?_of_digit {x : Char} (hx : x.isDigit) (n : UInt64) (before ahead : List Char) :
    takeDigits? n (between before (x :: ahead)) =
      (takeDigit? n x).bind fun m => takeDigits? m (between (before ++ [x]) ahead) := by
  rw [takeDigits?]
  split
  case h_1 y hy =>
    simp only [Cursor.scalar?_between, List.head?_cons, Option.some_inj] at hy
    subst hy
    rw [if_pos hx, Cursor.next_between_cons]
  case h_2 hy => simp at hy

theorem takeDigits?_of_stops {ahead : List Char} (h : Stops Char.isDigit ahead) (n : UInt64)
    (before : List Char) :
    takeDigits? n (between before ahead) = some (n, between before ahead) := by
  rw [takeDigits?]
  split
  case h_1 y hy =>
    rw [Cursor.scalar?_between] at hy
    rw [Stops, hy, Option.any_some] at h
    rw [if_neg (by simp [h])]
  case h_2 => rfl

theorem takeDigits?_digits_append {digits : List Char} (hd : ∀ x ∈ digits, x.isDigit) (n : UInt64)
    (before ahead : List Char) :
    takeDigits? n (between before (digits ++ ahead)) =
      (digits.foldlM Text.pushDigit? n).bind fun m =>
        takeDigits? m (between (before ++ digits) ahead) := by
  induction digits generalizing n before with
  | nil => simp
  | cons x xs ih =>
    have hx := hd x List.mem_cons_self
    rw [List.cons_append, takeDigits?_of_digit hx, Text.takeDigit?_eq_pushDigit? hx,
      List.foldlM_cons]
    cases Text.pushDigit? n x with
    | none => rfl
    | some m =>
      rw [Option.bind_some, ih (fun y hy => hd y (List.mem_cons_of_mem x hy)), List.append_assoc]
      rfl

theorem takeDigits?_of_value {xs : List Char} (hd : ∀ x ∈ xs, x.isDigit) {m n : UInt64}
    (hm : m.toNat = Nat.ofDigitChars 10 xs n.toNat) (before ahead : List Char) :
    takeDigits? n (between before (xs ++ ahead)) = takeDigits? m (between (before ++ xs) ahead) := by
  have taken : xs.foldlM Text.pushDigit? n = some m := by
    rw [Text.foldlM_pushDigit?, ← hm, if_pos m.toNat_lt_size, UInt64.ofNat_toNat]
  rw [takeDigits?_digits_append hd, taken, Option.bind_some]

theorem parse_number_eq_takeDigits? (before ahead : List Char) :
    number.parse (between before ahead) =
      (takeDigits? 0 (between before ahead)).bind fun (n, e) =>
        if e.position = before.length then none else some (n, e) := by
  have hd : ∀ x ∈ ahead.takeWhile Char.isDigit, x.isDigit := fun x => List.mem_takeWhile_imp
  have taken := takeDigits?_digits_append hd 0 before (ahead.dropWhile Char.isDigit)
  rw [List.takeWhile_append_dropWhile] at taken
  rw [parse_number, taken, ← Text.decimal?]
  cases Text.decimal? (ahead.takeWhile Char.isDigit) with
  | none => simp
  | some n => simp [takeDigits?_of_stops (Text.stops_dropWhile Char.isDigit ahead)]

theorem parse_number_eq_ite {digits after : List Char} (hd : ∀ x ∈ digits, x.isDigit)
    (stops : Stops Char.isDigit after) (before : List Char) :
    number.parse (between before (digits ++ after)) =
      if digits ≠ [] ∧ Nat.ofDigitChars 10 digits 0 < 2 ^ 64 then
        some (UInt64.ofNat (Nat.ofDigitChars 10 digits 0), between (before ++ digits) after)
      else none := by
  have size : UInt64.size = 2 ^ 64 := rfl
  rw [parse_number, Text.takeWhile_append_of_stops hd stops,
    Text.dropWhile_append_of_stops hd stops, Text.decimal?_eq, size]
  by_cases none : digits = []
  · rw [if_pos none, if_neg fun accepted => accepted.1 none]
  · by_cases fits : Nat.ofDigitChars 10 digits 0 < 2 ^ 64
    · rw [if_neg none, if_pos fits, if_pos ⟨none, fits⟩]
      rfl
    · rw [if_neg none, if_neg fits, if_neg fun accepted => fits accepted.2]
      rfl

/-- The longest run of digits is read, for its value, when there is one and its value needs no more
than 64 bits. That is what the digits give one by one: between two of them the number that was taken
is the one written so far, and one of them is refused when the value of all is too large. -/
theorem exact_decimals {c : Cursor} (hc : c.Reachable) :
    let digits := c.rest.toList.takeWhile Char.isDigit
    let value := Nat.ofDigitChars 10 digits 0
    ((number.parse c).isSome ↔ digits ≠ [] ∧ value < 2 ^ 64) ∧
    (∀ n e, number.parse c = some (n, e) →
      n.toNat = value ∧ c.advance? digits.length = some e) ∧
    (number.parse c = (takeDigits? 0 c).bind fun (n, e) =>
      if e.position = c.position then none else some (n, e)) ∧
    (∀ xs ys n, digits = xs ++ ys → n.toNat = Nat.ofDigitChars 10 xs 0 →
      ∃ d, c.advance? xs.length = some d ∧ takeDigits? 0 c = takeDigits? n d) ∧
    ((∃ xs x ys n, digits = xs ++ x :: ys ∧ n.toNat = Nat.ofDigitChars 10 xs 0 ∧
      takeDigit? n x = none) ↔ 2 ^ 64 ≤ value) := by
  obtain ⟨before, ahead, rfl⟩ := Cursor.reachable_iff_placed.1 hc
  obtain ⟨digits, after, rfl, hd, stops⟩ := Text.exists_run Char.isDigit ahead
  have run : (between before (digits ++ after)).rest.toList.takeWhile Char.isDigit = digits := by
    rw [Cursor.toList_rest_between, Text.takeWhile_append_of_stops hd stops]
  have parsed := parse_number_eq_ite hd stops before
  simp only [run]
  refine ⟨?_, ?_, parse_number_eq_takeDigits? before _, ?_, ?_⟩
  · rw [parsed, Option.isSome_ite]
  · intro n e matched
    rw [parsed] at matched
    split at matched
    case isTrue accepted =>
      cases matched
      refine ⟨UInt64.toNat_ofNat_of_lt' accepted.2, ?_⟩
      exact Cursor.advance?_between_append before digits after
    case isFalse => contradiction
  · rintro xs ys n rfl hn
    rw [List.append_assoc]
    refine ⟨_, Cursor.advance?_between_append before xs (ys ++ after), ?_⟩
    exact takeDigits?_of_value (fun x hx => hd x (List.mem_append_left ys hx)) hn before _
  · exact (Text.too_large_iff_exists_digit hd 0).symm

theorem exact_decimals_large :
    let c := between ['é'] "0018446744073709551616x".toList
    let digits := c.rest.toList.takeWhile Char.isDigit
    c.Reachable ∧ Nat.ofDigitChars 10 digits 0 = 2 ^ 64 ∧ number.parse c = none ∧
      ∃ xs x ys n, digits = xs ++ x :: ys ∧ n.toNat = Nat.ofDigitChars 10 xs 0 ∧
        takeDigit? n x = none := by
  intro c digits
  have hc : c.Reachable := Cursor.reachable_between _ _
  have value : Nat.ofDigitChars 10 digits 0 = 2 ^ 64 := by decide +kernel
  obtain ⟨accepted, -, -, -, refused⟩ := exact_decimals hc
  refine ⟨hc, value, ?_, refused.2 (Nat.le_of_eq value.symm)⟩
  rw [← Option.not_isSome_iff_eq_none, accepted]
  rintro ⟨-, fits⟩
  exact Nat.ne_of_lt fits value

end Parser
end TextGrammar

import Mathlib.Data.List.Basic
import TextGrammar.Format.Record
import TextGrammar.Proofs.Languages

/-! Ratios and their texts. A number is read whether or not zeros stand in front of it, and written
without them. So of all the texts that are read as one ratio a single one is written for it, and the
others are that one with more zeros. -/
namespace TextGrammar

namespace Text
variable {n : Nat} {x : Char} {digits digits' : List Char}

/-- Digits without the zeros that say nothing: those that stand in front of another digit. -/
def significant : List Char → List Char
  | [] => []
  | [x] => [x]
  | x :: y :: ys => if x = '0' then significant (y :: ys) else x :: y :: ys

/-- The same digits, but for the number of zeros in front of them. -/
def SameButZeros (digits digits' : List Char) : Prop :=
  ∃ k l core, digits = List.replicate k '0' ++ core ∧ digits' = List.replicate l '0' ++ core

theorem ofDigitChars_zeros (k : Nat) (digits : List Char) :
    Nat.ofDigitChars 10 (List.replicate k '0' ++ digits) 0 = Nat.ofDigitChars 10 digits 0 := by
  rw [Nat.ofDigitChars_append, Nat.ofDigitChars_replicate_zero, Nat.mul_zero]

theorem SameButZeros.ofDigitChars_eq (h : SameButZeros digits digits') :
    Nat.ofDigitChars 10 digits 0 = Nat.ofDigitChars 10 digits' 0 := by
  obtain ⟨k, l, core, rfl, rfl⟩ := h
  rw [ofDigitChars_zeros, ofDigitChars_zeros]

theorem exists_zeros_significant (digits : List Char) :
    ∃ k, digits = List.replicate k '0' ++ significant digits := by
  fun_induction significant digits with
  | case1 | case2 | case4 => exact ⟨0, rfl⟩
  | case3 y ys ih =>
    obtain ⟨k, cut⟩ := ih
    refine ⟨k + 1, ?_⟩
    rw [List.replicate_succ, List.cons_append, ← cut]

theorem digitValue_pos (hx : x.isDigit) (nonzero : x ≠ '0') : 0 < digitValue x := by
  apply Nat.pos_of_ne_zero
  intro zero
  apply nonzero
  rw [← List.singleton_inj, ← toDigits_digitValue hx, zero, Nat.toDigits_zero]

theorem toDigits_ofDigitChars (hn : 0 < n) (h : ∀ x ∈ digits, x.isDigit) :
    Nat.toDigits 10 (Nat.ofDigitChars 10 digits n) = Nat.toDigits 10 n ++ digits := by
  induction digits generalizing n with
  | nil => simp
  | cons x xs ih =>
    obtain ⟨hx, hxs⟩ := List.forall_mem_cons.1 h
    have step : Nat.toDigits 10 (10 * n + digitValue x) = Nat.toDigits 10 n ++ [x] := by
      rw [← Nat.toDigits_append_toDigits (by decide) hn (digitValue_lt_ten hx),
        toDigits_digitValue hx]
    rw [ofDigitChars_cons, ih (by omega) hxs, step, List.append_assoc, List.singleton_append]

theorem Numeral.significant_eq (h : Numeral n digits) : significant digits = Nat.toDigits 10 n := by
  fun_induction significant digits with
  | case1 => exact absurd rfl h.ne_nil
  | case2 x =>
    have hx := h.isDigit x List.mem_cons_self
    rw [← h.value, ofDigitChars_cons, Nat.mul_zero, Nat.zero_add, Nat.ofDigitChars_nil,
      toDigits_digitValue hx]
  | case3 y ys ih =>
    apply ih
    refine ⟨by simp, (List.forall_mem_cons.1 h.isDigit).2, ?_⟩
    rw [← h.value]
    exact (ofDigitChars_zeros 1 (y :: ys)).symm
  | case4 x y ys nonzero =>
    obtain ⟨hx, more⟩ := List.forall_mem_cons.1 h.isDigit
    rw [← h.value, ofDigitChars_cons, Nat.mul_zero, Nat.zero_add,
      toDigits_ofDigitChars (digitValue_pos hx nonzero) more, toDigits_digitValue hx,
      List.singleton_append]

theorem sameButZeros_iff {n' : Nat} (h : Numeral n digits) (h' : Numeral n' digits') :
    SameButZeros digits digits' ↔ n = n' := by
  constructor
  · intro same
    rw [← h.value, ← h'.value, same.ofDigitChars_eq]
  · rintro rfl
    obtain ⟨k, cut⟩ := exists_zeros_significant digits
    obtain ⟨l, cut'⟩ := exists_zeros_significant digits'
    rw [h.significant_eq] at cut
    rw [h'.significant_eq] at cut'
    exact ⟨k, l, _, cut, cut'⟩

theorem Numeral.slash_notMem (h : Numeral n digits) : '/' ∉ digits := by
  intro hx
  have := h.isDigit '/' hx
  contradiction

end Text

namespace Format
open TextGrammar.Parser (Recognises recognises_number)
open Text (Stops Numeral SameButZeros significant)

def Ratio.WrittenAs (r : Ratio) (text : List Char) : Prop :=
  ∃ num den, text = num ++ '/' :: den ∧ Numeral r.num.toNat num ∧ Numeral r.den.toNat den

theorem Ratio.WrittenAs.numerals {r : Ratio} {num den : List Char}
    (h : r.WrittenAs (num ++ '/' :: den)) :
    Numeral r.num.toNat num ∧ Numeral r.den.toNat den := by
  obtain ⟨num', den', same, hnum, hden⟩ := h
  -- the text has one slash, so it is parted in one way
  obtain ⟨rfl, -, rfl⟩ :=
    (List.append_cons_inj_of_notMem hnum.slash_notMem hden.slash_notMem).1 same.symm
  exact ⟨hnum, hden⟩

theorem Ratio.toList_write (r : Ratio) :
    r.write.toList = Nat.toDigits 10 r.num.toNat ++ '/' :: Nat.toDigits 10 r.den.toNat := by
  simp [Ratio.write]

theorem Ratio.writtenAs_write (r : Ratio) : r.WrittenAs r.write.toList :=
  ⟨_, _, r.toList_write, Text.numeral_toDigits _, Text.numeral_toDigits _⟩

theorem recognises_ratio :
    Ratio.parser.Recognises fun r mid after => r.WrittenAs mid ∧ Stops Char.isDigit after := by
  have stages := recognises_number.bind fun num => Recognises.exactly_bind "/" <|
    recognises_number.bind_pure (Ratio.mk num)
  apply stages.congr
  intro r mid after
  constructor
  · intro taken
    obtain ⟨m, num, behindNum, rfl, ⟨hnum, -⟩, taken⟩ := taken
    obtain ⟨den, rfl, n, rfl, hden, stops⟩ := taken
    exact ⟨⟨num, den, rfl, hnum, hden⟩, stops⟩
  · intro written
    obtain ⟨⟨num, den, rfl, hnum, hden⟩, stops⟩ := written
    have slash : Stops Char.isDigit ('/' :: den ++ after) := rfl
    refine ⟨r.num, num, '/' :: den, rfl, ⟨hnum, slash⟩, ?_⟩
    exact ⟨den, rfl, r.den, rfl, hden, stops⟩

/-- A ratio is read back from what is written for it. A text is read as a ratio when it is two
numerals with a slash between them, and only then; what is written for that ratio is the text
without the zeros that say nothing; and two texts are read as one ratio when they are the same but
for such zeros. -/
theorem ratios_of_texts :
    (∀ r : Ratio, Readable.read? r.write = some r) ∧
    (∀ text (r : Ratio), Readable.read? text = some r ↔ r.WrittenAs text.toList) ∧
    (∀ text (r : Ratio) num den, Readable.read? text = some r → text.toList = num ++ '/' :: den →
      r.write.toList = significant num ++ '/' :: significant den) ∧
    ∀ text text' (r r' : Ratio) num den num' den', Readable.read? text = some r →
      Readable.read? text' = some r' → text.toList = num ++ '/' :: den →
      text'.toList = num' ++ '/' :: den' →
      (r = r' ↔ SameButZeros num num' ∧ SameButZeros den den') := by
  have read (text : String) (r : Ratio) :
      Readable.read? text = some r ↔ r.WrittenAs text.toList :=
    recognises_ratio.run_iff.trans (and_iff_left Text.stops_nil)
  refine ⟨?_, read, ?_, ?_⟩
  · intro r
    rw [read]
    exact r.writtenAs_write
  · intro text r num den found cut
    rw [read, cut] at found
    obtain ⟨hnum, hden⟩ := found.numerals
    rw [r.toList_write, hnum.significant_eq, hden.significant_eq]
  · intro text text' r r' num den num' den' found found' cut cut'
    rw [read, cut] at found
    rw [read, cut'] at found'
    obtain ⟨hnum, hden⟩ := found.numerals
    obtain ⟨hnum', hden'⟩ := found'.numerals
    rw [Text.sameButZeros_iff hnum hnum', Text.sameButZeros_iff hden hden', UInt64.toNat_inj,
      UInt64.toNat_inj, Ratio.mk.injEq]

theorem ratios_of_texts_zeros :
    let r : Ratio := ⟨1007, 0⟩
    Readable.read? "001007/00" = some r ∧ Readable.read? "1007/000" = some r ∧
      SameButZeros "00".toList "000".toList ∧ r.write = "1007/0" ∧
      Readable.read? "1007/0" = some r ∧
      ∀ r : Ratio, ¬ r.WrittenAs "1/18446744073709551616".toList := by
  intro r
  obtain ⟨back, read, short, same⟩ := ratios_of_texts
  have found : Readable.read? "001007/00" = some r := by decide +kernel
  have found' : Readable.read? "1007/000" = some r := by decide +kernel
  have refused : (Readable.read? "1/18446744073709551616" : Option Ratio) = none := by
    decide +kernel
  have written : r.write = "1007/0" := by
    rw [← String.toList_inj, short _ r "001007".toList "00".toList found (by decide)]
    decide
  have zeros := (same _ _ r r "001007".toList "00".toList "1007".toList "000".toList found found'
    (by decide) (by decide)).1 rfl
  refine ⟨found, found', zeros.2, written, written ▸ back r, ?_⟩
  intro q
  rw [← read, refused]
  nofun

end Format
end TextGrammar

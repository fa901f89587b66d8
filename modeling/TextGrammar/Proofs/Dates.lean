import Mathlib.Data.List.Basic
import TextGrammar.Format.Record
import TextGrammar.Proofs.Languages

/-! Dates and their texts. What is accepted is the format and nothing else; each stage adds its part
to the language, whether the scalars or the value that was read decide. -/
namespace TextGrammar.Format
open TextGrammar.Parser (Recognises recognises_number recognises_scalar recognises_pure)
open Text (Stops Numeral)

/-- The format: a year of any length, and two digits each for a month and a day of some year. -/
def Date.WrittenAs (d : Date) (text : List Char) : Prop :=
  ∃ year month day, text = year ++ '-' :: (month ++ '-' :: day) ∧ Numeral d.year.toNat year ∧
    (month.length = 2 ∧ Numeral d.month month ∧ 1 ≤ d.month ∧ d.month ≤ 12) ∧
    day.length = 2 ∧ Numeral d.day day ∧ 1 ≤ d.day ∧ d.day ≤ 31

theorem numeral_pair {tens ones : Char} {n : Nat} : Numeral n [tens, ones] ↔
    tens.isDigit ∧ ones.isDigit ∧ n = 10 * Text.digitValue tens + Text.digitValue ones := by
  constructor
  · intro h
    refine ⟨h.isDigit tens (by simp), h.isDigit ones (by simp), ?_⟩
    rw [← h.value]
    simp [Nat.ofDigitChars_cons, Text.digitValue]
  · rintro ⟨htens, hones, rfl⟩
    refine ⟨by simp, by simp [htens, hones], ?_⟩
    simp [Nat.ofDigitChars_cons, Text.digitValue]

theorem recognises_twoDigits :
    twoDigits.Recognises fun n mid _ => mid.length = 2 ∧ Numeral n mid := by
  have stages := recognises_scalar.bind fun tens => recognises_scalar.bind fun ones =>
    Recognises.guard_bind (tens.isDigit ∧ ones.isDigit)
      (recognises_pure (10 * Text.digitValue tens + Text.digitValue ones))
  apply stages.congr
  intro n mid after
  constructor
  · intro taken
    obtain ⟨tens, _, behind, rfl, rfl, taken⟩ := taken
    obtain ⟨ones, _, left, rfl, rfl, digits, rfl, rfl⟩ := taken
    exact ⟨rfl, numeral_pair.2 ⟨digits.1, digits.2, rfl⟩⟩
  · intro written
    obtain ⟨two, numeral⟩ := written
    obtain ⟨tens, ones, rfl⟩ := List.length_eq_two.1 two
    obtain ⟨htens, hones, rfl⟩ := numeral_pair.1 numeral
    refine ⟨tens, [tens], [ones], rfl, rfl, ?_⟩
    exact ⟨ones, [ones], [], rfl, rfl, ⟨htens, hones⟩, rfl, rfl⟩

theorem recognises_twoDigitsUpTo (last : Nat) :
    (twoDigitsUpTo last).Recognises fun n mid _ =>
      mid.length = 2 ∧ Numeral n mid ∧ 1 ≤ n ∧ n ≤ last := by
  have stages := recognises_twoDigits.bind fun n =>
    Recognises.guard_bind (1 ≤ n ∧ n ≤ last) (recognises_pure n)
  apply stages.congr
  intro n mid after
  constructor
  · intro taken
    obtain ⟨m, digits, left, rfl, ⟨two, numeral⟩, bounds, rfl, rfl⟩ := taken
    rw [List.append_nil]
    exact ⟨two, numeral, bounds⟩
  · intro written
    obtain ⟨two, numeral, bounds⟩ := written
    exact ⟨n, mid, [], (List.append_nil mid).symm, ⟨two, numeral⟩, bounds, rfl, rfl⟩

theorem recognises_date : Date.parser.Recognises fun d mid _ => d.WrittenAs mid := by
  have stages := recognises_number.bind fun year => Recognises.exactly_bind "-" <|
    (recognises_twoDigitsUpTo 12).bind fun month => Recognises.exactly_bind "-" <|
      (recognises_twoDigitsUpTo 31).bind_pure (Date.mk year month)
  apply stages.congr
  intro d mid after
  constructor
  · intro taken
    obtain ⟨y, year, behindYear, rfl, ⟨hyear, -⟩, taken⟩ := taken
    obtain ⟨behindMark, rfl, taken⟩ := taken
    obtain ⟨m, month, behindMonth, rfl, hmonth, taken⟩ := taken
    obtain ⟨day, rfl, n, rfl, hday⟩ := taken
    exact ⟨year, month, day, rfl, hyear, hmonth, hday⟩
  · intro written
    obtain ⟨year, month, day, rfl, hyear, hmonth, hday⟩ := written
    -- a number takes all the digits there are, and the mark behind the year is not one
    have stops : Stops Char.isDigit ('-' :: (month ++ '-' :: day) ++ after) := rfl
    refine ⟨d.year, year, '-' :: (month ++ '-' :: day), rfl, ⟨hyear, stops⟩, ?_⟩
    refine ⟨month ++ '-' :: day, rfl, ?_⟩
    refine ⟨d.month, month, '-' :: day, rfl, hmonth, ?_⟩
    exact ⟨day, rfl, d.day, rfl, hday⟩

theorem toList_writeTwoDigits {n : Nat} (h : n < 100) :
    (writeTwoDigits n).toList.length = 2 ∧ Numeral n (writeTwoDigits n).toList := by
  unfold writeTwoDigits
  split
  case isTrue small =>
    have digits : ("0" ++ n.repr).toList = ['0', n.digitChar] := by
      simp [Nat.toDigits_of_lt_base small]
    rw [digits]
    refine ⟨rfl, by simp, ?_, ?_⟩
    · simp [Nat.isDigit_digitChar, small]
    · simp [Nat.ofDigitChars_cons, Nat.ofDigitChars_cons_digitChar_of_lt_ten small]
  case isFalse large =>
    have digits : n.repr.toList = Nat.toDigits 10 n := by simp
    rw [digits]
    refine ⟨?_, Text.numeral_toDigits n⟩
    rw [Nat.toDigits_of_base_le (by decide) (Nat.le_of_not_lt large),
      Nat.toDigits_of_lt_base (by omega)]
    rfl

theorem Date.writtenAs_write {d : Date} (hmonth : 1 ≤ d.month ∧ d.month ≤ 12)
    (hday : 1 ≤ d.day ∧ d.day ≤ 31) : d.WrittenAs d.write.toList := by
  obtain ⟨month, hmonth'⟩ := toList_writeTwoDigits (n := d.month) (by omega)
  obtain ⟨day, hday'⟩ := toList_writeTwoDigits (n := d.day) (by omega)
  refine ⟨Nat.toDigits 10 d.year.toNat, _, _, ?_, Text.numeral_toDigits _, ⟨month, hmonth', hmonth⟩,
    day, hday', hday⟩
  simp [Date.write]

theorem Date.not_writtenAs_nil (d : Date) : ¬ d.WrittenAs [] := by
  rintro ⟨year, month, day, cut, -⟩
  simp at cut

/-- A text is read as a date when it is one in the format, and refused by its own words when it is
not; dates are read back from what is written for them; and from a place where none is written,
nothing is taken. -/
theorem dates_of_texts :
    (∀ text (d : Date), Readable.read? text = some d ↔ d.WrittenAs text.toList) ∧
    (∀ text (d : Date), d.WrittenAs text.toList →
      Readable.read text = .ok d ∧ Readable.readVouched text = .ok d) ∧
    (∀ d : Date, 1 ≤ d.month ∧ d.month ≤ 12 → 1 ≤ d.day ∧ d.day ≤ 31 →
      Readable.read? d.write = some d) ∧
    (∀ text, (∀ d : Date, ¬ d.WrittenAs text.toList) →
      (Readable.read? text : Option Date) = none ∧
      (Readable.read text : Except Unreadable Date) = .error ⟨text, Readable.typeName Date⟩ ∧
      (Readable.readVouched text : Except InvalidLiteral Date) =
        .error ⟨⟨text, Readable.typeName Date⟩⟩) ∧
    ∀ text start,
      (∃ (d : Date) (mid after : List Char), text.toList.drop start = mid ++ after ∧
        d.WrittenAs mid ∧ Date.parser.runFrom text start = (some d, String.ofList after)) ∨
      (∀ (d : Date) (mid after : List Char), text.toList.drop start = mid ++ after →
        ¬ d.WrittenAs mid) ∧
        Date.parser.runFrom text start = (none, String.ofList (text.toList.drop start)) := by
  have read (text : String) (d : Date) :
      Readable.read? text = some d ↔ d.WrittenAs text.toList := recognises_date.run_iff
  refine ⟨read, ?_, ?_, ?_, ?_⟩
  · intro text d written
    have found := (read text d).2 written
    exact ⟨Readable.read_of_some found, Readable.readVouched_of_some found⟩
  · intro d hmonth hday
    rw [read]
    exact Date.writtenAs_write hmonth hday
  · intro text none
    have refused : (Readable.read? text : Option Date) = .none := by
      rw [Option.eq_none_iff_forall_ne_some]
      intro d found
      exact none d ((read text d).1 found)
    exact ⟨refused, Readable.read_of_none refused, Readable.readVouched_of_none refused⟩
  · intro text start
    by_cases le : start ≤ text.length
    · exact recognises_date.runFrom_cases le
    · right
      have past := Nat.lt_of_not_le le
      rw [Text.drop_toList_of_lt past, Parser.runFrom_of_lt _ past]
      refine ⟨?_, rfl⟩
      intro d mid after cut
      obtain ⟨rfl, -⟩ := List.append_eq_nil_iff.1 cut.symm
      exact d.not_writtenAs_nil

theorem dates_of_texts_leap :
    let d : Date := ⟨24, 2, 29⟩
    (1 ≤ d.month ∧ d.month ≤ 12) ∧ (1 ≤ d.day ∧ d.day ≤ 31) ∧ d.write = "24-02-29" ∧
      Readable.read? "24-02-29" = some d ∧ d.WrittenAs "0024-02-29".toList ∧
      (Readable.read "0024-02-29" : Except Unreadable Date) = .ok d ∧
      (Readable.readVouched "0024-02-29" : Except InvalidLiteral Date) = .ok d ∧
      (∀ d : Date, ¬ d.WrittenAs "0024-02-29T".toList) ∧
      (Readable.read "0024-02-29T" : Except Unreadable Date) = .error ⟨"0024-02-29T", "Date"⟩ ∧
      (Readable.readVouched "0024-02-29T" : Except InvalidLiteral Date) =
        .error ⟨⟨"0024-02-29T", "Date"⟩⟩ := by
  intro d
  have month : 1 ≤ d.month ∧ d.month ≤ 12 := by decide
  have day : 1 ≤ d.day ∧ d.day ≤ 31 := by decide
  have written : d.write = "24-02-29" := by decide +kernel
  have zeros : Readable.read? "0024-02-29" = some d := by decide +kernel
  have refused : (Readable.read? "0024-02-29T" : Option Date) = none := by decide +kernel
  obtain ⟨read, whole, back, others, -⟩ := dates_of_texts
  have padded : d.WrittenAs "0024-02-29".toList := (read _ _).1 zeros
  have none (d : Date) : ¬ d.WrittenAs "0024-02-29T".toList := by
    rw [← read, refused]
    nofun
  have ⟨valid, vouched⟩ := whole "0024-02-29" d padded
  have ⟨_, invalid, unvouched⟩ := others "0024-02-29T" none
  exact ⟨month, day, written, written ▸ back d month day, padded, valid, vouched, none, invalid,
    unvouched⟩

end TextGrammar.Format

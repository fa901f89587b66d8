import TextGrammar.Format.Record
import TextGrammar.Proofs.Languages

/-! Counts and their texts. How much has to follow is said by the number that was read, so what is
accepted behind the colon depends on what stands before it. A text announces one count at most, and
a number that is too large announces none. Where too few letters follow, all of it is given back. -/
namespace TextGrammar

theorem Text.eq_replicate_append_iff {x : Char} {count : Nat} {text after : List Char} :
    text = List.replicate count x ++ after ↔
      count ≤ (text.takeWhile (· == x)).length ∧ after = text.drop count := by
  induction count generalizing text with
  | zero => simp [eq_comm]
  | succ count ih =>
    rw [List.replicate_succ, List.cons_append]
    cases text with
    | nil => simp
    | cons y ys =>
      by_cases same : y = x
      · subst same
        simp [ih]
      · simp [same]

namespace Format.Counted
open TextGrammar.Parser (Recognises recognises_number recognises_pure)
open Text (Stops Numeral)

/-- A text begins with digits for `count` and a colon, and goes on with `behind`. -/
def Announces (count : UInt64) (text behind : List Char) : Prop :=
  ∃ digits, Numeral count.toNat digits ∧ text = digits ++ ':' :: behind

def WrittenAs (count : UInt64) (text : List Char) : Prop :=
  Announces count text (List.replicate count.toNat 'x')

theorem Announces.inj {m n : UInt64} {text behind behind' : List Char}
    (h : Announces m text behind) (h' : Announces n text behind') : m = n ∧ behind = behind' := by
  obtain ⟨digits, numeral, rfl⟩ := h
  obtain ⟨digits', numeral', same⟩ := h'
  -- a colon ends the digits of both, so they are the same digits
  have colon (rest : List Char) : Stops Char.isDigit (':' :: rest) := rfl
  obtain ⟨rfl, rest⟩ :=
    Text.run_inj numeral.isDigit (colon behind) numeral'.isDigit (colon behind') same
  refine ⟨?_, List.tail_eq_of_cons_eq rest⟩
  rw [← UInt64.toNat_inj, ← numeral.value, numeral'.value]

theorem not_announces_nil (count : UInt64) (behind : List Char) : ¬ Announces count [] behind := by
  rintro ⟨digits, -, cut⟩
  simp at cut

theorem exists_writtenAs_iff {count : UInt64} {text after : List Char} :
    (∃ mid, text = mid ++ after ∧ WrittenAs count mid) ↔
      ∃ behind, Announces count text behind ∧
        count.toNat ≤ (behind.takeWhile (· == 'x')).length ∧ after = behind.drop count.toNat := by
  simp only [← Text.eq_replicate_append_iff]
  constructor
  · rintro ⟨_, rfl, digits, numeral, rfl⟩
    exact ⟨_, ⟨digits, numeral, by simp⟩, rfl⟩
  · rintro ⟨_, ⟨digits, numeral, rfl⟩, rfl⟩
    exact ⟨digits ++ ':' :: List.replicate count.toNat 'x', by simp, digits, numeral, rfl⟩

theorem toList_run (count : UInt64) : (run count).toList = List.replicate count.toNat 'x' :=
  String.toList_ofList

theorem recognises_counted : parser.Recognises fun count mid _ => WrittenAs count mid := by
  have stages := recognises_number.bind fun count => Recognises.exactly_bind ":" <|
    Recognises.exactly_bind (run count) <| recognises_pure count
  apply stages.congr
  intro count mid after
  constructor
  · intro taken
    obtain ⟨announced, digits, behindDigits, rfl, ⟨numeral, -⟩, taken⟩ := taken
    obtain ⟨letters, rfl, taken⟩ := taken
    obtain ⟨_, rfl, rfl, rfl⟩ := taken
    refine ⟨digits, numeral, ?_⟩
    rw [toList_run, List.append_nil]
    rfl
  · intro written
    obtain ⟨digits, numeral, rfl⟩ := written
    have colon : Stops Char.isDigit (':' :: List.replicate count.toNat 'x' ++ after) := rfl
    refine ⟨count, digits, _, rfl, ⟨numeral, colon⟩, ?_⟩
    refine ⟨List.replicate count.toNat 'x', rfl, ?_⟩
    refine ⟨[], ?_, rfl, rfl⟩
    rw [toList_run, List.append_nil]

/-- A whole text is read as a count when it is one in the format, and only then. From any place, a
count is read when no fewer letters follow than it announces; the others are left over, and where
none can be read, all of the text is. -/
theorem counts_of_texts :
    (∀ text count, parser.run text = some count ↔ WrittenAs count text.toList) ∧
    (∀ text start count left, parser.runFrom text start = (some count, left) ↔
      ∃ behind, Announces count (text.toList.drop start) behind ∧
        count.toNat ≤ (behind.takeWhile (· == 'x')).length ∧
        left.toList = behind.drop count.toNat) ∧
    ∀ text start, (¬ ∃ count behind, Announces count (text.toList.drop start) behind ∧
        count.toNat ≤ (behind.takeWhile (· == 'x')).length) →
      parser.runFrom text start = (none, String.ofList (text.toList.drop start)) := by
  refine ⟨fun text count => recognises_counted.run_iff, ?_, ?_⟩
  · intro text start count left
    rw [← exists_writtenAs_iff]
    apply recognises_counted.runFrom_eq_some_iff
    intro count
    exact not_announces_nil count _
  · intro text start none
    apply recognises_counted.runFrom_eq_none
    intro count mid after cut written
    obtain ⟨behind, announced, enough, -⟩ := exists_writtenAs_iff.1 ⟨mid, cut, written⟩
    exact none ⟨count, behind, announced, enough⟩

theorem counts_of_texts_letters :
    Announces 2 "002:xxx".toList "xxx".toList ∧
      parser.runFrom "é002:xxx" 1 = (some 2, "x") ∧ parser.run "002:xxx" = none ∧
      parser.runFrom "é4:xxx" 1 = (none, "4:xxx") := by
  have two : Announces 2 "002:xxx".toList "xxx".toList :=
    ⟨"002".toList, ⟨by decide, List.all_eq_true.1 (by decide), by decide⟩, rfl⟩
  have four : Announces 4 "4:xxx".toList "xxx".toList :=
    ⟨"4".toList, ⟨by decide, List.all_eq_true.1 (by decide), by decide⟩, rfl⟩
  obtain ⟨whole, parts, none⟩ := counts_of_texts
  -- one letter is left over of the first text, and one is missing in the second
  refine ⟨two, (parts _ _ _ _).2 ⟨_, two, by decide, rfl⟩, ?_, none _ _ ?_⟩
  · rw [Option.eq_none_iff_forall_ne_some]
    intro count found
    obtain ⟨rfl, letters⟩ := two.inj ((whole _ _).1 found)
    simp at letters
  · rintro ⟨count, behind, announced, enough⟩
    obtain ⟨rfl, rfl⟩ := four.inj announced
    simp at enough

end Format.Counted
end TextGrammar

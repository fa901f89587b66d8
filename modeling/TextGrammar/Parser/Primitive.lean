import TextGrammar.Parser
import TextGrammar.Text.Blank
import TextGrammar.Text.Decimal

/-! The parsers that look at the text themselves. Each one walks the cursor over whole scalars, and
what it gives is cut from the text it walked over. -/
namespace TextGrammar.Parser

def scalar : Parser Char :=
  ⟨fun c => c.scalar?.map fun x => (x, c.next)⟩

def exactly (text : String) : Parser Unit :=
  ⟨fun c =>
    if c.rest.startsWith text then (c.advance? text.length).map fun e => ((), e) else none⟩

def blanks : Parser Unit :=
  ⟨fun c => some ((), c.advanceWhile fun d => d.scalar?.any Text.isBlank)⟩

/-- The longest run of ASCII digits, which has to be a number of 64 bits. -/
def number : Parser UInt64 :=
  ⟨fun c => do
    let e := c.advanceWhile fun d => d.scalar?.any Char.isDigit
    if e.position = c.position then none
    let n ← Text.decimal? (← c.textTo? e).toList
    return (n, e)⟩

/-- The text before the first place where `delimiter` matches, or all of it. The delimiter is
only tested, and never at the end of the text. -/
def textUntil (delimiter : Parser α) : Parser String :=
  ⟨fun c => do
    let e := c.advanceWhile fun d => (delimiter.parse d).isNone
    return (← c.textTo? e, e)⟩

open Cursor (between)

@[simp] theorem parse_scalar_cons (before : List Char) (x : Char) (ahead : List Char) :
    scalar.parse (between before (x :: ahead)) = some (x, between (before ++ [x]) ahead) := by
  simp [scalar]

@[simp] theorem parse_scalar_nil (before : List Char) :
    scalar.parse (between before []) = none := by
  simp [scalar]

theorem parse_exactly (text : String) (before ahead : List Char) :
    (exactly text).parse (between before ahead) =
      if text.toList <+: ahead then
        some ((), between (before ++ text.toList) (ahead.drop text.length)) else none := by
  rw [exactly]
  simp only [Cursor.rest_between, String.startsWith_string_iff, String.toList_ofList]
  split
  case isTrue found =>
    obtain ⟨after, rfl⟩ := found
    rw [← String.length_toList, Cursor.advance?_between_append]
    simp
  case isFalse => rfl

@[simp] theorem parse_exactly_append (text : String) (before after : List Char) :
    (exactly text).parse (between before (text.toList ++ after)) =
      some ((), between (before ++ text.toList) after) := by
  simp [parse_exactly, ← String.length_toList]

@[simp] theorem parse_blanks (before ahead : List Char) :
    blanks.parse (between before ahead) =
      some ((), between (before ++ ahead.takeWhile Text.isBlank)
        (ahead.dropWhile Text.isBlank)) := by
  simp [blanks]

theorem parse_number (before ahead : List Char) :
    number.parse (between before ahead) =
      if ahead.takeWhile Char.isDigit = [] then none
      else (Text.decimal? (ahead.takeWhile Char.isDigit)).map fun n =>
        (n, between (before ++ ahead.takeWhile Char.isDigit) (ahead.dropWhile Char.isDigit)) := by
  have text := Cursor.textTo?_between before (ahead.takeWhile Char.isDigit)
    (ahead.dropWhile Char.isDigit)
  rw [List.takeWhile_append_dropWhile] at text
  simp only [number, Cursor.advanceWhile_scalar, text, Cursor.position_between]
  by_cases none : ahead.takeWhile Char.isDigit = []
  · simp [none]
  · cases h : Text.decimal? (ahead.takeWhile Char.isDigit) <;> simp [none, h]

theorem exists_parse_textUntil (delimiter : Parser α) (before ahead : List Char) :
    ∃ mid after, ahead = mid ++ after ∧
      (textUntil delimiter).parse (between before ahead) =
        some (String.ofList mid, between (before ++ mid) after) ∧
      (∀ xs y ys, mid = xs ++ y :: ys →
        delimiter.parse (between (before ++ xs) (y :: ys ++ after)) = none) ∧
      (after ≠ [] → (delimiter.parse (between (before ++ mid) after)).isSome) := by
  obtain ⟨mid, after, rfl, stop, passed, refused⟩ :=
    Cursor.exists_advanceWhile (fun d => (delimiter.parse d).isNone) before ahead
  refine ⟨mid, after, rfl, ?_, by simpa using passed, fun more => ?_⟩
  · simp [textUntil, stop]
  · simpa [Option.isSome_iff_ne_none] using refused more

@[simp] theorem parse_textUntil_nil (delimiter : Parser α) (before : List Char) :
    (textUntil delimiter).parse (between before []) = some ("", between before []) := by
  simp [textUntil]

theorem parse_textUntil_of_match {delimiter : Parser α} {before ahead : List Char} {r : α × Cursor}
    (h : delimiter.parse (between before ahead) = some r) :
    (textUntil delimiter).parse (between before ahead) = some ("", between before ahead) := by
  cases ahead with
  | nil => simp
  | cons x xs => simp [textUntil, Cursor.advanceWhile_cons, h]

theorem parse_textUntil_of_no_match {delimiter : Parser α} {before : List Char} {x : Char}
    {ahead : List Char} (h : delimiter.parse (between before (x :: ahead)) = none) :
    (textUntil delimiter).parse (between before (x :: ahead)) =
      ((textUntil delimiter).parse (between (before ++ [x]) ahead)).map fun (text, e) =>
        (String.singleton x ++ text, e) := by
  obtain ⟨mid, after, rfl, stop, -⟩ := Cursor.exists_advanceWhile
    (fun d => (delimiter.parse d).isNone) (before ++ [x]) ahead
  have whole := Cursor.textTo?_between before (x :: mid) after
  rw [List.append_cons, List.cons_append, String.ofList_cons] at whole
  simp [textUntil, Cursor.advanceWhile_cons, h, stop, whole, -List.append_assoc]

end TextGrammar.Parser

import Mathlib.Data.List.TakeWhile
import TextGrammar.Proofs.Consumption

/-! What a parser accepts, as a language. A language says which part of a text stands for a value;
it may ask what follows that part, since a run of digits or of white space ends only where the next
scalar is of another kind. Sequences of parsers have sequences of languages. -/
namespace TextGrammar
open Cursor (between)

/-- No scalar with `p` comes next, so a run of them ends here. -/
def Text.Stops (p : Char → Bool) (after : List Char) : Prop :=
  after.head?.any p = false

namespace Text
variable {p : Char → Bool} {x : Char} {mid mid' after after' : List Char}

@[simp] theorem stops_nil : Stops p [] := rfl

@[simp] theorem stops_cons : Stops p (x :: after) ↔ p x = false := Iff.rfl

theorem stops_dropWhile (p : Char → Bool) (ahead : List Char) : Stops p (ahead.dropWhile p) := by
  induction ahead with
  | nil => rfl
  | cons x xs ih =>
    by_cases h : p x
    · rw [List.dropWhile_cons_of_pos h]
      exact ih
    · rw [List.dropWhile_cons_of_neg h, stops_cons]
      exact Bool.eq_false_iff.2 h

theorem Stops.append (h : Stops p after) (hmid : ∀ x ∈ mid, p x = false) :
    Stops p (mid ++ after) := by
  cases mid with
  | nil => exact h
  | cons x xs => exact hmid x List.mem_cons_self

theorem stops_append_iff (h : Stops p after) : Stops p (mid ++ after) ↔ Stops p mid := by
  cases mid with
  | nil => exact iff_of_true h stops_nil
  | cons x xs => exact Iff.rfl

theorem takeWhile_append_of_stops (hmid : ∀ x ∈ mid, p x) (h : Stops p after) :
    (mid ++ after).takeWhile p = mid := by
  rw [List.takeWhile_append_of_pos hmid]
  cases after with
  | nil => simp
  | cons x xs => simp [stops_cons.1 h]

theorem dropWhile_append_of_stops (hmid : ∀ x ∈ mid, p x) (h : Stops p after) :
    (mid ++ after).dropWhile p = after := by
  rw [List.dropWhile_append_of_pos hmid]
  cases after with
  | nil => rfl
  | cons x xs => simp [stops_cons.1 h]

theorem exists_run (p : Char → Bool) (ahead : List Char) :
    ∃ mid after, ahead = mid ++ after ∧ (∀ x ∈ mid, p x) ∧ Stops p after :=
  ⟨_, _, List.takeWhile_append_dropWhile.symm, fun _ => List.mem_takeWhile_imp,
    stops_dropWhile p ahead⟩

theorem run_inj (hmid : ∀ x ∈ mid, p x) (h : Stops p after) (hmid' : ∀ x ∈ mid', p x)
    (h' : Stops p after') (same : mid ++ after = mid' ++ after') : mid = mid' ∧ after = after' := by
  constructor
  · rw [← takeWhile_append_of_stops hmid h, same, takeWhile_append_of_stops hmid' h']
  · rw [← dropWhile_append_of_stops hmid h, same, dropWhile_append_of_stops hmid' h']

theorem prefix_of_stops (hmid : ∀ x ∈ mid, p x) (h : Stops p after) {run : List Char}
    (hrun : ∀ x ∈ run, p x) (ahead : run <+: mid ++ after) : run <+: mid := by
  obtain ⟨more, cut⟩ := ahead
  have longest := takeWhile_append_of_stops hmid h
  rw [← cut, List.takeWhile_append_of_pos hrun] at longest
  rw [← longest]
  exact List.prefix_append _ _

theorem drop_toList_of_lt {text : String} {start : Nat} (past : text.length < start) :
    text.toList.drop start = [] := by
  rw [List.drop_eq_nil_iff, String.length_toList]
  exact Nat.le_of_lt past

/-- ASCII digits that are written for `n`, with or without zeros before it. -/
structure Numeral (n : Nat) (digits : List Char) : Prop where
  ne_nil : digits ≠ []
  isDigit : ∀ x ∈ digits, x.isDigit
  value : Nat.ofDigitChars 10 digits 0 = n

theorem numeral_toDigits (n : Nat) : Numeral n (Nat.toDigits 10 n) where
  ne_nil := Nat.toDigits_ne_nil
  isDigit _ hx := Nat.isDigit_of_mem_toDigits (by decide) (by decide) hx
  value := Nat.ofDigitChars_ten_toDigits

theorem Numeral.stops_isBlank {n : Nat} {digits : List Char} (h : Numeral n digits)
    (after : List Char) : Stops isBlank (digits ++ after) := by
  cases digits with
  | nil => exact absurd rfl h.ne_nil
  | cons x xs => exact not_isBlank_of_isDigit (h.isDigit x List.mem_cons_self)

theorem Numeral.decimal?_eq_some {digits : List Char} {n : UInt64} (h : Numeral n.toNat digits) :
    decimal? digits = some n := by
  rw [decimal?_eq, h.value, if_pos n.toNat_lt_size, UInt64.ofNat_toNat]

theorem numeral_of_decimal? {digits : List Char} {n : UInt64} (some : digits ≠ [])
    (isDigit : ∀ x ∈ digits, x.isDigit) (h : decimal? digits = .some n) :
    Numeral n.toNat digits := by
  rw [decimal?_eq] at h
  split at h
  case isTrue small =>
    cases h
    exact ⟨some, isDigit, (UInt64.toNat_ofNat_of_lt' small).symm⟩
  case isFalse => contradiction

end Text

namespace Parser
open Text (Stops Numeral)

theorem run_eq_some_iff {p : Parser α} {text : String} {a : α} :
    p.run text = some a ↔ ∃ e, p.parse (between [] text.toList) = some (a, e) ∧ e.rest = "" := by
  rw [run_eq_some, runFrom_zero]
  cases p.parse (between [] text.toList) with
  | none => simp
  | some r => simp [Prod.ext_iff, and_assoc]

/-- `p` takes `mid` for `a`, and leaves `after`, when `L a mid after` holds, and only then. -/
def Recognises (p : Parser α) (L : α → List Char → List Char → Prop) : Prop :=
  ∀ before ahead a e, p.parse (between before ahead) = some (a, e) ↔
    ∃ mid after, ahead = mid ++ after ∧ e = between (before ++ mid) after ∧ L a mid after

namespace Recognises
variable {p : Parser α} {L M : α → List Char → List Char → Prop}

theorem parse_eq (h : p.Recognises L) {a : α} {mid after : List Char} (ha : L a mid after)
    (before : List Char) :
    p.parse (between before (mid ++ after)) = some (a, between (before ++ mid) after) :=
  (h _ _ _ _).2 ⟨mid, after, rfl, rfl, ha⟩

theorem parse_eq_none (h : p.Recognises L) {ahead : List Char}
    (none : ∀ a mid after, ahead = mid ++ after → ¬ L a mid after) (before : List Char) :
    p.parse (between before ahead) = .none := by
  rw [Option.eq_none_iff_forall_ne_some]
  rintro ⟨a, e⟩ matched
  obtain ⟨mid, after, cut, -, ha⟩ := (h _ _ _ _).1 matched
  exact none a mid after cut ha

theorem congr (h : p.Recognises L) (same : ∀ a mid after, L a mid after ↔ M a mid after) :
    p.Recognises M := by
  intro before ahead a e
  rw [h]
  simp only [same]

/-- A sequence takes a part of the text that falls in two: what the second parser takes is the
start of what the first one leaves. -/
theorem bind (h : p.Recognises L) {f : α → Parser β} {N : α → β → List Char → List Char → Prop}
    (hf : ∀ a, (f a).Recognises (N a)) :
    (p >>= f).Recognises fun b mid after =>
      ∃ a mid₁ mid₂, mid = mid₁ ++ mid₂ ∧ L a mid₁ (mid₂ ++ after) ∧ N a b mid₂ after := by
  intro before ahead b e
  rw [parse_bind, Option.bind_eq_some_iff]
  constructor
  · rintro ⟨⟨a, d⟩, first, second⟩
    obtain ⟨mid₁, ahead, rfl, rfl, ha⟩ := (h _ _ _ _).1 first
    obtain ⟨mid₂, after, rfl, rfl, hb⟩ := (hf a _ _ _ _).1 second
    exact ⟨mid₁ ++ mid₂, after, by simp, by simp, a, mid₁, mid₂, rfl, ha, hb⟩
  · rintro ⟨_, after, rfl, rfl, a, mid₁, mid₂, rfl, ha, hb⟩
    rw [List.append_assoc, ← List.append_assoc before]
    exact ⟨_, h.parse_eq ha before, (hf a).parse_eq hb (before ++ mid₁)⟩

theorem run_iff (h : p.Recognises L) {text : String} {a : α} :
    p.run text = some a ↔ L a text.toList [] := by
  rw [run_eq_some_iff]
  constructor
  · rintro ⟨e, matched, left⟩
    obtain ⟨mid, after, cut, rfl, ha⟩ := (h _ _ _ _).1 matched
    rw [Cursor.rest_between, String.ofList_eq_empty_iff] at left
    subst left
    rw [List.append_nil] at cut
    rwa [cut]
  · intro ha
    have found := h.parse_eq ha []
    rw [List.append_nil] at found
    exact ⟨_, found, Cursor.rest_between _ _⟩

theorem runFrom_cases (h : p.Recognises L) {text : String} {start : Nat}
    (le : start ≤ text.length) :
    (∃ a mid after, text.toList.drop start = mid ++ after ∧ L a mid after ∧
      p.runFrom text start = (some a, String.ofList after)) ∨
    (∀ a mid after, text.toList.drop start = mid ++ after → ¬ L a mid after) ∧
      p.runFrom text start = (none, String.ofList (text.toList.drop start)) := by
  obtain ⟨before, ahead, rfl, rfl⟩ := Cursor.exists_split le
  rw [runFrom_length, String.toList_ofList, List.drop_left]
  cases result : p.parse (between before ahead) with
  | some r =>
    left
    obtain ⟨mid, after, cut, stop, ha⟩ := (h _ _ r.1 r.2).1 result
    exact ⟨r.1, mid, after, cut, ha, by simp [stop]⟩
  | none =>
    right
    refine ⟨?_, rfl⟩
    rintro a mid after rfl ha
    rw [h.parse_eq ha before] at result
    contradiction

/-- A run gives just those values and remainders for which a part of the text is in the language. A
language without the empty text has none past the end. -/
theorem runFrom_eq_some_iff (h : p.Recognises L) (empty : ∀ a, ¬ L a [] []) {text : String}
    {start : Nat} {a : α} {left : String} : p.runFrom text start = (some a, left) ↔
      ∃ mid, text.toList.drop start = mid ++ left.toList ∧ L a mid left.toList := by
  by_cases le : start ≤ text.length
  · obtain ⟨before, ahead, rfl, rfl⟩ := Cursor.exists_split le
    rw [runFrom_length, String.toList_ofList, List.drop_left]
    constructor
    · intro found
      cases result : p.parse (between before ahead) with
      | none => simp [result] at found
      | some r =>
        rw [result] at found
        cases found
        obtain ⟨mid, after, rfl, stop, ha⟩ := (h _ _ r.1 r.2).1 result
        rw [stop, Cursor.toList_rest_between]
        exact ⟨mid, rfl, ha⟩
    · rintro ⟨mid, rfl, ha⟩
      rw [h.parse_eq ha before]
      simp
  · have past := Nat.lt_of_not_le le
    rw [runFrom_of_lt p past, Text.drop_toList_of_lt past]
    constructor
    · intro found
      simp at found
    · rintro ⟨mid, cut, ha⟩
      obtain ⟨rfl, left⟩ := List.append_eq_nil_iff.1 cut.symm
      rw [left] at ha
      exact absurd ha (empty a)

theorem runFrom_eq_none (h : p.Recognises L) {text : String} {start : Nat}
    (none : ∀ a mid after, text.toList.drop start = mid ++ after → ¬ L a mid after) :
    p.runFrom text start = (.none, String.ofList (text.toList.drop start)) := by
  by_cases le : start ≤ text.length
  · rcases h.runFrom_cases le with ⟨a, mid, after, cut, ha, -⟩ | ⟨-, refused⟩
    · exact absurd ha (none a mid after cut)
    · exact refused
  · have past := Nat.lt_of_not_le le
    rw [runFrom_of_lt p past, Text.drop_toList_of_lt past]

end Recognises

theorem recognises_pure (a : α) :
    (pure a : Parser α).Recognises fun b mid _ => b = a ∧ mid = [] := by
  intro before ahead b e
  rw [parse_pure]
  constructor
  · intro matched
    cases matched
    exact ⟨[], ahead, rfl, by simp, rfl, rfl⟩
  · rintro ⟨_, after, rfl, rfl, rfl, rfl⟩
    simp

theorem recognises_guard (accept : Prop) [Decidable accept] :
    (guard accept : Parser Unit).Recognises fun _ mid _ => accept ∧ mid = [] := by
  intro before ahead a e
  rw [parse_guard]
  constructor
  · intro matched
    split at matched
    case isTrue h =>
      cases matched
      exact ⟨[], ahead, rfl, by simp, h, rfl⟩
    case isFalse => contradiction
  · rintro ⟨_, after, rfl, rfl, h, rfl⟩
    simp [h]

theorem recognises_scalar : scalar.Recognises fun x mid _ => mid = [x] := by
  intro before ahead x e
  cases ahead with
  | nil => simp
  | cons y ys =>
    rw [parse_scalar_cons]
    constructor
    · intro matched
      cases matched
      exact ⟨[x], ys, rfl, rfl, rfl⟩
    · rintro ⟨_, after, cut, rfl, rfl⟩
      cases cut
      rfl

theorem recognises_exactly (text : String) :
    (exactly text).Recognises fun _ mid _ => mid = text.toList := by
  intro before ahead a e
  constructor
  · intro matched
    rw [parse_exactly] at matched
    split at matched
    case isTrue found =>
      obtain ⟨after, rfl⟩ := found
      cases matched
      exact ⟨text.toList, after, rfl, by simp [← String.length_toList], rfl⟩
    case isFalse => contradiction
  · rintro ⟨_, after, rfl, rfl, rfl⟩
    exact parse_exactly_append text before after

theorem parse_exactly_cons (text : String) (x : Char) (h : text.toList = [x])
    (before after : List Char) :
    (exactly text).parse (between before (x :: after)) =
      some ((), between (before ++ [x]) after) := by
  have found := parse_exactly_append text before after
  rw [h] at found
  exact found

theorem parse_exactly_of_stops (text : String) (x : Char) (h : text.toList = [x])
    {ahead : List Char} (stops : Stops (· == x) ahead) (before : List Char) :
    (exactly text).parse (between before ahead) = none := by
  apply (recognises_exactly text).parse_eq_none
  rintro _ mid after rfl rfl
  simp [h] at stops

theorem isSome_parse_exactly (text : String) (x : Char) (h : text.toList = [x])
    (before : List Char) (y : Char) (ys : List Char) :
    ((exactly text).parse (between before (y :: ys))).isSome = (y == x) := by
  by_cases same : y = x
  · subst same
    simp [parse_exactly_cons text y h]
  · have stops : Stops (· == x) (y :: ys) := beq_false_of_ne same
    simp [parse_exactly_of_stops text x h stops, same]

theorem recognises_blanks :
    blanks.Recognises fun _ mid after =>
      (∀ x ∈ mid, Text.isBlank x) ∧ Stops Text.isBlank after := by
  intro before ahead a e
  rw [parse_blanks]
  constructor
  · intro matched
    cases matched
    exact ⟨_, _, List.takeWhile_append_dropWhile.symm, rfl, fun x => List.mem_takeWhile_imp,
      Text.stops_dropWhile _ _⟩
  · rintro ⟨mid, after, rfl, rfl, blank, stops⟩
    rw [Text.takeWhile_append_of_stops blank stops, Text.dropWhile_append_of_stops blank stops]

theorem recognises_number :
    number.Recognises fun n mid after => Numeral n.toNat mid ∧ Stops Char.isDigit after := by
  intro before ahead n e
  rw [parse_number]
  constructor
  · intro matched
    split at matched
    case isTrue => contradiction
    case isFalse digits =>
      obtain ⟨m, value, same⟩ := Option.map_eq_some_iff.1 matched
      cases same
      refine ⟨_, _, List.takeWhile_append_dropWhile.symm, rfl, ?_, Text.stops_dropWhile _ _⟩
      exact Text.numeral_of_decimal? digits (fun x => List.mem_takeWhile_imp) value
  · rintro ⟨mid, after, rfl, rfl, numeral, stops⟩
    rw [Text.takeWhile_append_of_stops numeral.isDigit stops,
      Text.dropWhile_append_of_stops numeral.isDigit stops, if_neg numeral.ne_nil,
      numeral.decimal?_eq_some]
    rfl

/-! Parts that say nothing of the value: a mark, white space, a condition, and the last step, which
only puts values together. -/

namespace Recognises
variable {p : Parser α} {L : α → List Char → List Char → Prop}

theorem exactly_bind (text : String) (h : p.Recognises L) :
    (exactly text >>= fun _ => p).Recognises fun a mid after =>
      ∃ behind, mid = text.toList ++ behind ∧ L a behind after := by
  apply ((recognises_exactly text).bind fun _ => h).congr
  intro a mid after
  constructor
  · intro taken
    obtain ⟨_, _, behind, rfl, rfl, ha⟩ := taken
    exact ⟨behind, rfl, ha⟩
  · intro taken
    obtain ⟨behind, rfl, ha⟩ := taken
    exact ⟨(), text.toList, behind, rfl, rfl, ha⟩

theorem blanks_bind (h : p.Recognises L) :
    (blanks >>= fun _ => p).Recognises fun a mid after =>
      ∃ gap behind, mid = gap ++ behind ∧ (∀ x ∈ gap, Text.isBlank x) ∧
        Stops Text.isBlank (behind ++ after) ∧ L a behind after := by
  apply (recognises_blanks.bind fun _ => h).congr
  intro a mid after
  constructor
  · intro taken
    obtain ⟨_, gap, behind, rfl, ⟨blank, stops⟩, ha⟩ := taken
    exact ⟨gap, behind, rfl, blank, stops, ha⟩
  · intro taken
    obtain ⟨gap, behind, rfl, blank, stops, ha⟩ := taken
    exact ⟨(), gap, behind, rfl, ⟨blank, stops⟩, ha⟩

theorem guard_bind (accept : Prop) [Decidable accept] (h : p.Recognises L) :
    (guard accept >>= fun _ => p).Recognises fun a mid after => accept ∧ L a mid after := by
  apply ((recognises_guard accept).bind fun _ => h).congr
  intro a mid after
  constructor
  · intro taken
    obtain ⟨_, _, behind, rfl, ⟨accepted, rfl⟩, ha⟩ := taken
    exact ⟨accepted, ha⟩
  · intro taken
    obtain ⟨accepted, ha⟩ := taken
    exact ⟨(), [], mid, rfl, ⟨accepted, rfl⟩, ha⟩

theorem bind_pure (h : p.Recognises L) (f : α → β) :
    (p >>= fun a => pure (f a)).Recognises fun b mid after => ∃ a, b = f a ∧ L a mid after := by
  apply (h.bind fun a => recognises_pure (f a)).congr
  intro b mid after
  constructor
  · intro taken
    obtain ⟨a, mid, _, rfl, ha, rfl, rfl⟩ := taken
    rw [List.append_nil]
    exact ⟨a, rfl, ha⟩
  · intro taken
    obtain ⟨a, rfl, ha⟩ := taken
    exact ⟨a, mid, [], (List.append_nil mid).symm, ha, rfl, rfl⟩

end Recognises

theorem recognises_textUntil {delimiter : Parser α} {p : Char → Bool}
    (h : ∀ before x xs, (delimiter.parse (between before (x :: xs))).isSome = p x) :
    (textUntil delimiter).Recognises fun text mid after =>
      text = String.ofList mid ∧ (∀ x ∈ mid, !p x) ∧ Stops (!p ·) after := by
  intro before ahead text e
  obtain ⟨mid, after, rfl, found, passed, stop⟩ := exists_parse_textUntil delimiter before ahead
  have others : ∀ x ∈ mid, !p x := by
    intro x hx
    obtain ⟨xs, ys, rfl⟩ := List.append_of_mem hx
    rw [← h (before ++ xs) x (ys ++ after), ← List.cons_append, passed xs x ys rfl]
    rfl
  have stops : Stops (!p ·) after := by
    cases after with
    | nil => rfl
    | cons x xs =>
      rw [h] at stop
      simp [stop]
  rw [found]
  constructor
  · intro matched
    cases matched
    exact ⟨mid, after, rfl, rfl, rfl, others, stops⟩
  · rintro ⟨mid', after', same, rfl, rfl, others', stops'⟩
    obtain ⟨rfl, rfl⟩ := Text.run_inj others stops others' stops' same
    rfl

end Parser
end TextGrammar

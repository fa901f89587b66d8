import TextGrammar.Proofs.Reachability

/-! The text between two cursors. It is cut out by bytes and talked about in scalars. The cursors of
one text stand in the same order by both counts, so the cut is refused for a later cursor and an
earlier one, and for no others; it never goes through a scalar, and cuts that meet fit together. -/
namespace TextGrammar

/-- The text from one byte to another; refused unless both stand between scalars, the first of them
not behind the last. -/
def Text.slice? (text : String) (first last : Nat) : Option String :=
  if first ≤ last ∧ String.Pos.Raw.IsValid text ⟨first⟩ ∧ String.Pos.Raw.IsValid text ⟨last⟩ then
    some (String.Pos.Raw.extract text ⟨first⟩ ⟨last⟩)
  else none

namespace Cursor
variable {a b c : Cursor} {text : String}

section
variable (ha : a.Placed) (hb : b.Placed) (same : b.source = a.source)
include ha hb same

theorem exists_span (le : a.position ≤ b.position) :
    ∃ before mid after, a = between before (mid ++ after) ∧ b = between (before ++ mid) after := by
  obtain ⟨before, ahead, rfl⟩ := ha
  obtain ⟨mid, after, rfl, rfl⟩ := exists_of_precedes ⟨hb, same, le⟩
  exact ⟨before, mid, after, rfl, rfl⟩

theorem offset_lt_of_position_lt (lt : a.position < b.position) : a.offset < b.offset := by
  obtain ⟨before, mid, after, rfl, rfl⟩ := exists_span ha hb same (Nat.le_of_lt lt)
  rw [position_between, position_between, List.length_append] at lt
  have := Text.length_le_byteSize mid
  rw [offset_between, offset_between, Text.byteSize_append]
  omega

theorem position_le_iff_offset_le : a.position ≤ b.position ↔ a.offset ≤ b.offset := by
  constructor
  · intro le
    obtain ⟨before, mid, after, rfl, rfl⟩ := exists_span ha hb same le
    rw [offset_between, offset_between, Text.byteSize_append]
    omega
  · intro le
    apply Nat.le_of_not_lt
    intro lt
    have := offset_lt_of_position_lt hb ha same.symm lt
    omega

theorem isSome_textTo?_iff : (a.textTo? b).isSome ↔ a.position ≤ b.position := by
  rw [position_le_iff_offset_le ha hb same, textTo?, Option.isSome_ite]

theorem textTo?_eq_slice? : a.textTo? b = Text.slice? a.source a.offset b.offset := by
  have first := isValid_offset ha
  have last := isValid_offset hb
  rw [same] at last
  simp only [textTo?, Text.slice?, first, last, and_true]

theorem span_of_textTo? (h : a.textTo? b = some text) : ∃ before after,
    a = between before (text.toList ++ after) ∧ b = between (before ++ text.toList) after := by
  have le := (isSome_textTo?_iff ha hb same).1 (Option.isSome_of_eq_some h)
  obtain ⟨before, mid, after, rfl, rfl⟩ := exists_span ha hb same le
  rw [textTo?_between, Option.some_inj] at h
  subst h
  rw [String.toList_ofList]
  exact ⟨before, after, rfl, rfl⟩

theorem append_rest_of_textTo? (h : a.textTo? b = some text) : text ++ b.rest = a.rest := by
  obtain ⟨before, after, rfl, rfl⟩ := span_of_textTo? ha hb same h
  rw [rest_between, rest_between, String.ofList_append, String.ofList_toList]

theorem length_of_textTo? (h : a.textTo? b = some text) :
    text.length = b.position - a.position := by
  obtain ⟨before, after, rfl, rfl⟩ := span_of_textTo? ha hb same h
  rw [position_between, position_between, List.length_append, String.length_toList]
  omega

theorem eq_empty_iff_of_textTo? (h : a.textTo? b = some text) : text = "" ↔ a = b := by
  obtain ⟨before, after, rfl, rfl⟩ := span_of_textTo? ha hb same h
  simp [between_inj]

theorem textTo?_append (hc : c.Placed) (same' : c.source = b.source) {text' : String}
    (h : a.textTo? b = some text) (h' : b.textTo? c = some text') :
    a.textTo? c = some (text ++ text') := by
  obtain ⟨before, after, rfl, rfl⟩ := span_of_textTo? ha hb same h
  obtain ⟨before', after', cut, rfl⟩ := span_of_textTo? hb hc same' h'
  obtain ⟨rfl, rfl⟩ := between_inj.1 cut
  have whole := textTo?_between before (text.toList ++ text'.toList) after'
  rw [List.append_assoc, ← List.append_assoc before] at whole
  rw [whole, String.ofList_append, String.ofList_toList, String.ofList_toList]

end

/-- Of cursors in one text, the earlier by scalars is the earlier by bytes. There is a text from one
to another when the first is not behind the second, and then it is no other than the bytes between
them, it is what the first has ahead up to the second, and it has as many scalars as their positions
are apart; and the texts between three cursors in order go together. -/
theorem spans_of_text (ha : a.Reachable) (hb : b.Reachable) (hc : c.Reachable)
    (hab : b.source = a.source) (hbc : c.source = b.source) :
    (a.position ≤ b.position ↔ a.offset ≤ b.offset) ∧
    a.textTo? b = Text.slice? a.source a.offset b.offset ∧
    ((a.textTo? b).isSome ↔ a.position ≤ b.position) ∧
    (∀ text, a.textTo? b = some text → text ++ b.rest = a.rest ∧
      text.length = b.position - a.position ∧ (text = "" ↔ a = b)) ∧
    (a.position ≤ b.position → b.position ≤ c.position → ∃ text text',
      a.textTo? b = some text ∧ b.textTo? c = some text' ∧ a.textTo? c = some (text ++ text')) := by
  have ha := reachable_iff_placed.1 ha
  have hb := reachable_iff_placed.1 hb
  have hc := reachable_iff_placed.1 hc
  refine ⟨position_le_iff_offset_le ha hb hab, textTo?_eq_slice? ha hb hab,
    isSome_textTo?_iff ha hb hab, ?_, ?_⟩
  · intro text h
    exact ⟨append_rest_of_textTo? ha hb hab h, length_of_textTo? ha hb hab h,
      eq_empty_iff_of_textTo? ha hb hab h⟩
  · intro first second
    rw [← isSome_textTo?_iff ha hb hab] at first
    rw [← isSome_textTo?_iff hb hc hbc] at second
    obtain ⟨text, h⟩ := Option.isSome_iff_exists.1 first
    obtain ⟨text', h'⟩ := Option.isSome_iff_exists.1 second
    exact ⟨text, text', h, h', textTo?_append ha hb hab hc hbc h h'⟩

theorem spans_of_text_wide :
    let a := between ['é'] "🦀x".toList
    let b := between ['é', '🦀'] ['x']
    let c := between ['é', '🦀', 'x'] []
    a.Reachable ∧ b.Reachable ∧ c.Reachable ∧ b.source = a.source ∧ c.source = b.source ∧
      b.textTo? a = none ∧ Text.slice? "é🦀x" 2 6 = some "🦀" ∧ Text.slice? "é🦀x" 2 5 = none ∧
      a.textTo? b = some "🦀" ∧ a.textTo? c = some ("🦀" ++ "x") := by
  intro a b c
  have ha : a.Reachable := reachable_between _ _
  have hb : b.Reachable := reachable_between _ _
  have hc : c.Reachable := reachable_between _ _
  have hab : b.source = a.source := rfl
  have hbc : c.source = b.source := rfl
  obtain ⟨-, bytes, -, -, joined⟩ := spans_of_text ha hb hc hab hbc
  obtain ⟨-, -, back, -, -⟩ := spans_of_text hb ha hc hab.symm rfl
  obtain ⟨text, text', h, h', whole⟩ := joined (by decide) (by decide)
  have first : a.textTo? b = some "🦀" := by decide +kernel
  have second : b.textTo? c = some "x" := by decide +kernel
  obtain rfl := Option.some.inj (h.symm.trans first)
  obtain rfl := Option.some.inj (h'.symm.trans second)
  refine ⟨ha, hb, hc, hab, hbc, ?_, ?_, by decide +kernel, first, whole⟩
  · rw [← Option.not_isSome_iff_eq_none, back]
    decide
  · rw [← first, bytes]
    rfl

end Cursor
end TextGrammar

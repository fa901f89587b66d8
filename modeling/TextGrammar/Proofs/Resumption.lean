import TextGrammar.Proofs.Delimiters
import TextGrammar.Proofs.Spans

/-! Delimited texts from several places and with several delimiters. Where a delimited text ends is
the first place, from where it is read on, at which the delimiter matches; nothing else about the
start has a part in it. So the nearest of two delimiters ends a text that either may end, and a text
that is read on from somewhere within it ends where it ended before. -/
namespace TextGrammar.Parser
open Cursor (between next)

namespace FirstMet
variable {d d₁ d₂ : Parser α} {c e : Cursor} {m n k : Nat} {text : String}

theorem orElse (h₁ : d₁.FirstMet c m) (h₂ : d₂.FirstMet c n) :
    (d₁ <|> d₂).FirstMet c (min m n) where
  passed j lt := by
    obtain ⟨more, refused₁⟩ := h₁.passed j (by omega)
    obtain ⟨-, refused₂⟩ := h₂.passed j (by omega)
    refine ⟨more, ?_⟩
    rw [parse_orElse, refused₁, refused₂, Option.or_none]
  met more := by
    rw [parse_orElse, Option.isSome_or, Bool.or_eq_true]
    rcases Nat.le_total m n with le | le
    · rw [Nat.min_eq_left le] at more ⊢
      exact .inl (h₁.met more)
    · rw [Nat.min_eq_right le] at more ⊢
      exact .inr (h₂.met more)

theorem resume (h : d.FirstMet c (k + n)) : d.FirstMet (next^[k] c) n where
  passed j lt := by
    rw [← Function.iterate_add_apply]
    exact h.passed (j + k) (by omega)
  met more := by
    rw [← Function.iterate_add_apply, Nat.add_comm] at more ⊢
    exact h.met more

theorem parse_eq (h : d.FirstMet c n) (hc : c.Placed) (moved : c.advance? n = some e)
    (passed : c.textTo? e = some text) : (textUntil d).parse c = some (text, e) := by
  obtain ⟨before, ahead, rfl⟩ := hc
  have le : n ≤ (between before ahead).rest.length := by
    rw [← Cursor.isSome_advance?_iff (Cursor.placed_between _ _), moved, Option.isSome_some]
  obtain ⟨mid, after, rfl, rfl⟩ : ∃ mid after, ahead = mid ++ after ∧ n = mid.length := by
    refine ⟨ahead.take n, ahead.drop n, (List.take_append_drop n ahead).symm, ?_⟩
    rw [Cursor.rest_between, String.length_ofList] at le
    rw [List.length_take, Nat.min_eq_left le]
  rw [Cursor.advance?_between_append, Option.some_inj] at moved
  subst moved
  rw [Cursor.textTo?_between, Option.some_inj] at passed
  rw [h.parse_textUntil, passed]

end FirstMet

section
variable {d : Parser α} {c m e : Cursor} {text : String} (hc : c.Placed)
include hc

theorem exists_met (d : Parser α) : ∃ n text e, d.FirstMet c n ∧ c.advance? n = some e ∧
    c.textTo? e = some text := by
  obtain ⟨before, ahead, rfl⟩ := hc
  obtain ⟨mid, after, rfl, met⟩ := exists_firstMet d before ahead
  exact ⟨_, _, _, met, Cursor.advance?_between_append before mid after,
    Cursor.textTo?_between before mid after⟩

theorem parse_textUntil_orElse (d₁ d₂ : Parser α) : ∃ t₁ e₁ t₂ e₂,
    (textUntil d₁).parse c = some (t₁, e₁) ∧ (textUntil d₂).parse c = some (t₂, e₂) ∧
    (textUntil (d₁ <|> d₂)).parse c =
      some (if e₁.position ≤ e₂.position then (t₁, e₁) else (t₂, e₂)) := by
  obtain ⟨m, t₁, e₁, met₁, moved₁, passed₁⟩ := exists_met hc d₁
  obtain ⟨n, t₂, e₂, met₂, moved₂, passed₂⟩ := exists_met hc d₂
  have met := met₁.orElse met₂
  refine ⟨t₁, e₁, t₂, e₂, met₁.parse_eq hc moved₁ passed₁, met₂.parse_eq hc moved₂ passed₂, ?_⟩
  rw [Cursor.position_of_advance? hc moved₁, Cursor.position_of_advance? hc moved₂]
  simp only [Nat.add_le_add_iff_left]
  split
  case isTrue le =>
    rw [Nat.min_eq_left le] at met
    exact met.parse_eq hc moved₁ passed₁
  case isFalse gt =>
    rw [Nat.min_eq_right (Nat.le_of_not_le gt)] at met
    exact met.parse_eq hc moved₂ passed₂

theorem exists_parse_textUntil_again (d : Parser α) : ∃ text e,
    (textUntil d).parse c = some (text, e) ∧ (textUntil d).parse e = some ("", e) := by
  obtain ⟨n, text, e, met, moved, passed⟩ := exists_met hc d
  obtain rfl := Cursor.eq_iterate_of_advance? moved
  have placed := (Cursor.placed_of_advance? hc moved).1
  have here : d.FirstMet (next^[n] c) 0 := met.resume
  refine ⟨text, _, met.parse_eq hc moved passed, here.parse_eq placed rfl ?_⟩
  obtain ⟨before, ahead, same⟩ := placed
  rw [same, Cursor.textTo?_self]

theorem parse_textUntil_within (hm : m.Placed) (same : m.source = c.source)
    (found : (textUntil d).parse c = some (text, e)) (le : c.position ≤ m.position)
    (le' : m.position ≤ e.position) : ∃ front back, c.textTo? m = some front ∧
      (textUntil d).parse m = some (back, e) ∧ front ++ back = text := by
  obtain ⟨before, ahead, rfl⟩ := hc
  obtain ⟨mid, after, rfl, met⟩ := exists_firstMet d before ahead
  rw [met.parse_textUntil] at found
  cases found
  obtain ⟨front, left, cut, rfl⟩ := Cursor.exists_of_precedes ⟨hm, same, le⟩
  rw [Cursor.position_between, Cursor.position_between, List.length_append, List.length_append,
    Nat.add_le_add_iff_left] at le'
  -- `m` parts the text that was read, and what follows that text is left of it
  obtain ⟨back, rfl⟩ : front <+: mid :=
    List.prefix_of_prefix_length_le ⟨left, cut.symm⟩ ⟨after, rfl⟩ le'
  rw [List.append_assoc] at cut met ⊢
  obtain rfl := List.append_cancel_left cut
  rw [List.length_append] at met
  have later := met.resume
  rw [Cursor.iterate_next] at later
  refine ⟨_, _, Cursor.textTo?_between before front _, ?_, String.ofList_append.symm⟩
  rw [later.parse_textUntil, List.append_assoc]

end

/-- A text up to either of two delimiters ends where the nearer one ends it. And a delimited text,
read on from anywhere between its two ends, ends where it ended before: what was passed and what is
read there go together to the whole text. At its end, nothing is left to read. -/
theorem textUntil_nearest_resumed (d₁ d₂ : Parser α) (d : Parser β) {c : Cursor}
    (hc : c.Reachable) :
    (∃ t₁ e₁ t₂ e₂ t e, (textUntil d₁).parse c = some (t₁, e₁) ∧
      (textUntil d₂).parse c = some (t₂, e₂) ∧ (textUntil (d₁ <|> d₂)).parse c = some (t, e) ∧
      e.position = min e₁.position e₂.position ∧ ((t, e) = (t₁, e₁) ∨ (t, e) = (t₂, e₂))) ∧
    ∃ text e, (textUntil d).parse c = some (text, e) ∧
      (∀ m : Cursor, m.Reachable → m.source = c.source → c.position ≤ m.position →
        m.position ≤ e.position → ∃ front back, c.textTo? m = some front ∧
          (textUntil d).parse m = some (back, e) ∧ front ++ back = text) ∧
      (textUntil d).parse e = some ("", e) := by
  have hc := Cursor.reachable_iff_placed.1 hc
  constructor
  · obtain ⟨t₁, e₁, t₂, e₂, parse₁, parse₂, either⟩ := parse_textUntil_orElse hc d₁ d₂
    by_cases le : e₁.position ≤ e₂.position
    · rw [if_pos le] at either
      exact ⟨_, _, _, _, _, _, parse₁, parse₂, either, (Nat.min_eq_left le).symm, .inl rfl⟩
    · rw [if_neg le] at either
      exact ⟨_, _, _, _, _, _, parse₁, parse₂, either,
        (Nat.min_eq_right (Nat.le_of_not_le le)).symm, .inr rfl⟩
  · obtain ⟨text, e, found, again⟩ := exists_parse_textUntil_again hc d
    refine ⟨text, e, found, ?_, again⟩
    intro m hm same le le'
    exact parse_textUntil_within hc (Cursor.reachable_iff_placed.1 hm) same found le le'

theorem textUntil_nearest_resumed_marks :
    let c := between ['é'] "ab,c;d".toList
    let m := between ['é', 'a'] "b,c;d".toList
    let e := between "éab,c".toList ";d".toList
    c.Reachable ∧ m.Reachable ∧ m.source = c.source ∧ c.position ≤ m.position ∧
      m.position ≤ e.position ∧ (textUntil (exactly ";")).parse c = some ("ab,c", e) ∧
      (textUntil (exactly ";")).parse m = some ("b,c", e) ∧
      (textUntil (exactly ";")).parse e = some ("", e) ∧
      ∃ t near, (textUntil (exactly ";" <|> exactly ",")).parse c = some (t, near) ∧
        near.position = 3 := by
  intro c m e
  have hc : c.Reachable := Cursor.reachable_between _ _
  have hm : m.Reachable := Cursor.reachable_between _ _
  obtain ⟨⟨_, e₁, _, e₂, t, near, parse₁, parse₂, either, position, -⟩, text, stop, found, within,
    again⟩ := textUntil_nearest_resumed (exactly ";") (exactly ",") (exactly ";") hc
  have whole : (textUntil (exactly ";")).parse c = some ("ab,c", e) := by decide +kernel
  have comma : (textUntil (exactly ",")).parse c = some ("ab", c.next.next) := by decide +kernel
  cases found.symm.trans whole
  cases parse₁.symm.trans whole
  cases parse₂.symm.trans comma
  obtain ⟨front, back, passed, later, joined⟩ := within m hm rfl (by decide) (by decide)
  have first : c.textTo? m = some "a" := by decide +kernel
  cases passed.symm.trans first
  have rest : back = "b,c" := by
    rw [← String.append_right_inj "a", joined]
    rfl
  rw [rest] at later
  exact ⟨hc, hm, rfl, by decide, by decide, whole, later, again, t, near, either,
    position.trans (by decide +kernel)⟩

end TextGrammar.Parser

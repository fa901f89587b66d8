import TextGrammar.Proofs.Positions

/-! Where a delimited text ends. The delimiter may be any function: one that reads on from where it
matches, one that reads nothing, one that goes back. It is asked at one cursor after another, and
all that is made of an answer is whether it was a match. -/
namespace TextGrammar.Parser
open Cursor (between next)
variable {delimiter : Parser α} {c : Cursor} {count : Nat}

/-- `delimiter` is met `count` scalars after `c` and at no cursor before, or it is not met at all and
the text ends there. At the end of the text it is not looked for. -/
structure FirstMet (delimiter : Parser α) (c : Cursor) (count : Nat) : Prop where
  passed : ∀ j < count, (next^[j] c).atEnd = false ∧ delimiter.parse (next^[j] c) = none
  met : (next^[count] c).atEnd = false → (delimiter.parse (next^[count] c)).isSome

theorem firstMet_zero : delimiter.FirstMet c 0 ↔
    (c.atEnd = false → (delimiter.parse c).isSome) := by
  constructor
  · intro h
    exact h.met
  · intro h
    exact ⟨nofun, h⟩

theorem firstMet_succ : delimiter.FirstMet c (count + 1) ↔
    c.atEnd = false ∧ delimiter.parse c = none ∧ delimiter.FirstMet c.next count := by
  constructor
  · intro h
    obtain ⟨more, refused⟩ := h.passed 0 (Nat.succ_pos count)
    exact ⟨more, refused, fun j lt => h.passed (j + 1) (Nat.succ_lt_succ lt), h.met⟩
  · rintro ⟨more, refused, later⟩
    refine ⟨fun j lt => ?_, later.met⟩
    cases j with
    | zero => exact ⟨more, refused⟩
    | succ j => exact later.passed j (Nat.lt_of_succ_lt_succ lt)

theorem exists_firstMet (delimiter : Parser α) (before ahead : List Char) :
    ∃ mid after, ahead = mid ++ after ∧
      delimiter.FirstMet (between before ahead) mid.length := by
  induction ahead generalizing before with
  | nil =>
    refine ⟨[], [], rfl, firstMet_zero.2 ?_⟩
    simp
  | cons x xs ih =>
    cases h : delimiter.parse (between before (x :: xs)) with
    | some r =>
      refine ⟨[], x :: xs, rfl, firstMet_zero.2 fun _ => ?_⟩
      rw [h, Option.isSome_some]
    | none =>
      obtain ⟨mid, after, rfl, later⟩ := ih (before ++ [x])
      refine ⟨x :: mid, after, rfl, firstMet_succ.2 ⟨?_, h, ?_⟩⟩
      · simp
      · rw [Cursor.next_between_cons]
        exact later

theorem FirstMet.parse_textUntil {before mid after : List Char}
    (h : delimiter.FirstMet (between before (mid ++ after)) mid.length) :
    (textUntil delimiter).parse (between before (mid ++ after)) =
      some (String.ofList mid, between (before ++ mid) after) := by
  induction mid generalizing before with
  | nil =>
    rw [List.append_nil]
    cases after with
    | nil => exact parse_textUntil_nil delimiter before
    | cons x xs =>
      obtain ⟨r, hr⟩ := Option.isSome_iff_exists.1 (firstMet_zero.1 h (by simp))
      exact parse_textUntil_of_match hr
  | cons x xs ih =>
    obtain ⟨-, refused, later⟩ := firstMet_succ.1 h
    rw [List.cons_append] at refused later ⊢
    rw [Cursor.next_between_cons] at later
    rw [parse_textUntil_of_no_match refused, ih later]
    simp [String.ofList_cons]

theorem FirstMet.congr (h : delimiter.FirstMet c count) {other : Parser β}
    (same : ∀ j ≤ count, (next^[j] c).atEnd = false →
      (other.parse (next^[j] c)).isSome = (delimiter.parse (next^[j] c)).isSome) :
    other.FirstMet c count where
  passed j lt := by
    obtain ⟨more, refused⟩ := h.passed j lt
    refine ⟨more, ?_⟩
    rw [← Option.not_isSome_iff_eq_none, same j (Nat.le_of_lt lt) more, refused]
    simp
  met more := by
    rw [same count (Nat.le_refl count) more]
    exact h.met more

structure Delimited (delimiter : Parser α) (c : Cursor) (count : Nat) (text : String) (e : Cursor) :
    Prop where
  reached : e = next^[count] c
  source_eq : e.source = c.source
  position_eq : e.position = c.position + count
  passed : ∀ j < count, (next^[j] c).atEnd = false ∧ delimiter.parse (next^[j] c) = none
  stops : e.atEnd = false ∧ (delimiter.parse e).isSome ∨ e.atEnd = true
  toList_eq : text.toList = c.rest.toList.take count
  append_rest : text ++ e.rest = c.rest
  valid_start : String.Pos.Raw.IsValid c.source ⟨c.offset⟩
  valid_end : String.Pos.Raw.IsValid c.source ⟨e.offset⟩
  span : c.textTo? e = some text
  others : ∀ {β : Type} (other : Parser β), (∀ j ≤ count, (next^[j] c).atEnd = false →
    (other.parse (next^[j] c)).isSome = (delimiter.parse (next^[j] c)).isSome) →
    (textUntil other).parse c = some (text, e)

theorem FirstMet.delimited {before mid after : List Char}
    (h : delimiter.FirstMet (between before (mid ++ after)) mid.length) :
    delimiter.Delimited (between before (mid ++ after)) mid.length (String.ofList mid)
      (between (before ++ mid) after) where
  reached := (Cursor.iterate_next before mid after).symm
  source_eq := by simp
  position_eq := by simp
  passed := h.passed
  stops := by
    cases ended : (between (before ++ mid) after).atEnd with
    | true => exact .inr rfl
    | false =>
      have met := h.met
      rw [Cursor.iterate_next] at met
      exact .inl ⟨rfl, met ended⟩
  toList_eq := by simp
  append_rest := by simp [← String.ofList_append]
  valid_start := Cursor.isValid_offset (Cursor.placed_between _ _)
  valid_end := by
    have source : (between (before ++ mid) after).source =
        (between before (mid ++ after)).source := by simp
    rw [← source]
    exact Cursor.isValid_offset (Cursor.placed_between _ _)
  span := Cursor.textTo?_between before mid after
  others _ same := (h.congr same).parse_textUntil

/-- A delimited text is always read, and ends at the first cursor where the delimiter matches, or
with the whole text, where the delimiter is not asked. It is the text between the two cursors. Any
other delimiter that matches at the same ones of the cursors that are tried gives the same text,
whatever it reads for a value and wherever its matches end. -/
theorem textUntil_first_match (delimiter : Parser α) {c : Cursor} (hc : c.Reachable) :
    ∃ count text e, (textUntil delimiter).parse c = some (text, e) ∧
      delimiter.Delimited c count text e := by
  obtain ⟨before, ahead, rfl⟩ := Cursor.reachable_iff_placed.1 hc
  obtain ⟨mid, after, rfl, met⟩ := exists_firstMet delimiter before ahead
  exact ⟨_, _, _, met.parse_textUntil, met.delimited⟩

theorem textUntil_first_match_back :
    let delimiter : Parser Unit := ⟨fun d => if d.rest.startsWith ";" then some ((), .start d.source)
      else none⟩
    let c := between ['é'] "ab;c".toList
    c.Reachable ∧ (textUntil delimiter).parse c = some ("ab", next^[2] c) ∧
      c.textTo? (next^[2] c) = some "ab" := by
  intro delimiter c
  have hc : c.Reachable := Cursor.reachable_between _ _
  obtain ⟨count, text, e, found, delimited⟩ := textUntil_first_match delimiter hc
  have matched : (textUntil delimiter).parse c = some ("ab", next^[2] c) := by decide +kernel
  cases found.symm.trans matched
  exact ⟨hc, matched, delimited.span⟩

end TextGrammar.Parser

import TextGrammar.Proofs.Compositional

/-! How far a match moves. The primitives end where they started or further on in the same text,
and the combinators add no movement of their own; only a function that stands in a grammar can go
back, and it can be asked not to. -/
namespace TextGrammar

namespace Cursor

/-- `c.Precedes e`: `e` stands in the text of `c`, at `c` or after it. -/
def Precedes (c e : Cursor) : Prop :=
  e.Placed ∧ e.source = c.source ∧ c.position ≤ e.position

theorem placed_between (before ahead : List Char) : (between before ahead).Placed :=
  ⟨before, ahead, rfl⟩

theorem placed_start (source : String) : (start source).Placed :=
  ⟨[], source.toList, start_eq_between source⟩

theorem precedes_between (before mid after : List Char) :
    (between before (mid ++ after)).Precedes (between (before ++ mid) after) := by
  refine ⟨placed_between _ _, ?_, ?_⟩
  · rw [source_between, source_between, List.append_assoc]
  · rw [position_between, position_between, List.length_append]
    omega

theorem exists_of_precedes {before ahead : List Char} {e : Cursor}
    (h : (between before ahead).Precedes e) :
    ∃ mid after, ahead = mid ++ after ∧ e = between (before ++ mid) after := by
  obtain ⟨⟨before', after, rfl⟩, same, le⟩ := h
  simp only [source_between, String.ofList_inj, position_between] at same le
  rcases List.append_eq_append_iff.1 same.symm with ⟨mid, rfl, rfl⟩ | ⟨mid, rfl, rfl⟩
  · exact ⟨mid, after, rfl, rfl⟩
  · -- `mid` lies between a cursor and an earlier one, which is at or after it
    rw [List.length_append] at le
    obtain rfl : mid = [] := List.eq_nil_of_length_eq_zero (by omega)
    exact ⟨[], ahead, by simp, by simp⟩

theorem Precedes.refl {c : Cursor} (hc : c.Placed) : c.Precedes c :=
  ⟨hc, rfl, Nat.le_refl _⟩

theorem Precedes.trans {c d e : Cursor} (hcd : c.Precedes d) (hde : d.Precedes e) :
    c.Precedes e :=
  ⟨hde.1, hde.2.1.trans hcd.2.1, Nat.le_trans hcd.2.2 hde.2.2⟩

theorem Precedes.eq_or_lt {c e : Cursor} (hc : c.Placed) (h : c.Precedes e) :
    e = c ∨ e.rest.length < c.rest.length := by
  obtain ⟨before, ahead, rfl⟩ := hc
  obtain ⟨mid, after, rfl, rfl⟩ := exists_of_precedes h
  cases mid with
  | nil =>
    left
    simp
  | cons x xs =>
    right
    simp
    omega

end Cursor

namespace Parser
open Cursor (between Precedes placed_between precedes_between)

/-- A match ends at a cursor related to the one it started from. -/
def Moves (R : Cursor → Cursor → Prop) (p : Parser α) : Prop :=
  ∀ c, c.Placed → ∀ a e, p.parse c = some (a, e) → R c e

abbrev Forward (p : Parser α) : Prop := p.Moves Precedes

abbrev Stays (p : Parser α) : Prop := p.Moves fun c e => e.Placed ∧ e.source = c.source

section
variable {R S : Cursor → Cursor → Prop}

theorem moves_of_between {p : Parser α}
    (h : ∀ before ahead a e, p.parse (between before ahead) = some (a, e) →
      R (between before ahead) e) : p.Moves R := by
  intro c hc a e hp
  obtain ⟨before, ahead, rfl⟩ := hc
  exact h before ahead a e hp

theorem Moves.mono (hRS : ∀ {c e}, R c e → S c e) {p : Parser α} (h : p.Moves R) :
    p.Moves S := by
  intro c hc a e hp
  apply hRS
  exact h c hc a e hp

theorem moves_fail : (fail : Parser α).Moves R := nofun

theorem moves_map (f : α → β) {p : Parser α} (h : p.Moves R) : (f <$> p).Moves R := by
  intro c hc b e hb
  rw [parse_map, Option.map_eq_some_iff] at hb
  obtain ⟨⟨a, e⟩, ha, same⟩ := hb
  cases same
  exact h c hc a e ha

theorem moves_bind (placed : ∀ {c e}, R c e → e.Placed)
    (trans : ∀ {c d e}, R c d → R d e → R c e) {p : Parser α} {f : α → Parser β}
    (hp : p.Moves R) (hf : ∀ a, (f a).Moves R) : (p >>= f).Moves R := by
  intro c hc b e hb
  rw [parse_bind, Option.bind_eq_some_iff] at hb
  obtain ⟨⟨a, d⟩, ha, hb⟩ := hb
  have first : R c d := hp c hc a d ha
  have second : R d e := hf a d (placed first) b e hb
  exact trans first second

theorem moves_orElse {p q : Parser α} (hp : p.Moves R) (hq : q.Moves R) :
    (p <|> q).Moves R := by
  intro c hc a e h
  rw [parse_orElse, Option.or_eq_some_iff] at h
  rcases h with h | h
  · exact hp c hc a e h
  · exact hq c hc a e h.2

theorem moves_lookahead (refl : ∀ {c : Cursor}, c.Placed → R c c) (p : Parser α) :
    p.lookahead.Moves R := by
  intro c hc a e h
  rw [parse_lookahead, Option.map_eq_some_iff] at h
  obtain ⟨_, -, same⟩ := h
  cases same
  exact refl hc

end

theorem forward_pure (a : α) : (pure a : Parser α).Forward := by
  intro c hc b e h
  cases h
  exact .refl hc

theorem Forward.stays {p : Parser α} (h : p.Forward) : p.Stays :=
  Moves.mono (fun hce => ⟨hce.1, hce.2.1⟩) h

theorem forward_scalar : scalar.Forward := by
  apply moves_of_between
  intro before ahead a e h
  cases ahead with
  | nil => simp at h
  | cons x xs =>
    rw [parse_scalar_cons] at h
    cases h
    exact precedes_between before [a] xs

theorem forward_exactly (text : String) : (exactly text).Forward := by
  apply moves_of_between
  intro before ahead a e h
  rw [parse_exactly] at h
  split at h
  case isTrue found =>
    obtain ⟨after, rfl⟩ := found
    cases h
    simpa [← String.length_toList] using precedes_between before text.toList after
  case isFalse => contradiction

theorem forward_blanks : blanks.Forward := by
  apply moves_of_between
  intro before ahead a e h
  rw [parse_blanks] at h
  cases h
  simpa using precedes_between before (ahead.takeWhile Text.isBlank)
    (ahead.dropWhile Text.isBlank)

theorem forward_number : number.Forward := by
  apply moves_of_between
  intro before ahead a e h
  rw [parse_number] at h
  split at h
  case isTrue => contradiction
  case isFalse =>
    obtain ⟨n, -, hn⟩ := Option.map_eq_some_iff.1 h
    cases hn
    simpa using precedes_between before (ahead.takeWhile Char.isDigit)
      (ahead.dropWhile Char.isDigit)

theorem forward_textUntil (delimiter : Parser α) : (textUntil delimiter).Forward := by
  apply moves_of_between
  intro before ahead a e h
  obtain ⟨mid, after, rfl, found, -⟩ := exists_parse_textUntil delimiter before ahead
  rw [found] at h
  cases h
  exact precedes_between before mid after

theorem compositional_moves {R : Cursor → Cursor → Prop} (placed : ∀ {c e}, R c e → e.Placed)
    (trans : ∀ {c d e}, R c d → R d e → R c e) (forward : ∀ {c e}, c.Precedes e → R c e) :
    Compositional (Moves R) where
  scalar := forward_scalar.mono forward
  exactly text := (forward_exactly text).mono forward
  blanks := forward_blanks.mono forward
  number := forward_number.mono forward
  textUntil _ := (forward_textUntil _).mono forward
  map f _ hp := moves_map f hp
  bind := moves_bind placed trans
  orElse := moves_orElse
  lookahead _ := moves_lookahead (fun hc => forward (.refl hc)) _

theorem compositional_forward : Compositional Forward :=
  compositional_moves And.left Precedes.trans id

theorem compositional_stays : Compositional Stays :=
  compositional_moves And.left (fun hcd hde => ⟨hde.1, hde.2.trans hcd.2⟩)
    fun h => ⟨h.1, h.2.1⟩

end Parser
end TextGrammar

import Mathlib.Data.List.TFAE
import TextGrammar.Format.Recursive
import TextGrammar.Proofs.Movement

/-! Which cursors there are. The two counters of a cursor are kept in step by separate additions;
whatever is done with cursors, and whichever grammars move them, both belong to one cut of the
text. A cursor made up from any other pair of numbers is never seen. -/
namespace TextGrammar

namespace Cursor

/-- Cursors that can be had from a cursor over its text. A match counts when the functions in the
grammar, those with `P`, obtain the cursors that they give in the same ways. -/
inductive Reaches : Cursor → Cursor → Prop where
  | refl (c) : Reaches c c
  | start : Reaches c d → Reaches c (.start d.source)
  | atPosition : Reaches c d → Cursor.atPosition? d.source n = some e → Reaches c e
  | next : Reaches c d → Reaches c d.next
  | advance : Reaches c d → d.advance? n = some e → Reaches c e
  | parse {Rule : Type → Type} {rules : Rules Rule} {α : Type} {g : Grammar Rule α} {a : α}
      {depth : Nat} (P : ∀ {β : Type}, Parser β → Prop)
      (obtained : ∀ {β : Type} {p : Parser β}, P p →
        ∀ c b e, p.parse c = some (b, e) → Reaches c e)
      (hrules : rules.Each P) (hg : g.Each P) :
      Reaches c d → (rules.parserWithin depth g).parse d = some (a, e) → Reaches c e

def Reachable (c : Cursor) : Prop :=
  ∃ source, (start source).Reaches c

theorem placed_of_advance? {c e : Cursor} (hc : c.Placed) {n : Nat} (h : c.advance? n = some e) :
    e.Placed ∧ e.source = c.source := by
  obtain ⟨before, ahead, rfl⟩ := hc
  rw [advance?_between] at h
  split at h
  case isTrue =>
    cases h
    refine ⟨placed_between _ _, ?_⟩
    simp
  case isFalse => contradiction

theorem placed_next {c : Cursor} (hc : c.Placed) : c.next.Placed := by
  obtain ⟨before, ahead, rfl⟩ := hc
  cases ahead with
  | nil =>
    rw [next_between_nil]
    exact placed_between _ _
  | cons x xs =>
    rw [next_between_cons]
    exact placed_between _ _

theorem Reaches.placed {c e : Cursor} (h : c.Reaches e) (hc : c.Placed) :
    e.Placed ∧ e.source = c.source := by
  induction h with
  | refl c => exact ⟨hc, rfl⟩
  | start _ ih => exact ⟨placed_start _, (ih hc).2⟩
  | atPosition _ h ih =>
    have landed := placed_of_advance? (placed_start _) h
    exact ⟨landed.1, landed.2.trans (ih hc).2⟩
  | next _ ih => exact ⟨placed_next (ih hc).1, (source_next _).trans (ih hc).2⟩
  | advance _ h ih =>
    have landed := placed_of_advance? (ih hc).1 h
    exact ⟨landed.1, landed.2.trans (ih hc).2⟩
  | parse P _ hrules hg _ h obtained ih =>
    -- only the functions in the grammar could leave the text, and they have their cursors alike
    have stays : ∀ {β : Type} {p : Parser β}, P p → p.Stays :=
      fun hp d hd b e hb => obtained hp d b e hb hd
    have matched := Parser.compositional_stays.parserWithin Parser.moves_fail
      (hrules.mono stays) (hg.mono stays) _ _ (ih hc).1 _ _ h
    exact ⟨matched.1, matched.2.trans (ih hc).2⟩

/-- Whatever was done to obtain a cursor, it stands between two scalars of its text. -/
theorem reachable_iff_placed {c : Cursor} : c.Reachable ↔ c.Placed := by
  constructor
  · intro h
    obtain ⟨source, h⟩ := h
    exact (h.placed (placed_start source)).1
  · intro h
    obtain ⟨before, ahead, rfl⟩ := h
    refine ⟨String.ofList (before ++ ahead), .advance (n := before.length) (.refl _) ?_⟩
    rw [start_ofList]
    exact advance?_between_append [] before ahead

theorem reachable_between (before ahead : List Char) : (between before ahead).Reachable :=
  reachable_iff_placed.2 (placed_between before ahead)

theorem end_views {c : Cursor} (h : c.Placed) :
    [c.atEnd = true, c.scalar? = none, c.rest = "", c.next = c, c.advance? 1 = none].TFAE := by
  obtain ⟨before, ahead, rfl⟩ := h
  apply List.tfae_of_forall (ahead = [])
  cases ahead with
  | nil => simp [advance?_between]
  | cons x xs => simp [between_inj, advance?_between]

theorem utf8ByteSize_source_between (before ahead : List Char) :
    (between before ahead).source.utf8ByteSize = Text.byteSize before + Text.byteSize ahead :=
  Text.byteSize_append before ahead

theorem isValid_offset {c : Cursor} (h : c.Placed) :
    String.Pos.Raw.IsValid c.source ⟨c.offset⟩ := by
  obtain ⟨before, ahead, rfl⟩ := h
  rw [String.Pos.Raw.isValid_iff_exists_append]
  exact ⟨String.ofList before, String.ofList ahead, String.ofList_append, rfl⟩

theorem bounds_of_scalar {c : Cursor} (h : c.Placed) {x : Char} (hx : c.scalar? = some x) :
    c.offset + x.utf8Size ≤ c.source.utf8ByteSize ∧
      c.position + 1 ≤ c.source.utf8ByteSize := by
  obtain ⟨before, ahead, rfl⟩ := h
  rw [scalar?_between] at hx
  obtain ⟨xs, rfl⟩ := List.head?_eq_some_iff.1 hx
  have := Text.length_le_byteSize before
  have := x.utf8Size_pos
  rw [utf8ByteSize_source_between, Text.byteSize_cons, offset_between, position_between]
  omega

/-- What the two counters of a cursor over `source` have to do with each other and with the text. -/
structure Consistent (c : Cursor) (source : String) : Prop where
  source_eq : c.source = source
  position_le : c.position ≤ source.length
  offset_eq : c.offset = Text.byteSize (source.toList.take c.position)
  position_le_offset : c.position ≤ c.offset
  offset_le : c.offset ≤ source.utf8ByteSize
  room : ∀ x, c.scalar? = some x →
    c.offset + x.utf8Size ≤ source.utf8ByteSize ∧ c.position + 1 ≤ source.utf8ByteSize
  valid : String.Pos.Raw.IsValid source ⟨c.offset⟩
  rest_eq : c.rest = String.ofList (source.toList.drop c.position)
  views : [c.atEnd = true, c.scalar? = none, c.rest = "", c.next = c, c.advance? 1 = none].TFAE

theorem Placed.consistent {c : Cursor} (h : c.Placed) : c.Consistent c.source where
  source_eq := rfl
  position_le := by
    obtain ⟨before, ahead, rfl⟩ := h
    simp
  offset_eq := by
    obtain ⟨before, ahead, rfl⟩ := h
    simp
  position_le_offset := by
    obtain ⟨before, ahead, rfl⟩ := h
    exact Text.length_le_byteSize before
  offset_le := by
    obtain ⟨before, ahead, rfl⟩ := h
    rw [utf8ByteSize_source_between]
    exact Nat.le_add_right _ _
  room _ hx := bounds_of_scalar h hx
  valid := isValid_offset h
  rest_eq := by
    obtain ⟨before, ahead, rfl⟩ := h
    simp
  views := end_views h

/-- The counters of a cursor agree with each other and with its text, and the five ways to ask for
the end of the text give one answer. -/
theorem reaches_consistent {source : String} {c : Cursor} (h : (start source).Reaches c) :
    c.Consistent source := by
  obtain ⟨placed, same⟩ := h.placed (placed_start source)
  obtain rfl : c.source = source := same
  exact placed.consistent

theorem reaches_consistent_back :
    let back : Parser Unit := ⟨fun c => (atPosition? c.source 2).map fun e => ((), e)⟩
    let nest : Grammar Format.Nesting.Rule Unit := .bind (.rule .depth) fun _ => .ofParser back
    let c : Cursor := ⟨"é(())x", 3, 2⟩
    (Format.Nesting.rules.parserWithin 9 nest).parse (start "é(())x").next = some ((), c) ∧
      (start "é(())x").Reaches c ∧ c.Consistent "é(())x" := by
  intro back nest c
  -- both pairs of brackets are read before the step back
  have matched : (Format.Nesting.rules.parserWithin 9 nest).parse (start "é(())x").next =
      some ((), c) := by decide +kernel
  have obtained : ∀ c b e, back.parse c = some (b, e) → c.Reaches e := by
    intro c b e h
    obtain ⟨d, hd, heq⟩ := Option.map_eq_some_iff.1 h
    cases heq
    exact .atPosition (.refl c) hd
  have h : (start "é(())x").Reaches c := by
    refine @Reaches.parse _ (start "é(())x").next _ _ Format.Nesting.rules _ nest () 9
      (fun p => ∀ c b e, p.parse c = some (b, e) → c.Reaches e) (fun hp => hp) ?_
      ⟨trivial, fun _ => obtained⟩ (.next (.refl _)) matched
    rintro α ⟨⟩
    simp only [Format.Nesting.rules, Grammar.each_orElse, Grammar.each_bind, Grammar.each_map,
      Grammar.each_pure, Grammar.Each, implies_true, and_self, true_and]
    intro c b e hp
    cases hp
    exact .refl c
  exact ⟨matched, h, reaches_consistent h⟩

end Cursor
end TextGrammar

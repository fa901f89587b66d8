import TextGrammar.Proofs.Literals

/-! Texts in sequence. Texts that are read one behind the other are read as the one text that they make
up, whichever way the sequence is bracketed; and where one of them breaks off, so does that one. -/
namespace TextGrammar

inductive Bracketing (α : Type) where
  | single (a : α)
  | pair (front back : Bracketing α)

namespace Bracketing

def members : Bracketing α → List α
  | single a => [a]
  | pair front back => front.members ++ back.members

def combine (op : β → β → β) (f : α → β) : Bracketing α → β
  | single a => f a
  | pair front back => op (front.combine op f) (back.combine op f)

end Bracketing

namespace Parser
open Cursor (between atPosition?)

def sequence (texts : Bracketing String) : Parser Unit :=
  texts.combine (fun p q => p >>= fun _ => q) exactly

/-- One of the texts is not found, and those before it are, each where the one before it ends. -/
inductive BreaksOff : List String → Cursor → Prop where
  | here : (exactly text).parse c = none → BreaksOff (text :: texts) c
  | later : (exactly text).parse c = some ((), d) → BreaksOff texts d → BreaksOff (text :: texts) c

variable {texts : List String} {c : Cursor}

theorem parse_exactly_bind_exactly (s t : String) (hc : c.Placed) :
    (exactly s >>= fun _ => exactly t).parse c = (exactly (s ++ t)).parse c := by
  obtain ⟨before, ahead, rfl⟩ := hc
  by_cases found : s.toList <+: ahead
  · -- the second text has to follow where the first one ends
    obtain ⟨after, rfl⟩ := found
    rw [parse_bind_of_match (parse_exactly_append s before after)]
    by_cases found : t.toList <+: after
    · obtain ⟨after, rfl⟩ := found
      have whole := parse_exactly_append (s ++ t) before after
      rw [String.toList_append, List.append_assoc, ← List.append_assoc before] at whole
      rw [parse_exactly_append, whole]
    · have missing : ¬ (s ++ t).toList <+: s.toList ++ after := by
        rw [String.toList_append, List.prefix_append_right_inj]
        exact found
      rw [parse_exactly, parse_exactly, if_neg found, if_neg missing]
  · have missing : ¬ (s ++ t).toList <+: ahead := by
      intro whole
      rw [String.toList_append] at whole
      exact found ((List.prefix_append _ _).trans whole)
    rw [parse_bind, parse_exactly, parse_exactly, if_neg found, if_neg missing, Option.bind_none]

theorem parse_sequence (texts : Bracketing String) (hc : c.Placed) :
    (sequence texts).parse c = (exactly (String.join texts.members)).parse c := by
  -- the cursor is general, since the back part starts where the front part ends
  induction texts generalizing c with
  | single text => simp [sequence, Bracketing.combine, Bracketing.members]
  | pair front back ihfront ihback =>
    rw [Bracketing.members, String.join_append, ← parse_exactly_bind_exactly _ _ hc]
    change (sequence front >>= fun _ => sequence back).parse c = _
    cases first : (exactly (String.join front.members)).parse c with
    | none => rw [parse_bind_of_no_match first, parse_bind_of_no_match ((ihfront hc).trans first)]
    | some r =>
      obtain ⟨⟨⟩, d⟩ := r
      have hd : d.Placed := (forward_exactly _ c hc _ d first).1
      rw [parse_bind_of_match first, parse_bind_of_match ((ihfront hc).trans first), ihback hd]

theorem parse_exactly_join_eq_none_iff (hc : c.Placed) :
    (exactly (String.join texts)).parse c = none ↔ BreaksOff texts c := by
  induction texts generalizing c with
  | nil =>
    rw [parse_exactly_eq_none_iff hc]
    constructor
    · intro missing
      exact absurd (List.nil_prefix) missing
    · nofun
  | cons text texts ih =>
    rw [String.join_cons, ← parse_exactly_bind_exactly _ _ hc]
    cases first : (exactly text).parse c with
    | none =>
      rw [parse_bind_of_no_match first]
      exact ⟨fun _ => .here first, fun _ => rfl⟩
    | some r =>
      obtain ⟨⟨⟩, d⟩ := r
      have hd : d.Placed := (forward_exactly _ c hc _ d first).1
      rw [parse_bind_of_match first, ih hd]
      constructor
      · intro breaks
        exact .later first breaks
      · intro breaks
        cases breaks with
        | here missing =>
          rw [first] at missing
          contradiction
        | later found breaks =>
          rw [first] at found
          cases found
          exact breaks

/-- Texts in sequence, bracketed in any way, are read as the text that they make up: with the same
result at every cursor, and from every place of every text. Where one of them is not found behind the
others, nothing is taken. -/
theorem sequence_is_one_text (texts : Bracketing String) :
    (∀ c, c.Reachable →
      (sequence texts).parse c = (exactly (String.join texts.members)).parse c ∧
      ((sequence texts).parse c = none ↔ BreaksOff texts.members c)) ∧
    ∀ text start,
      (sequence texts).runFrom text start =
        (exactly (String.join texts.members)).runFrom text start ∧
      ∀ c, atPosition? text start = some c → BreaksOff texts.members c →
        (sequence texts).runFrom text start = (none, String.ofList (text.toList.drop start)) := by
  constructor
  · intro c hc
    have hc := Cursor.reachable_iff_placed.1 hc
    refine ⟨parse_sequence texts hc, ?_⟩
    rw [parse_sequence texts hc, parse_exactly_join_eq_none_iff hc]
  · intro text start
    refine ⟨runFrom_congr (fun c hc => parse_sequence texts hc) text start, ?_⟩
    intro c here breaks
    obtain ⟨hc, -⟩ := Cursor.placed_of_advance? (Cursor.placed_start text) here
    apply runFrom_of_no_match here
    rw [parse_sequence texts hc, parse_exactly_join_eq_none_iff hc]
    exact breaks

theorem sequence_is_one_text_wide :
    let left : Bracketing String := .pair (.pair (.single "é") (.single "")) (.single "🦀b")
    let right : Bracketing String := .pair (.single "é") (.pair (.single "") (.single "🦀b"))
    let c := between ['x'] "é🦀bc".toList
    let d := between ['x'] "é🦀c".toList
    c.Reachable ∧ atPosition? "xé🦀c" 1 = some d ∧ BreaksOff left.members d ∧
      (sequence left).parse c = some ((), between "xé🦀b".toList ['c']) ∧
      (sequence left).parse c = (sequence right).parse c ∧
      (sequence right).runFrom "xé🦀c" 1 = (none, "é🦀c") := by
  intro left right c d
  have hc : c.Reachable := Cursor.reachable_between _ _
  have here : atPosition? "xé🦀c" 1 = some d := by decide +kernel
  have breaks : BreaksOff left.members d :=
    .later (d := between ['x', 'é'] "🦀c".toList) (by decide +kernel)
      (.later (d := between ['x', 'é'] "🦀c".toList) (by decide +kernel) (.here (by decide +kernel)))
  obtain ⟨ofLeft, -⟩ := sequence_is_one_text left
  obtain ⟨ofRight, runs⟩ := sequence_is_one_text right
  have matched : (exactly (String.join left.members)).parse c =
      some ((), between "xé🦀b".toList ['c']) := by decide +kernel
  refine ⟨hc, here, breaks, (ofLeft c hc).1.trans matched, ?_, (runs _ _).2 d here breaks⟩
  rw [(ofLeft c hc).1, (ofRight c hc).1]
  rfl

end Parser
end TextGrammar

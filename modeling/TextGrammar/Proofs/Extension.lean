import TextGrammar.Proofs.Consumption
import TextGrammar.Proofs.Literals

/-! Texts that go on. A parser that reads scalars and texts, without a choice between alternatives and
without a run to follow to its end, never sees where a text ends unless it fails there. What it
matched is matched again when more is written behind the text, and what is left over goes on with
it. -/
namespace TextGrammar

namespace Cursor

def extend (c : Cursor) (more : String) : Cursor :=
  { c with source := c.source ++ more }

@[simp] theorem extend_between (before ahead : List Char) (more : String) :
    (between before ahead).extend more = between before (ahead ++ more.toList) := by
  ext1
  · simp [extend, String.append_assoc]
  · rfl
  · rfl

theorem rest_extend {c : Cursor} (hc : c.Placed) (more : String) :
    (c.extend more).rest = c.rest ++ more := by
  obtain ⟨before, ahead, rfl⟩ := hc
  simp

theorem atPosition?_extend {text : String} {position : Nat} {c : Cursor}
    (h : atPosition? text position = some c) (more : String) :
    atPosition? (text ++ more) position = some (c.extend more) := by
  rw [atPosition?_eq] at h
  split at h
  case isTrue le =>
    cases h
    have le' : position ≤ (text ++ more).length := by
      rw [String.length_append]
      omega
    rw [← String.length_toList] at le
    rw [atPosition?_eq, extend_between, if_pos le', String.toList_append,
      List.take_append_of_le_length le, List.drop_append_of_le_length le]
  case isFalse => contradiction

end Cursor

namespace Parser

/-- More text behind a text takes no match away and changes none. -/
def Survives (p : Parser α) : Prop :=
  ∀ c, c.Placed → ∀ a e, p.parse c = some (a, e) →
    e.Placed ∧ e.source = c.source ∧ ∀ more, p.parse (c.extend more) = some (a, e.extend more)

theorem survives_pure (a : α) : (pure a : Parser α).Survives := by
  intro c hc b e h
  cases h
  exact ⟨hc, rfl, fun _ => rfl⟩

theorem survives_fail : (fail : Parser α).Survives := nofun

theorem survives_scalar : scalar.Survives := by
  rintro _ ⟨before, ahead, rfl⟩ a e h
  cases ahead with
  | nil => simp at h
  | cons x xs =>
    rw [parse_scalar_cons] at h
    cases h
    refine ⟨Cursor.placed_between _ _, by simp, fun more => ?_⟩
    rw [Cursor.extend_between, Cursor.extend_between, List.cons_append, parse_scalar_cons]

theorem survives_exactly (text : String) : (exactly text).Survives := by
  rintro _ ⟨before, ahead, rfl⟩ a e h
  have found := (parse_exactly_eq_some_iff.1 h).1
  rw [Cursor.toList_rest_between] at found
  obtain ⟨after, rfl⟩ := found
  rw [parse_exactly_append] at h
  cases h
  refine ⟨Cursor.placed_between _ _, by simp, fun more => ?_⟩
  rw [Cursor.extend_between, Cursor.extend_between, List.append_assoc, parse_exactly_append]

theorem survives_map (f : α → β) {p : Parser α} (h : p.Survives) : (f <$> p).Survives := by
  intro c hc b e hb
  rw [parse_map, Option.map_eq_some_iff] at hb
  obtain ⟨⟨a, e⟩, matched, same⟩ := hb
  cases same
  obtain ⟨he, source, again⟩ := h c hc a e matched
  refine ⟨he, source, fun more => ?_⟩
  rw [parse_map, again]
  rfl

theorem survives_bind {p : Parser α} {f : α → Parser β} (hp : p.Survives)
    (hf : ∀ a, (f a).Survives) : (p >>= f).Survives := by
  intro c hc b e hb
  rw [parse_bind, Option.bind_eq_some_iff] at hb
  obtain ⟨⟨a, d⟩, first, second⟩ := hb
  obtain ⟨hd, source, first⟩ := hp c hc a d first
  obtain ⟨he, source', second⟩ := hf a d hd b e second
  refine ⟨he, source'.trans source, fun more => ?_⟩
  rw [parse_bind_of_match (first more), second]

theorem survives_lookahead {p : Parser α} (h : p.Survives) : p.lookahead.Survives := by
  intro c hc a e ha
  rw [parse_lookahead, Option.map_eq_some_iff] at ha
  obtain ⟨⟨a, d⟩, matched, same⟩ := ha
  cases same
  obtain ⟨-, -, again⟩ := h c hc a d matched
  exact ⟨hc, rfl, fun more => parse_lookahead_of_match (again more)⟩

end Parser

/-- Grammars that read scalars and texts, look ahead, and go on with what was read. A function stands
in them only if it gives one value, or fails, without a look at the cursor. -/
@[simp] def Grammar.Plain {α : Type} : Grammar Rule α → Prop
  | .scalar => True
  | .exactly _ => True
  | .blanks => False
  | .number => False
  | .textUntil _ => False
  | .ofParser p => p = .fail ∨ ∃ a, p = pure a
  | .map _ g => g.Plain
  | .bind g f => g.Plain ∧ ∀ a, (f a).Plain
  | .orElse _ _ => False
  | .lookahead g => g.Plain
  | .deferred make => (make ()).Plain
  | .rule _ => True

section
open TextGrammar.Parser (Survives)
variable {Rule : Type → Type} {rules : Rules Rule} {α : Type}

theorem Grammar.Plain.survives {calls : ∀ {α : Type}, Rule α → Parser α}
    (hcalls : ∀ {α : Type} (r : Rule α), (calls r).Survives) {g : Grammar Rule α} (hg : g.Plain) :
    (g.parser calls).Survives := by
  induction g with
  | scalar => exact Parser.survives_scalar
  | exactly text => exact Parser.survives_exactly text
  | blanks | number | textUntil | orElse => exact hg.elim
  | ofParser p =>
    rcases hg with rfl | ⟨a, rfl⟩
    · exact Parser.survives_fail
    · exact Parser.survives_pure a
  | map f g ih => exact Parser.survives_map f (ih hg)
  | bind g f ihg ihf => exact Parser.survives_bind (ihg hg.1) fun a => ihf a (hg.2 a)
  | lookahead g ih => exact Parser.survives_lookahead (ih hg)
  | deferred make ih => exact ih () hg
  | rule r => exact hcalls r

theorem Rules.survives_unroll (hrules : ∀ {α : Type} (r : Rule α), (rules.body r).Plain)
    (depth : Nat) (r : Rule α) : (rules.unroll (fun _ => .fail) depth r).Survives := by
  apply rules.unroll_induction (P := fun _ p => p.Survives) fun _ => Parser.survives_fail
  intro calls hcalls β s
  exact (hrules s).survives hcalls

end

namespace Parser
open Cursor (between atPosition?)

/-- What such a grammar matches in a text, it matches in every longer one: from the same place, with
the same value and up to the same place. What is left over is followed by what was added. -/
theorem matches_survive_more {Rule : Type → Type} {rules : Rules Rule}
    (hrules : ∀ {α : Type} (r : Rule α), (rules.body r).Plain) {g : Grammar Rule α}
    (hg : g.Plain) (depth : Nat) (text more : String) (start : Nat) :
    let p := rules.parserWithin depth g
    (∀ c a e, atPosition? text start = some c → p.parse c = some (a, e) →
      ∃ d f, atPosition? (text ++ more) start = some d ∧ p.parse d = some (a, f) ∧
        f.source = text ++ more ∧ f.position = e.position ∧ f.offset = e.offset ∧
        f.rest = e.rest ++ more) ∧
    ∀ a left, p.runFrom text start = (some a, left) →
      p.runFrom (text ++ more) start = (some a, left ++ more) := by
  intro p
  have survives : p.Survives := hg.survives (Rules.survives_unroll hrules depth)
  have again : ∀ c a e, atPosition? text start = some c → p.parse c = some (a, e) →
      e.Placed ∧ e.source = text ∧ atPosition? (text ++ more) start = some (c.extend more) ∧
        p.parse (c.extend more) = some (a, e.extend more) := by
    intro c a e here matched
    have start_placed := Cursor.placed_of_advance? (Cursor.placed_start text) here
    obtain ⟨he, source, matched⟩ := survives c start_placed.1 a e matched
    exact ⟨he, source.trans start_placed.2, Cursor.atPosition?_extend here more, matched more⟩
  constructor
  · intro c a e here matched
    obtain ⟨he, rfl, there, matched⟩ := again c a e here matched
    exact ⟨_, _, there, matched, rfl, rfl, rfl, Cursor.rest_extend he more⟩
  · intro a left h
    obtain ⟨c, e, here, matched, rfl⟩ := runFrom_eq_some.1 h
    obtain ⟨he, -, there, matched⟩ := again c a e here matched
    exact runFrom_eq_some.2 ⟨_, _, there, matched, Cursor.rest_extend he more⟩

inductive Counting : Type → Type where
  | count : Counting Nat

def countingRules : Rules Counting where
  body
    | .count => .scalar >>= fun x => if x = ';' then pure 0 else (· + 1) <$> .rule .count

theorem plain_counting {α : Type} (r : Counting α) : (countingRules.body r).Plain := by
  cases r
  refine ⟨trivial, fun x => ?_⟩
  dsimp only
  split
  · exact .inr ⟨0, rfl⟩
  · trivial

theorem matches_survive_more_semicolon :
    let g : Grammar Counting Nat := Grammar.lookahead (.exactly "a") >>= fun _ => .rule .count
    let p := countingRules.parserWithin 9 g
    (∀ {α : Type} (r : Counting α), (countingRules.body r).Plain) ∧ g.Plain ∧
      p.runFrom "éab;" 1 = (some 2, "") ∧ p.runFrom ("éab;" ++ "c;") 1 = (some 2, "" ++ "c;") ∧
      ∃ d f, atPosition? ("éab;" ++ "c;") 1 = some d ∧ p.parse d = some (2, f) ∧
        f.position = 4 ∧ f.offset = 5 := by
  intro g p
  have hg : g.Plain := ⟨trivial, fun _ => trivial⟩
  have found : p.runFrom "éab;" 1 = (some 2, "") := by decide +kernel
  have here : atPosition? "éab;" 1 = some (between ['é'] "ab;".toList) := by decide +kernel
  have matched : p.parse (between ['é'] "ab;".toList) = some (2, between "éab;".toList []) := by
    decide +kernel
  obtain ⟨cursors, runs⟩ := matches_survive_more plain_counting hg 9 "éab;" "c;" 1
  obtain ⟨d, f, there, again, -, position, offset, -⟩ := cursors _ _ _ here matched
  exact ⟨plain_counting, hg, found, runs 2 "" found, d, f, there, again, position, offset⟩

end Parser
end TextGrammar

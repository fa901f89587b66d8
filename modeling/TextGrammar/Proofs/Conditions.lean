import TextGrammar.Proofs.Reachability
import TextGrammar.Proofs.Reading

/-! Conditions. Looking ahead asks something of the text at a cursor and stays there, whatever the
parser does that looks ahead. What is put together from such questions is a question as well, and
questions at one place can be asked in any order. -/
namespace TextGrammar

namespace Parser

abbrev Still (p : Parser α) : Prop := p.Moves fun c e => c.Placed ∧ e = c

theorem still_bind {p : Parser α} {f : α → Parser β} (hp : p.Still) (hf : ∀ a, (f a).Still) :
    (p >>= f).Still := by
  apply moves_bind _ _ hp hf
  · rintro c _ ⟨hc, rfl⟩
    exact hc
  · rintro c _ _ ⟨hc, rfl⟩ ⟨-, rfl⟩
    exact ⟨hc, rfl⟩

end Parser

/-- Grammars that ask: they look ahead with any grammar, stay with a function, or are put together
from such, and call only rules of `Asks`. -/
@[simp] def Grammar.Condition (Asks : ∀ {α : Type}, Rule α → Prop) {α : Type} : Grammar Rule α → Prop
  | .scalar => False
  | .exactly _ => False
  | .blanks => False
  | .number => False
  | .textUntil _ => False
  | .ofParser p => p.Still
  | .map _ g => g.Condition Asks
  | .bind g f => g.Condition Asks ∧ ∀ a, (f a).Condition Asks
  | .orElse g h => g.Condition Asks ∧ h.Condition Asks
  | .lookahead _ => True
  | .deferred make => (make ()).Condition Asks
  | .rule r => Asks r

section
open TextGrammar.Parser (Still)
variable {Rule : Type → Type} {rules : Rules Rule} {Asks : ∀ {α : Type}, Rule α → Prop} {α : Type}

theorem Grammar.Condition.still {calls : ∀ {α : Type}, Rule α → Parser α}
    (hcalls : ∀ {α : Type} (r : Rule α), Asks r → (calls r).Still) {g : Grammar Rule α}
    (hg : g.Condition Asks) : (g.parser calls).Still := by
  induction g with
  | scalar | exactly | blanks | number | textUntil => exact hg.elim
  | ofParser p => exact hg
  | map f g ih => exact Parser.moves_map f (ih hg)
  | bind g f ihg ihf => exact Parser.still_bind (ihg hg.1) fun a => ihf a (hg.2 a)
  | orElse g h ihg ihh => exact Parser.moves_orElse (ihg hg.1) (ihh hg.2)
  | lookahead g => exact Parser.moves_lookahead (fun hc => ⟨hc, rfl⟩) _
  | deferred make ih => exact ih () hg
  | rule r => exact hcalls r hg

theorem Rules.still_unroll
    (hrules : ∀ {α : Type} (r : Rule α), Asks r → (rules.body r).Condition Asks) (depth : Nat)
    (r : Rule α) (hr : Asks r) : (rules.unroll (fun _ => .fail) depth r).Still := by
  apply rules.unroll_induction (P := fun r p => Asks r → p.Still) _ _ depth r hr
  · intro β s _
    exact Parser.moves_fail
  · intro calls hcalls β s hs
    exact (hrules s hs).still hcalls

theorem Rules.Reads.still
    (hrules : ∀ {α : Type} (r : Rule α), Asks r → (rules.body r).Condition Asks)
    {g : Grammar Rule α} (hg : g.Condition Asks) {depth : Nat} {c e : Cursor} (hc : c.Placed)
    {a : α} (h : rules.Reads depth g c (some (a, e))) : e = c := by
  generalize same : some (a, e) = result at h
  -- on the reading: what a grammar does that is only looked ahead with has no part in it
  induction h generalizing e with
  | scalar | exactly | blanks | number | textUntilEnd | textUntilFound | textUntilNext =>
    exact hg.elim
  | ofParser h => exact (hg _ hc a e (h.trans same.symm)).2
  | map f _ ih =>
    obtain ⟨⟨b, d⟩, rfl, ends⟩ := Option.map_eq_some_iff.1 same.symm
    cases ends
    exact ih hg hc rfl
  | bindFail => contradiction
  | bindNext _ _ ih ihnext =>
    obtain rfl := ih hg.1 hc rfl
    exact ihnext (hg.2 _) hc same
  | orElseFirst _ ih => exact ih hg.1 hc same
  | orElseSecond _ _ _ ih => exact ih hg.2 hc same
  | lookahead _ =>
    obtain ⟨r, -, ends⟩ := Option.map_eq_some_iff.1 same.symm
    cases ends
    rfl
  | deferred _ ih => exact ih hg hc same
  | rule _ ih => exact ih (hrules _ hg) hc same

end

namespace Parser
open Cursor (between)

theorem lookahead_bind_self (p : Parser α) : (p.lookahead >>= fun _ => p) = p := by
  ext1 c
  cases h : p.parse c with
  | none => rw [parse_bind_of_no_match (parse_lookahead_of_no_match h)]
  | some r => rw [parse_bind_of_match (parse_lookahead_of_match h), h]

theorem lookahead_bind_comm (p : Parser α) (q : Parser β) (f : α → β → Parser γ) :
    (p.lookahead >>= fun a => q.lookahead >>= f a) =
      q.lookahead >>= fun b => p.lookahead >>= fun a => f a b := by
  ext1 c
  cases hp : p.parse c with
  | none =>
    have refused := parse_lookahead_of_no_match hp
    rw [parse_bind_of_no_match refused]
    cases hq : q.parse c with
    | none => rw [parse_bind_of_no_match (parse_lookahead_of_no_match hq)]
    | some s =>
      rw [parse_bind_of_match (parse_lookahead_of_match hq), parse_bind_of_no_match refused]
  | some r =>
    have found := parse_lookahead_of_match hp
    rw [parse_bind_of_match found]
    cases hq : q.parse c with
    | none =>
      have refused := parse_lookahead_of_no_match hq
      rw [parse_bind_of_no_match refused, parse_bind_of_no_match refused]
    | some s =>
      have found' := parse_lookahead_of_match hq
      rw [parse_bind_of_match found', parse_bind_of_match found', parse_bind_of_match found]

theorem lookahead_orElse (p q : Parser α) :
    (p <|> q).lookahead = (p.lookahead <|> q.lookahead) := by
  ext1 c
  rw [parse_lookahead, parse_orElse, parse_orElse, parse_lookahead, parse_lookahead]
  cases p.parse c <;> rfl

theorem textUntil_lookahead (p : Parser α) : textUntil p.lookahead = textUntil p := by
  simp only [textUntil, parse_lookahead, Option.isNone_map]

/-- What is put together from questions ends where it started, by a rule that calls itself as well. A
parser that matched ahead of a cursor matches there, two questions can change places, a question for
one of two alternatives is one of two questions, and to ask for a delimiter is to look for it. -/
theorem conditions_stand_still {Rule : Type → Type} {rules : Rules Rule}
    {Asks : ∀ {α : Type}, Rule α → Prop}
    (hrules : ∀ {α : Type} (r : Rule α), Asks r → (rules.body r).Condition Asks)
    {g : Grammar Rule γ} (hg : g.Condition Asks) (p p' : Parser α) (q : Parser β) :
    (∀ c, c.Reachable → ∀ depth a e,
      ((rules.parserWithin depth g).parse c = some (a, e) → e = c) ∧
      (rules.Reads depth g c (some (a, e)) → e = c)) ∧
    (p.lookahead >>= fun _ => p) = p ∧
    (do let a ← p.lookahead; let b ← q.lookahead; return (a, b)) =
      (do let b ← q.lookahead; let a ← p.lookahead; return (a, b)) ∧
    (p <|> p').lookahead = (p.lookahead <|> p'.lookahead) ∧
    textUntil p.lookahead = textUntil p := by
  refine ⟨?_, lookahead_bind_self p, lookahead_bind_comm p q _, lookahead_orElse p p',
    textUntil_lookahead p⟩
  intro c hc depth a e
  have hc := Cursor.reachable_iff_placed.1 hc
  constructor
  · intro matched
    have still : (rules.parserWithin depth g).Still := hg.still (Rules.still_unroll hrules depth)
    exact (still c hc a e matched).2
  · intro h
    exact h.still hrules hg hc

inductive Opened : Type → Type where
  | count : Opened Nat

def openedRules : Rules Opened where
  body
    | .count => (· + 1) <$> (.exactly "(" >>= fun _ => .rule .count : Grammar _ Nat).lookahead
        <|> (fun _ => 0) <$> (.exactly ")" : Grammar _ Unit).lookahead

theorem conditions_stand_still_brackets :
    let back : Parser Unit := ⟨fun d => some ((), .start d.source)⟩
    let g : Grammar Opened Nat :=
      .rule .count >>= fun n => (fun _ => n) <$> (.ofParser back : Grammar _ Unit).lookahead
    let c := between ['é'] "(()x".toList
    (∀ {α : Type} (r : Opened α), True → (openedRules.body r).Condition fun _ => True) ∧
      g.Condition (fun _ => True) ∧ c.Reachable ∧ back.parse c = some ((), .start c.source) ∧
      (openedRules.parserWithin 9 g).parse c = some (2, c) ∧
      (back.lookahead >>= fun _ => back) = back ∧
      (textUntil (exactly ")").lookahead).parse c = (textUntil (exactly ")")).parse c := by
  intro back g c
  have hrules : ∀ {α : Type} (r : Opened α), True →
      (openedRules.body r).Condition fun _ => True := by
    rintro α ⟨⟩ -
    exact ⟨trivial, trivial⟩
  have hg : g.Condition fun _ => True := ⟨trivial, fun _ => trivial⟩
  have hc : c.Reachable := Cursor.reachable_between _ _
  have value : ((openedRules.parserWithin 9 g).parse c).map Prod.fst = some 2 := by decide +kernel
  obtain ⟨⟨n, e⟩, matched, rfl⟩ := Option.map_eq_some_iff.1 value
  obtain ⟨still, -, -, -, delimiter⟩ := @conditions_stand_still Nat Unit Unit _ openedRules
    (fun _ => True) hrules g hg (exactly ")") (exactly "(") back
  obtain ⟨-, again, -⟩ := @conditions_stand_still Nat Unit Unit _ openedRules (fun _ => True)
    hrules g hg back back back
  obtain rfl := (still c hc 9 2 e).1 matched
  exact ⟨hrules, hg, hc, rfl, matched, again, by rw [delimiter]⟩

end Parser
end TextGrammar

import TextGrammar.Grammar

/-! Grammars are open: any function may stand in one as a parser. A property that the primitives
have and the combinators keep is a property of every grammar, once the functions in it have it, and
of rules that call one another, however deep the calls go. -/
namespace TextGrammar

namespace Grammar
variable {Rule : Type → Type} {α β : Type} {P : ∀ {α : Type}, Parser α → Prop}

/-- The functions that stand in a grammar as parsers have `P`, those in continuations included. -/
@[simp] def Each (P : ∀ {α : Type}, Parser α → Prop) {α : Type} : Grammar Rule α → Prop
  | scalar => True
  | exactly _ => True
  | blanks => True
  | number => True
  | textUntil delimiter => delimiter.Each P
  | ofParser p => P p
  | map _ g => g.Each P
  | bind g f => g.Each P ∧ ∀ a, (f a).Each P
  | orElse g h => g.Each P ∧ h.Each P
  | lookahead g => g.Each P
  | deferred make => (make ()).Each P
  | rule _ => True

@[simp] theorem each_pure {a : α} :
    (pure a : Grammar Rule α).Each P ↔ P (pure a : Parser α) := Iff.rfl

@[simp] theorem each_map {f : α → β} {g : Grammar Rule α} :
    (f <$> g).Each P ↔ g.Each P := Iff.rfl

@[simp] theorem each_bind {g : Grammar Rule α} {f : α → Grammar Rule β} :
    (g >>= f).Each P ↔ g.Each P ∧ ∀ a, (f a).Each P := Iff.rfl

@[simp] theorem each_orElse {g h : Grammar Rule α} :
    (g <|> h).Each P ↔ g.Each P ∧ h.Each P := Iff.rfl

theorem Each.mono {Q : ∀ {α : Type}, Parser α → Prop}
    (imp : ∀ {α : Type} {p : Parser α}, P p → Q p) {g : Grammar Rule α} (h : g.Each P) :
    g.Each Q := by
  induction g with
  | scalar | exactly | blanks | number | rule => trivial
  | ofParser p => exact imp h
  | textUntil g ih | map f g ih | lookahead g ih => exact ih h
  | bind g f ihg ihf => exact ⟨ihg h.1, fun a => ihf a (h.2 a)⟩
  | orElse g k ihg ihk => exact ⟨ihg h.1, ihk h.2⟩
  | deferred make ih => exact ih () h

end Grammar

def Rules.Each (P : ∀ {α : Type}, Parser α → Prop) (rules : Rules Rule) : Prop :=
  ∀ {α : Type} (r : Rule α), (rules.body r).Each P

theorem Rules.Each.mono {Rule : Type → Type} {rules : Rules Rule}
    {P Q : ∀ {α : Type}, Parser α → Prop} (imp : ∀ {α : Type} {p : Parser α}, P p → Q p)
    (h : rules.Each P) : rules.Each Q :=
  fun r => (h r).mono imp

theorem Rules.unroll_induction {Rule : Type → Type} {rules : Rules Rule}
    {P : ∀ {α : Type}, Rule α → Parser α → Prop} {bottom : ∀ {α : Type}, Rule α → Parser α}
    (hbottom : ∀ {α : Type} (r : Rule α), P r (bottom r))
    (step : ∀ calls : ∀ {α : Type}, Rule α → Parser α, (∀ {α : Type} (r : Rule α), P r (calls r)) →
      ∀ {α : Type} (r : Rule α), P r ((rules.body r).parser calls))
    (depth : Nat) {α : Type} (r : Rule α) : P r (rules.unroll bottom depth r) := by
  induction depth generalizing α with
  | zero => exact hbottom r
  | succ depth ih => exact step _ ih r

namespace Parser

structure Compositional (P : ∀ {α : Type}, Parser α → Prop) : Prop where
  scalar : P scalar
  exactly (text : String) : P (exactly text)
  blanks : P blanks
  number : P number
  textUntil {α : Type} {delimiter : Parser α} : P delimiter → P (textUntil delimiter)
  map {α β : Type} (f : α → β) {p : Parser α} : P p → P (f <$> p)
  bind {α β : Type} {p : Parser α} {f : α → Parser β} : P p → (∀ a, P (f a)) → P (p >>= f)
  orElse {α : Type} {p q : Parser α} : P p → P q → P (p <|> q)
  lookahead {α : Type} {p : Parser α} : P p → P p.lookahead

namespace Compositional
variable {P : ∀ {α : Type}, Parser α → Prop} {Rule : Type → Type} {rules : Rules Rule}

theorem parser (h : Compositional P) {calls : ∀ {α : Type}, Rule α → Parser α}
    (hcalls : ∀ {α : Type} (r : Rule α), P (calls r)) {g : Grammar Rule α} (hg : g.Each P) :
    P (g.parser calls) := by
  induction g with
  | scalar => exact h.scalar
  | exactly text => exact h.exactly text
  | blanks => exact h.blanks
  | number => exact h.number
  | textUntil delimiter ih => exact h.textUntil (ih hg)
  | ofParser p => exact hg
  | map f g ih => exact h.map f (ih hg)
  | bind g f ihg ihf => exact h.bind (ihg hg.1) fun a => ihf a (hg.2 a)
  | orElse g k ihg ihk => exact h.orElse (ihg hg.1) (ihk hg.2)
  | lookahead g ih => exact h.lookahead (ih hg)
  | deferred make ih => exact ih () hg
  | rule r => exact hcalls r

theorem unroll (h : Compositional P) (hrules : rules.Each P)
    {bottom : ∀ {α : Type}, Rule α → Parser α}
    (hbottom : ∀ {α : Type} (r : Rule α), P (bottom r)) (depth : Nat) (r : Rule α) :
    P (rules.unroll bottom depth r) := by
  apply rules.unroll_induction (P := fun _ p => P p) hbottom
  intro calls hcalls β s
  exact h.parser hcalls (hrules s)

theorem parserWithin (h : Compositional P) (hfail : ∀ {α : Type}, P (fail : Parser α))
    (hrules : rules.Each P) {g : Grammar Rule α} (hg : g.Each P) (depth : Nat) :
    P (rules.parserWithin depth g) :=
  h.parser (fun r => h.unroll hrules (fun _ => hfail) depth r) hg

end Compositional
end Parser
end TextGrammar

import TextGrammar.Parser.Primitive

/-! A grammar is a parser written down, with the rules it calls by name: names make recursion
possible, and a term can be reasoned about by its shape. It becomes a parser once its rules do, and
those become parsers by unrolling their bodies as deep as a text asks for. -/
namespace TextGrammar

/-- Grammars that call rules of `Rule`, a family indexed by what a rule reads. -/
inductive Grammar (Rule : Type → Type) : Type → Type 1 where
  | scalar : Grammar Rule Char
  | exactly (text : String) : Grammar Rule Unit
  | blanks : Grammar Rule Unit
  | number : Grammar Rule UInt64
  | textUntil {α : Type} (delimiter : Grammar Rule α) : Grammar Rule String
  | ofParser {α : Type} (p : Parser α) : Grammar Rule α
  | map {α β : Type} (f : α → β) (g : Grammar Rule α) : Grammar Rule β
  | bind {α β : Type} (g : Grammar Rule α) (f : α → Grammar Rule β) : Grammar Rule β
  | orElse {α : Type} (g h : Grammar Rule α) : Grammar Rule α
  | lookahead {α : Type} (g : Grammar Rule α) : Grammar Rule α
  | deferred {α : Type} (make : Unit → Grammar Rule α) : Grammar Rule α
  | rule {α : Type} (r : Rule α) : Grammar Rule α

namespace Grammar
variable {Rule : Type → Type} {α : Type}

protected def pure (a : α) : Grammar Rule α := ofParser (pure a)

def fail : Grammar Rule α := ofParser .fail

instance : Inhabited (Grammar Rule α) := ⟨fail⟩

instance : Monad (Grammar Rule) where
  pure := Grammar.pure
  map := .map
  bind := .bind

instance : Alternative (Grammar Rule) where
  failure := fail
  orElse g h := g.orElse (h ())

/-- The parser a grammar describes, given the parsers its rules stand for. A rule is looked up only
when it is reached. -/
def parser (calls : ∀ {α : Type}, Rule α → Parser α) {α : Type} : Grammar Rule α → Parser α
  | scalar => .scalar
  | exactly text => .exactly text
  | blanks => .blanks
  | number => .number
  | textUntil delimiter => .textUntil (delimiter.parser calls)
  | ofParser p => p
  | map f g => (g.parser calls).map f
  | bind g f => (g.parser calls).bind fun a => (f a).parser calls
  | orElse g h => (g.parser calls).orElse (h.parser calls)
  | lookahead g => (g.parser calls).lookahead
  | deferred make => .deferred fun _ => (make ()).parser calls
  | rule r => .deferred fun _ => calls r

section
variable (calls : ∀ {α : Type}, Rule α → Parser α)

@[simp] theorem parser_scalar : (scalar : Grammar Rule Char).parser calls = .scalar := rfl

@[simp] theorem parser_exactly (text : String) :
    (exactly text : Grammar Rule Unit).parser calls = .exactly text := rfl

@[simp] theorem parser_blanks : (blanks : Grammar Rule Unit).parser calls = .blanks := rfl

@[simp] theorem parser_number : (number : Grammar Rule UInt64).parser calls = .number := rfl

@[simp] theorem parser_textUntil (delimiter : Grammar Rule α) :
    (textUntil delimiter).parser calls = .textUntil (delimiter.parser calls) := rfl

@[simp] theorem parser_ofParser (p : Parser α) :
    (ofParser p : Grammar Rule α).parser calls = p := rfl

@[simp] theorem parser_pure (a : α) : (pure a : Grammar Rule α).parser calls = pure a := rfl

@[simp] theorem parser_failure : (failure : Grammar Rule α).parser calls = failure := rfl

@[simp] theorem parser_map (f : α → β) (g : Grammar Rule α) :
    (f <$> g).parser calls = f <$> g.parser calls := rfl

@[simp] theorem parser_bind (g : Grammar Rule α) (f : α → Grammar Rule β) :
    (g >>= f).parser calls = g.parser calls >>= fun a => (f a).parser calls := rfl

@[simp] theorem parser_orElse (g h : Grammar Rule α) :
    (g <|> h).parser calls = (g.parser calls <|> h.parser calls) := rfl

@[simp] theorem parser_lookahead (g : Grammar Rule α) :
    g.lookahead.parser calls = (g.parser calls).lookahead := rfl

@[simp] theorem parser_deferred (make : Unit → Grammar Rule α) :
    (deferred make).parser calls = (make ()).parser calls := rfl

@[simp] theorem parser_rule (r : Rule α) : (rule r).parser calls = calls r := rfl

end

end Grammar

structure Rules (Rule : Type → Type) where
  body : ∀ {α : Type}, Rule α → Grammar Rule α

namespace Rules
variable {Rule : Type → Type}

/-- Calls nested up to `depth` deep run the bodies of the rules, and deeper ones `bottom`. -/
def unroll (rules : Rules Rule) (bottom : ∀ {α : Type}, Rule α → Parser α) :
    (depth : Nat) → ∀ {α : Type}, Rule α → Parser α
  | 0, _, r => bottom r
  | depth + 1, _, r => (rules.body r).parser fun s => rules.unroll bottom depth s

@[simp] theorem unroll_zero (rules : Rules Rule) (bottom : ∀ {α : Type}, Rule α → Parser α)
    (r : Rule α) : rules.unroll bottom 0 r = bottom r := rfl

@[simp] theorem unroll_succ (rules : Rules Rule) (bottom : ∀ {α : Type}, Rule α → Parser α)
    (depth : Nat) (r : Rule α) :
    rules.unroll bottom (depth + 1) r =
      (rules.body r).parser fun s => rules.unroll bottom depth s := rfl

def parserWithin (rules : Rules Rule) (depth : Nat) (g : Grammar Rule α) : Parser α :=
  g.parser fun r => rules.unroll (fun _ => .fail) depth r

/-- The parser of a grammar whose rules all read a scalar before they call one again: one call per
scalar ahead, and one more, is as deep as they go. -/
def parser (rules : Rules Rule) (g : Grammar Rule α) : Parser α :=
  ⟨fun c => (rules.parserWithin (c.rest.length + 1) g).parse c⟩

end Rules
end TextGrammar

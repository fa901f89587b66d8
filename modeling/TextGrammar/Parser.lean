import TextGrammar.Cursor.Between
import TextGrammar.Failure

/-! A parser takes a cursor to a value and a cursor after it, or to nothing. Cursors are values, so
a parser that fails leaves its caller where it stood, and an alternative starts from there. -/
namespace TextGrammar

structure Parser (α : Type) where
  parse : Cursor → Option (α × Cursor)

namespace Parser

@[ext] theorem ext {p q : Parser α} (h : ∀ c, p.parse c = q.parse c) : p = q :=
  congrArg mk (funext h)

protected def pure (a : α) : Parser α := ⟨fun c => some (a, c)⟩

def fail : Parser α := ⟨fun _ => none⟩

protected def map (f : α → β) (p : Parser α) : Parser β :=
  ⟨fun c => (p.parse c).map fun (a, e) => (f a, e)⟩

protected def bind (p : Parser α) (f : α → Parser β) : Parser β :=
  ⟨fun c => (p.parse c).bind fun (a, e) => (f a).parse e⟩

/-- Ordered choice: `q` is tried, from the same place, when `p` fails. -/
protected def orElse (p q : Parser α) : Parser α :=
  ⟨fun c => p.parse c <|> q.parse c⟩

def lookahead (p : Parser α) : Parser α :=
  ⟨fun c => (p.parse c).map fun (a, _) => (a, c)⟩

/-- A parser that is made when it first runs, so that a grammar can name itself. -/
def deferred (make : Unit → Parser α) : Parser α :=
  ⟨fun c => (make ()).parse c⟩

instance : Inhabited (Parser α) := ⟨fail⟩

instance : Monad Parser where
  pure := Parser.pure
  map := Parser.map
  bind := Parser.bind

instance : Alternative Parser where
  failure := fail
  orElse p q := p.orElse (q ())

@[simp] theorem parse_pure (a : α) (c : Cursor) : (pure a : Parser α).parse c = some (a, c) := rfl

@[simp] theorem parse_fail (c : Cursor) : (fail : Parser α).parse c = none := rfl

@[simp] theorem parse_failure (c : Cursor) : (failure : Parser α).parse c = none := rfl

@[simp] theorem parse_map (f : α → β) (p : Parser α) (c : Cursor) :
    (f <$> p).parse c = (p.parse c).map fun (a, e) => (f a, e) := rfl

@[simp] theorem parse_bind (p : Parser α) (f : α → Parser β) (c : Cursor) :
    (p >>= f).parse c = (p.parse c).bind fun (a, e) => (f a).parse e := rfl

theorem parse_bind_of_match {p : Parser α} {c d : Cursor} (h : p.parse c = some (a, d))
    (f : α → Parser β) : (p >>= f).parse c = (f a).parse d := by
  rw [parse_bind, h]
  rfl

theorem parse_bind_of_no_match {p : Parser α} {c : Cursor} (h : p.parse c = none)
    (f : α → Parser β) : (p >>= f).parse c = none := by
  rw [parse_bind, h]
  rfl

@[simp] theorem parse_orElse (p q : Parser α) (c : Cursor) :
    (p <|> q).parse c = (p.parse c).or (q.parse c) := by
  show (p.parse c <|> q.parse c) = _
  simp

@[simp] theorem parse_guard (accept : Prop) [Decidable accept] (c : Cursor) :
    (guard accept : Parser Unit).parse c = if accept then some ((), c) else none := by
  by_cases h : accept
  · rw [if_pos h, show guard accept = (pure () : Parser Unit) from if_pos h, parse_pure]
  · rw [if_neg h, show guard accept = (failure : Parser Unit) from if_neg h, parse_failure]

@[simp] theorem parse_lookahead (p : Parser α) (c : Cursor) :
    p.lookahead.parse c = (p.parse c).map fun (a, _) => (a, c) := rfl

theorem parse_lookahead_of_match {p : Parser α} {c e : Cursor} (h : p.parse c = some (a, e)) :
    p.lookahead.parse c = some (a, c) := by
  rw [parse_lookahead, h]
  rfl

theorem parse_lookahead_of_no_match {p : Parser α} {c : Cursor} (h : p.parse c = none) :
    p.lookahead.parse c = none := by
  rw [parse_lookahead, h]
  rfl

@[simp] theorem deferred_eq (make : Unit → Parser α) : deferred make = make () := rfl

@[simp] theorem map_eq (f : α → β) (p : Parser α) : p.map f = f <$> p := rfl

@[simp] theorem bind_eq (p : Parser α) (f : α → Parser β) : p.bind f = p >>= f := rfl

@[simp] theorem orElse_eq (p q : Parser α) : p.orElse q = (p <|> q) := rfl

instance : LawfulMonad Parser := .mk' Parser
  (fun p => by ext c; simp)
  (fun a f => by ext c; simp)
  (fun p f g => by ext c; simp [Option.bind_assoc])
  (fun _ _ => rfl)
  (fun _ _ => rfl)
  (fun _ _ => rfl)
  (fun f p => by
    ext1 c
    show (p.parse c).bind _ = (p.parse c).map _
    cases p.parse c <;> rfl)
  (fun _ _ => rfl)

def attempt (p : Parser α) (c : Cursor) : Except Mismatch (α × Cursor) :=
  (p.parse c).elim (.error ⟨⟩) .ok

/-- Reads from `start` scalars into a text: the value, and the text left over. A failure leaves
the whole text from `start` on; there is none past the end. -/
def runFrom (p : Parser α) (text : String) (start : Nat) : Option α × String :=
  match Cursor.atPosition? text start with
  | none => (none, "")
  | some c =>
    match p.parse c with
    | some (a, e) => (some a, e.rest)
    | none => (none, c.rest)

/-- Reads the whole of a text: a match that leaves text over is none. -/
def run (p : Parser α) (text : String) : Option α :=
  match p.runFrom text 0 with
  | (some a, "") => some a
  | _ => none

theorem runFrom_of_lt (p : Parser α) {text : String} {start : Nat} (h : text.length < start) :
    p.runFrom text start = (none, "") := by
  simp [runFrom, Cursor.atPosition?_eq, Nat.not_le.2 h]

theorem runFrom_of_le (p : Parser α) {text : String} {start : Nat} (h : start ≤ text.length) :
    p.runFrom text start =
      match p.parse (.between (text.toList.take start) (text.toList.drop start)) with
      | some (a, e) => (some a, e.rest)
      | none => (none, String.ofList (text.toList.drop start)) := by
  simp only [runFrom, Cursor.atPosition?_eq, if_pos h, Cursor.rest_between]

theorem runFrom_congr {p q : Parser α} (h : ∀ c, c.Placed → p.parse c = q.parse c) (text : String)
    (start : Nat) : p.runFrom text start = q.runFrom text start := by
  by_cases le : start ≤ text.length
  · rw [runFrom_of_le p le, runFrom_of_le q le, h _ ⟨_, _, rfl⟩]
  · rw [runFrom_of_lt p (Nat.lt_of_not_le le), runFrom_of_lt q (Nat.lt_of_not_le le)]

theorem runFrom_eq_some {p : Parser α} {text left : String} {start : Nat} {a : α} :
    p.runFrom text start = (some a, left) ↔ ∃ c e, Cursor.atPosition? text start = some c ∧
      p.parse c = some (a, e) ∧ e.rest = left := by
  unfold runFrom
  cases Cursor.atPosition? text start with
  | none => simp
  | some c =>
    cases h : p.parse c with
    | none => simp [h]
    | some r =>
      obtain ⟨b, e⟩ := r
      simp [h, and_assoc]

theorem runFrom_of_no_match {p : Parser α} {text : String} {start : Nat} {c : Cursor}
    (here : Cursor.atPosition? text start = some c) (failed : p.parse c = none) :
    p.runFrom text start = (none, String.ofList (text.toList.drop start)) := by
  rw [Cursor.atPosition?_eq] at here
  split at here
  case isTrue le =>
    cases here
    rw [runFrom_of_le p le, failed]
  case isFalse => contradiction

theorem run_eq_some {p : Parser α} {text : String} {a : α} :
    p.run text = some a ↔ p.runFrom text 0 = (some a, "") := by
  unfold run
  split <;> simp_all

theorem isSome_run_iff {p : Parser α} {text : String} :
    (p.run text).isSome ↔ (p.runFrom text 0).1.isSome ∧ (p.runFrom text 0).2 = "" := by
  simp only [Option.isSome_iff_exists, run_eq_some, Prod.ext_iff, exists_and_right]

end Parser
end TextGrammar

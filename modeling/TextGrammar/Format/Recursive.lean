import TextGrammar.Grammar
import TextGrammar.Readable

/-! Formats that call themselves. Each is a family of rules, since a grammar that called itself
directly would have no end as data. -/
namespace TextGrammar.Format
open Grammar

/-! Sums of numbers, such as `1 + 2 + 3`, read as their value modulo `2 ^ 64`. -/
namespace Sum

inductive Rule : Type → Type where
  | sum : Rule UInt64

def rules : Rules Rule where
  body
    | .sum => do
      let first ← number
      (blanks >>= fun _ => exactly "+" >>= fun _ => blanks >>= fun _ =>
        (first + ·) <$> rule .sum) <|> pure first

def parser : Parser UInt64 := rules.parser (rule .sum)

end Sum

/-! Nests of round brackets, such as `((()))`, read as their depth. Brackets that are not closed
are not read at all. -/
namespace Nesting

inductive Rule : Type → Type where
  | depth : Rule Nat

def rules : Rules Rule where
  body
    | .depth =>
      ((exactly "(" >>= fun _ => rule .depth) >>= fun inner =>
        (fun _ => inner + 1) <$> exactly ")") <|> pure 0

def parser : Parser Nat := rules.parser (rule .depth)

end Nesting

/-! Tables written one row a line, with commas between the fields. Nothing is quoted: a field holds
neither a comma nor a newline. Every text is a table, the empty text that of one empty field. -/

structure Table where
  rows : List (List String)
deriving DecidableEq, Repr

namespace Table

inductive Rule : Type → Type where
  | row : Rule (List String)
  | table : Rule (List (List String))

def field : Grammar Rule String :=
  textUntil (exactly "," <|> exactly "\n")

def row : Grammar Rule (List String) := do
  let first ← field
  (exactly "," >>= fun _ => (first :: ·) <$> rule .row) <|> pure [first]

-- the first row is read in place, so that no rule is called before something was read
def table : Grammar Rule (List (List String)) := do
  let first ← row
  (exactly "\n" >>= fun _ => (first :: ·) <$> rule .table) <|> pure [first]

def rules : Rules Rule where
  body
    | .row => row
    | .table => table

def write (t : Table) : String :=
  "\n".intercalate (t.rows.map ",".intercalate)

/-- Tables with a written form: there is a row, every row has a field, and no field holds a
separator. -/
def Writable (t : Table) : Prop :=
  t.rows ≠ [] ∧ ∀ row ∈ t.rows, row ≠ [] ∧ ∀ text ∈ row, ',' ∉ text.toList ∧ '\n' ∉ text.toList

end Table

instance : Readable Table := ⟨"Table", Table.mk <$> Table.rules.parser Table.table⟩

end TextGrammar.Format

import TextGrammar.Parser

/-! Types with one grammar for all their values, so that a text can be read as the type says. -/
namespace TextGrammar

class Readable (α : Type) where
  /-- The name by which a refusal calls the type. -/
  typeName : String
  parser : Parser α

namespace Readable
variable [Readable α]

def read? (text : String) : Option α :=
  (parser : Parser α).run text

def read (text : String) : Except Unreadable α :=
  match read? text with
  | some a => .ok a
  | none => .error ⟨text, typeName α⟩

/-- The value of a text that the program vouches for. -/
def readVouched (text : String) : Except InvalidLiteral α :=
  (read text).mapError .mk

theorem read_of_some {text : String} {a : α} (h : read? text = some a) : read text = .ok a := by
  rw [read, h]

theorem read_of_none {text : String} (h : (read? text : Option α) = none) :
    (read text : Except Unreadable α) = .error ⟨text, typeName α⟩ := by
  rw [read, h]

theorem readVouched_of_some {text : String} {a : α} (h : read? text = some a) :
    readVouched text = .ok a := by
  rw [readVouched, read_of_some h]
  rfl

theorem readVouched_of_none {text : String} (h : (read? text : Option α) = none) :
    (readVouched text : Except InvalidLiteral α) = .error ⟨⟨text, typeName α⟩⟩ := by
  rw [readVouched, read_of_none h]
  rfl

end Readable
end TextGrammar

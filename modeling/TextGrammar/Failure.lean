/-! How reading fails. Inside a grammar there is one failure, without a place or a reason; reading a
whole text names the text and the type it was meant for. -/
namespace TextGrammar

structure Mismatch where
deriving DecidableEq, Inhabited, Repr

def Mismatch.message (_ : Mismatch) : String := "no match"

structure Unreadable where
  text : String
  typeName : String
deriving DecidableEq, Repr

def Unreadable.message (e : Unreadable) : String :=
  "`" ++ e.text ++ "` is not a valid " ++ e.typeName

/-- A text that the program vouched for and that is unreadable. -/
structure InvalidLiteral where
  error : Unreadable
deriving DecidableEq, Repr

def InvalidLiteral.message (e : InvalidLiteral) : String :=
  "invalid literal: " ++ e.error.message

end TextGrammar

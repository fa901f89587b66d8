import TextGrammar.Parser.Primitive
import TextGrammar.Readable

/-! Formats whose parts follow one another: the values that make up a record, with the marks that
stand between them. None of them calls itself. -/
namespace TextGrammar.Format
open TextGrammar.Parser

/-! The format with nothing to read: its one value is written as the empty text. -/

structure Nothing where
deriving DecidableEq, Repr

instance : Readable Nothing := ⟨"Nothing", pure ⟨⟩⟩

/-! Lines of text, read up to the newline and without it. -/

structure Line where
  text : String
deriving DecidableEq, Repr

def Line.parser : Parser Line :=
  Line.mk <$> textUntil (exactly "\n")

instance : Readable Line := ⟨"Line", Line.parser⟩

/-! Ratios of two numbers, such as `3/4`. -/

structure Ratio where
  num : UInt64
  den : UInt64
deriving DecidableEq, Repr

def Ratio.parser : Parser Ratio := do
  let num ← number
  exactly "/"
  let den ← number
  return ⟨num, den⟩

def Ratio.write (r : Ratio) : String :=
  r.num.toNat.repr ++ "/" ++ r.den.toNat.repr

instance : Readable Ratio := ⟨"Ratio", Ratio.parser⟩

/-! Points of the plane, such as `(10, 20)`. White space may surround a number, and only that. -/

structure Point where
  x : UInt64
  y : UInt64
deriving DecidableEq, Repr

def Point.parser : Parser Point := do
  exactly "("
  blanks
  let x ← number
  blanks
  exactly ","
  blanks
  let y ← number
  blanks
  exactly ")"
  return ⟨x, y⟩

structure Point.Layout where
  beforeX : String
  afterX : String
  beforeY : String
  afterY : String

def Point.write (p : Point) (l : Layout) : String :=
  "(" ++ l.beforeX ++ p.x.toNat.repr ++ l.afterX ++ ","
    ++ l.beforeY ++ p.y.toNat.repr ++ l.afterY ++ ")"

instance : Readable Point := ⟨"Point", Point.parser⟩

/-! Calendar dates, such as `2019-09-22`. The month and the day have two digits and are within the
largest month and day of any year; how long a month is, the format does not know. -/

structure Date where
  year : UInt64
  month : Nat
  day : Nat
deriving DecidableEq, Repr

def twoDigits : Parser Nat := do
  let tens ← scalar
  let ones ← scalar
  guard (tens.isDigit ∧ ones.isDigit)
  return 10 * Text.digitValue tens + Text.digitValue ones

def twoDigitsUpTo (last : Nat) : Parser Nat := do
  let n ← twoDigits
  -- no month and no day is numbered zero
  guard (1 ≤ n ∧ n ≤ last)
  return n

def Date.parser : Parser Date := do
  let year ← number
  exactly "-"
  let month ← twoDigitsUpTo 12
  exactly "-"
  let day ← twoDigitsUpTo 31
  return ⟨year, month, day⟩

def writeTwoDigits (n : Nat) : String :=
  if n < 10 then "0" ++ n.repr else n.repr

def Date.write (d : Date) : String :=
  d.year.toNat.repr ++ "-" ++ writeTwoDigits d.month ++ "-" ++ writeTwoDigits d.day

instance : Readable Date := ⟨"Date", Date.parser⟩

/-! Settings, such as `name= value`: a key, an equals sign, white space, and a value that ends at a
semicolon or with the text. -/

structure Setting where
  key : String
  value : String
deriving DecidableEq, Repr

def Setting.parser : Parser Setting := do
  let key ← textUntil (exactly "=")
  exactly "="
  blanks
  let value ← textUntil (exactly ";")
  return ⟨key, value⟩

/-! A count, a colon and so many letters `x`, such as `3:xxx`: the number read first decides what
has to follow. -/
namespace Counted

def run (count : UInt64) : String :=
  String.ofList (List.replicate count.toNat 'x')

def parser : Parser UInt64 := do
  let count ← number
  exactly ":"
  exactly (run count)
  return count

end Counted
end TextGrammar.Format

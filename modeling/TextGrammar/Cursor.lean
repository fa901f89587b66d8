import TextGrammar.Text.Offset

/-! A cursor is a place in a text, kept as two counters: the bytes before it, by which the text is
cut, and the scalars before it, by which places are named. Only `next` moves a cursor, and it
moves both counters past one whole scalar. -/
namespace TextGrammar

@[ext] structure Cursor where
  source : String
  /-- Bytes of `source` before the cursor. -/
  offset : Nat
  /-- Scalars of `source` before the cursor. -/
  position : Nat
deriving DecidableEq, Repr

namespace Cursor

def start (source : String) : Cursor := ⟨source, 0, 0⟩

def scalar? (c : Cursor) : Option Char :=
  String.Pos.Raw.get? c.source ⟨c.offset⟩

def atEnd (c : Cursor) : Bool :=
  c.source.utf8ByteSize ≤ c.offset

def rest (c : Cursor) : String :=
  String.Pos.Raw.extract c.source ⟨c.offset⟩ c.source.rawEndPos

/-- The text from `c` to a later cursor; refused when `e` lies before `c`. -/
def textTo? (c e : Cursor) : Option String :=
  if c.offset ≤ e.offset then
    some (String.Pos.Raw.extract c.source ⟨c.offset⟩ ⟨e.offset⟩)
  else none

def next (c : Cursor) : Cursor :=
  match c.scalar? with
  | some x => { c with offset := c.offset + x.utf8Size, position := c.position + 1 }
  | none => c

/-- Goes `count` scalars further; nothing when fewer lie ahead. The walk ends with the text, however
large `count` is. -/
def advance? (c : Cursor) : (count : Nat) → Option Cursor
  | 0 => some c
  | count + 1 => if c.atEnd then none else c.next.advance? count

def atPosition? (source : String) (position : Nat) : Option Cursor :=
  (start source).advance? position

theorem next_of_scalar {c : Cursor} (h : c.scalar? = some x) :
    c.next = { c with offset := c.offset + x.utf8Size, position := c.position + 1 } := by
  simp [next, h]

theorem next_of_no_scalar {c : Cursor} (h : c.scalar? = none) : c.next = c := by
  simp [next, h]

@[simp] theorem source_next (c : Cursor) : c.next.source = c.source := by
  unfold next
  split <;> rfl

theorem offset_lt_of_scalar {c : Cursor} (h : c.scalar? = some x) :
    c.offset < c.source.utf8ByteSize :=
  Text.lt_of_get? h

def advanceWhile (go : Cursor → Bool) (c : Cursor) : Cursor :=
  match _h : c.scalar? with
  | some _ => if go c then c.next.advanceWhile go else c
  | none => c
termination_by c.source.utf8ByteSize - c.offset
decreasing_by
  have := offset_lt_of_scalar _h
  have := Char.utf8Size_pos ‹_›
  simp only [next_of_scalar _h]
  omega

theorem advanceWhile_of_scalar {c : Cursor} (h : c.scalar? = some x) (go : Cursor → Bool) :
    c.advanceWhile go = if go c then c.next.advanceWhile go else c := by
  rw [advanceWhile]
  split <;> simp_all

theorem advanceWhile_of_no_scalar {c : Cursor} (h : c.scalar? = none) (go : Cursor → Bool) :
    c.advanceWhile go = c := by
  rw [advanceWhile]
  split <;> simp_all

theorem advanceWhile_advanceWhile (go : Cursor → Bool) (c : Cursor) :
    (c.advanceWhile go).advanceWhile go = c.advanceWhile go := by
  induction c using advanceWhile.induct go with
  | case1 c x hx accepted ih =>
    rw [advanceWhile_of_scalar hx, if_pos accepted]
    exact ih
  | case2 c x hx refused =>
    rw [advanceWhile_of_scalar hx, if_neg refused, advanceWhile_of_scalar hx, if_neg refused]
  | case3 c hx => rw [advanceWhile_of_no_scalar hx, advanceWhile_of_no_scalar hx]

end Cursor
end TextGrammar

/-! White space is the property `White_Space` of the Unicode character database: 25 scalars, of
which six are ASCII. -/
namespace TextGrammar.Text

/-- Ranges of code points with the property, both ends included. -/
def blankRanges : List (Nat × Nat) :=
  [(0x09, 0x0D), (0x20, 0x20), (0x85, 0x85), (0xA0, 0xA0), (0x1680, 0x1680), (0x2000, 0x200A),
    (0x2028, 0x2029), (0x202F, 0x202F), (0x205F, 0x205F), (0x3000, 0x3000)]

def isBlank (x : Char) : Bool :=
  blankRanges.any fun (first, last) => first ≤ x.toNat && x.toNat ≤ last

theorem isBlank_of_isWhitespace {x : Char} (h : x.isWhitespace) : isBlank x := by
  simp only [Char.isWhitespace, Bool.or_eq_true, decide_eq_true_eq] at h
  rcases h with ((rfl | rfl) | rfl) | rfl <;> decide

theorem not_isBlank_of_isDigit {x : Char} (h : x.isDigit) : isBlank x = false := by
  rw [Char.isDigit_iff_toNat] at h
  simp [isBlank, blankRanges] at h ⊢
  omega

theorem not_isDigit_of_isBlank {x : Char} (h : isBlank x) : x.isDigit = false := by
  cases digit : x.isDigit with
  | false => rfl
  | true =>
    rw [not_isBlank_of_isDigit digit] at h
    contradiction

end TextGrammar.Text

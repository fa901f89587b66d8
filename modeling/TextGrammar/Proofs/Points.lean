import TextGrammar.Format.Record
import TextGrammar.Proofs.Languages

/-! Points and their texts. The grammar falls in two coordinates, each up to the mark behind it.
White space and digits are read greedily there, and take nothing that is wanted later: no digit is
white space, and no mark is either. -/
namespace TextGrammar.Format
open TextGrammar.Parser (number exactly blanks Recognises recognises_number recognises_pure)
open Text (Stops Numeral isBlank)

def Point.WrittenAs (p : Point) (text : List Char) : Prop :=
  ∃ w₁ x w₂ w₃ y w₄ : List Char,
    text = '(' :: (w₁ ++ x ++ w₂ ++ ',' :: (w₃ ++ y ++ w₄ ++ [')'])) ∧
    Numeral p.x.toNat x ∧ Numeral p.y.toNat y ∧
    ∀ w ∈ [w₁, w₂, w₃, w₄], ∀ c ∈ w, isBlank c

def Point.Layout.Blank (l : Layout) : Prop :=
  ∀ text ∈ [l.beforeX, l.afterX, l.beforeY, l.afterY], text.toList.all isBlank

def coordinate (mark : String) : Parser UInt64 := do
  blanks
  let n ← number
  blanks
  exactly mark
  return n

theorem point_eq_coordinates : Point.parser = (do
    exactly "("
    let x ← coordinate ","
    let y ← coordinate ")"
    return ⟨x, y⟩) := by
  simp only [Point.parser, coordinate, bind_assoc, pure_bind]

/-- Scalars that end a run of white space and a run of digits alike. -/
structure Mark (text : String) (x : Char) : Prop where
  toList : text.toList = [x]
  not_isBlank : isBlank x = false
  not_isDigit : x.isDigit = false

theorem recognises_coordinate {mark : String} {x : Char} (hx : Mark mark x) :
    (coordinate mark).Recognises fun n mid _ => ∃ w digits w', mid = w ++ (digits ++ (w' ++ [x])) ∧
      (∀ c ∈ w, isBlank c) ∧ Numeral n.toNat digits ∧ ∀ c ∈ w', isBlank c := by
  have stages := Recognises.blanks_bind <| recognises_number.bind fun n =>
    Recognises.blanks_bind <| Recognises.exactly_bind mark <| recognises_pure n
  apply stages.congr
  intro n mid after
  constructor
  · intro taken
    obtain ⟨w, behindGap, rfl, hw, -, taken⟩ := taken
    obtain ⟨m, digits, behindDigits, rfl, ⟨hm, -⟩, taken⟩ := taken
    obtain ⟨w', behindGap', rfl, hw', -, taken⟩ := taken
    obtain ⟨_, rfl, rfl, rfl⟩ := taken
    exact ⟨w, digits, w', by simp [hx.toList], hw, hm, hw'⟩
  · intro written
    obtain ⟨w, digits, w', rfl, hw, hn, hw'⟩ := written
    -- each of the three runs ends where the next part begins
    have digit : Stops isBlank (digits ++ (w' ++ [x]) ++ after) := by
      rw [List.append_assoc]
      exact hn.stops_isBlank _
    have noDigit : Stops Char.isDigit (w' ++ [x] ++ after) := by
      rw [List.append_assoc]
      have mark : Stops Char.isDigit ([x] ++ after) := hx.not_isDigit
      exact mark.append fun c hc => Text.not_isDigit_of_isBlank (hw' c hc)
    have noBlank : Stops isBlank ([x] ++ after) := hx.not_isBlank
    refine ⟨w, digits ++ (w' ++ [x]), rfl, hw, digit, ?_⟩
    refine ⟨n, digits, w' ++ [x], rfl, ⟨hn, noDigit⟩, ?_⟩
    refine ⟨w', [x], rfl, hw', noBlank, ?_⟩
    refine ⟨[], ?_, rfl, rfl⟩
    rw [hx.toList, List.append_nil]

theorem recognises_point : Point.parser.Recognises fun p mid _ => p.WrittenAs mid := by
  have comma : Mark "," ',' := ⟨rfl, by decide, by decide⟩
  have bracket : Mark ")" ')' := ⟨rfl, by decide, by decide⟩
  have stages := Recognises.exactly_bind "(" <| (recognises_coordinate comma).bind fun x =>
    (recognises_coordinate bracket).bind_pure (Point.mk x)
  rw [point_eq_coordinates]
  apply stages.congr
  intro p mid after
  constructor
  · intro taken
    obtain ⟨inside, rfl, taken⟩ := taken
    obtain ⟨m, first, second, rfl, ⟨w₁, x, w₂, rfl, hw₁, hx, hw₂⟩, taken⟩ := taken
    obtain ⟨n, rfl, w₃, y, w₄, rfl, hw₃, hy, hw₄⟩ := taken
    refine ⟨w₁, x, w₂, w₃, y, w₄, by simp, hx, hy, ?_⟩
    simp only [List.forall_mem_cons]
    exact ⟨hw₁, hw₂, hw₃, hw₄, by simp⟩
  · intro written
    obtain ⟨w₁, x, w₂, w₃, y, w₄, rfl, hx, hy, blank⟩ := written
    simp only [List.forall_mem_cons] at blank
    obtain ⟨hw₁, hw₂, hw₃, hw₄, -⟩ := blank
    have cut : '(' :: (w₁ ++ x ++ w₂ ++ ',' :: (w₃ ++ y ++ w₄ ++ [')'])) =
        "(".toList ++ (w₁ ++ (x ++ (w₂ ++ [','])) ++ (w₃ ++ (y ++ (w₄ ++ [')'])))) := by simp
    refine ⟨_, cut, ?_⟩
    refine ⟨p.x, w₁ ++ (x ++ (w₂ ++ [','])), _, rfl, ⟨w₁, x, w₂, rfl, hw₁, hx, hw₂⟩, ?_⟩
    exact ⟨p.y, rfl, w₃, y, w₄, rfl, hw₃, hy, hw₄⟩

theorem Point.writtenAs_write (p : Point) {l : Layout} (h : l.Blank) :
    p.WrittenAs (p.write l).toList := by
  refine ⟨l.beforeX.toList, Nat.toDigits 10 p.x.toNat, l.afterX.toList, l.beforeY.toList,
    Nat.toDigits 10 p.y.toNat, l.afterY.toList, ?_, Text.numeral_toDigits _,
    Text.numeral_toDigits _, by simpa [Layout.Blank] using h⟩
  simp [Point.write]

/-- A text is read as a point when it is one in the format, and only then; and whatever white space
a point is laid out with, it is read back. -/
theorem points_of_texts :
    (∀ text (p : Point), Readable.read? text = some p ↔ p.WrittenAs text.toList) ∧
    ∀ (p : Point) (l : Point.Layout), l.Blank → Readable.read? (p.write l) = some p := by
  have read (text : String) (p : Point) :
      Readable.read? text = some p ↔ p.WrittenAs text.toList := recognises_point.run_iff
  refine ⟨read, ?_⟩
  intro p l h
  rw [read]
  exact p.writtenAs_write h

theorem points_of_texts_lines :
    let p : Point := ⟨18446744073709551615, 0⟩
    let l : Point.Layout := ⟨"\n", "\u3000", "", " \t\n"⟩
    l.Blank ∧ p.write l = "(\n18446744073709551615\u3000,0 \t\n)" ∧
      Readable.read? (p.write l) = some p ∧ ∀ p : Point, ¬ p.WrittenAs "(1,2) ".toList := by
  intro p l
  have blank : l.Blank := by
    unfold Point.Layout.Blank
    decide
  have written : p.write l = "(\n18446744073709551615\u3000,0 \t\n)" := by decide +kernel
  have refused : (Readable.read? "(1,2) " : Option Point) = none := by decide +kernel
  refine ⟨blank, written, points_of_texts.2 p l blank, ?_⟩
  intro q
  rw [← points_of_texts.1, refused]
  nofun

end TextGrammar.Format

import TextGrammar.Proofs.Positions
import TextGrammar.Proofs.Spans

/-! Scalars taken by count. A parser that takes them one at a time goes as far as a cursor that walks by
the count, and fails where the walk is refused; what it collects on the way is the text that the walk
went over. -/
namespace TextGrammar.Parser
open Cursor (between)

def scalars : (count : Nat) → Parser (List Char)
  | 0 => pure []
  | count + 1 => do
    let x ← scalar
    let xs ← scalars count
    return x :: xs

theorem parse_scalars (count : Nat) (before ahead : List Char) :
    (scalars count).parse (between before ahead) =
      if count ≤ ahead.length then
        some (ahead.take count, between (before ++ ahead.take count) (ahead.drop count))
      else none := by
  induction count generalizing before ahead with
  | zero => simp [scalars]
  | succ count ih =>
    rw [scalars]
    cases ahead with
    | nil => simp
    | cons x xs =>
      rw [parse_bind_of_match (parse_scalar_cons before x xs), parse_bind, ih]
      by_cases le : count ≤ xs.length <;> simp [le]

theorem parse_scalars_eq (count : Nat) {c : Cursor} (hc : c.Placed) :
    (scalars count).parse c = (c.advance? count).bind fun e =>
      (c.textTo? e).map fun text => (text.toList, e) := by
  obtain ⟨before, ahead, rfl⟩ := hc
  rw [parse_scalars, Cursor.advance?_between]
  split
  case isTrue =>
    have text := Cursor.textTo?_between before (ahead.take count) (ahead.drop count)
    rw [List.take_append_drop] at text
    simp [text]
  case isFalse => rfl

theorem scalars_add (m n : Nat) :
    scalars (m + n) = do
      let xs ← scalars m
      let ys ← scalars n
      return xs ++ ys := by
  induction m with
  | zero => simp [scalars]
  | succ m ih => simp [Nat.succ_add, scalars, ih]

/-- To take scalars by count is to walk by the count: the one fails where the other is refused, they end
at one cursor, and what was collected is the text between the ends, whether it was collected at once or
in parts. -/
theorem scalars_of_walk (count : Nat) {c : Cursor} (hc : c.Reachable) :
    (((scalars count).parse c).isSome ↔ (c.advance? count).isSome) ∧
    (∀ xs e, (scalars count).parse c = some (xs, e) ↔
      c.advance? count = some e ∧ c.textTo? e = some (String.ofList xs)) ∧
    ∀ m n, m + n = count → scalars count = do
      let xs ← scalars m
      let ys ← scalars n
      return xs ++ ys := by
  have hc := Cursor.reachable_iff_placed.1 hc
  have parse := parse_scalars_eq count hc
  refine ⟨?_, ?_, ?_⟩
  · rw [parse]
    cases moved : c.advance? count with
    | none => rfl
    | some e =>
      -- a walk never ends before its start, so there is a text between the two
      obtain ⟨he, same⟩ := Cursor.placed_of_advance? hc moved
      have position := Cursor.position_of_advance? hc moved
      rw [Option.bind_some, Option.isSome_map, Cursor.isSome_textTo?_iff hc he same]
      simp [position]
  · intro xs e
    rw [parse, Option.bind_eq_some_iff]
    constructor
    · rintro ⟨d, moved, found⟩
      obtain ⟨text, cut, same⟩ := Option.map_eq_some_iff.1 found
      cases same
      rw [String.ofList_toList]
      exact ⟨moved, cut⟩
    · rintro ⟨moved, cut⟩
      refine ⟨e, moved, ?_⟩
      rw [cut, Option.map_some, String.toList_ofList]
  · rintro m n rfl
    exact scalars_add m n

theorem scalars_of_walk_wide :
    let c := between ['x'] "é🦀b".toList
    let e := between "xé🦀".toList ['b']
    c.Reachable ∧ c.advance? 2 = some e ∧ (scalars 2).parse c = some (['é', '🦀'], e) ∧
      (do let xs ← scalars 1; let ys ← scalars 1; return xs ++ ys : Parser (List Char)).parse c =
        some (['é', '🦀'], e) ∧
      c.advance? 4 = none ∧ ((scalars 4).parse c).isSome = false := by
  intro c e
  have hc : c.Reachable := Cursor.reachable_between _ _
  obtain ⟨-, taken, parts⟩ := scalars_of_walk 2 hc
  obtain ⟨refused, -, -⟩ := scalars_of_walk 4 hc
  have moved : c.advance? 2 = some e := by decide +kernel
  have short : c.advance? 4 = none := by decide +kernel
  have matched := (taken ['é', '🦀'] e).2 ⟨moved, by decide +kernel⟩
  refine ⟨hc, moved, matched, ?_, short, ?_⟩
  · rw [← parts 1 1 rfl, matched]
  · rw [Bool.eq_false_iff, ne_eq, refused, short]
    exact Bool.false_ne_true

end TextGrammar.Parser

import Mathlib.Logic.Function.Iterate
import TextGrammar.Proofs.Consumption
import TextGrammar.Proofs.Reachability

/-! How far a count goes. A walk by a count is that many single steps, and it is refused when fewer
scalars are ahead, by however much the count exceeds them. Walks add up. A place in a text has one
cursor, so that a cursor is known by its text and its position. -/
namespace TextGrammar.Cursor
variable {c d e : Cursor} {count : Nat}

theorem advance?_succ (c : Cursor) (count : Nat) :
    c.advance? (count + 1) = if c.atEnd then none else c.next.advance? count := rfl

theorem eq_iterate_of_advance? (h : c.advance? count = some e) : e = next^[count] c := by
  induction count generalizing c with
  | zero =>
    rw [advance?, Option.some_inj] at h
    exact h.symm
  | succ count ih =>
    rw [advance?_succ] at h
    split at h
    case isTrue => contradiction
    case isFalse =>
      rw [Function.iterate_succ_apply]
      exact ih h

theorem iterate_next (before mid after : List Char) :
    next^[mid.length] (between before (mid ++ after)) = between (before ++ mid) after :=
  (eq_iterate_of_advance? (advance?_between_append before mid after)).symm

theorem placed_iterate_next (hc : c.Placed) (count : Nat) : (next^[count] c).Placed := by
  induction count with
  | zero => exact hc
  | succ count ih =>
    rw [Function.iterate_succ_apply']
    exact placed_next ih

theorem advance?_add (c : Cursor) (a b : Nat) :
    c.advance? (a + b) = (c.advance? a).bind fun d => d.advance? b := by
  induction a generalizing c with
  | zero => simp [advance?]
  | succ a ih =>
    rw [Nat.succ_add, advance?_succ, advance?_succ]
    split
    case isTrue => rfl
    case isFalse => exact ih c.next

theorem isSome_advance?_iff (hc : c.Placed) :
    (c.advance? count).isSome ↔ count ≤ c.rest.length := by
  obtain ⟨before, ahead, rfl⟩ := hc
  rw [advance?_between, Option.isSome_ite, rest_between, String.length_ofList]

theorem position_of_advance? (hc : c.Placed) (h : c.advance? count = some e) :
    e.position = c.position + count := by
  obtain ⟨before, ahead, rfl⟩ := hc
  rw [advance?_between] at h
  split at h
  case isTrue le =>
    cases h
    simp [Nat.min_eq_left le]
  case isFalse => contradiction

theorem isSome_atPosition?_iff {source : String} {position : Nat} :
    (atPosition? source position).isSome ↔ position ≤ source.length := by
  rw [atPosition?_eq, Option.isSome_ite]

theorem scalar?_of_atPosition? {source : String} {position : Nat}
    (h : atPosition? source position = some e) : e.scalar? = source.toList[position]? := by
  rw [atPosition?_eq] at h
  split at h
  case isTrue =>
    cases h
    rw [scalar?_between, List.head?_drop]
  case isFalse => contradiction

/-- Whichever way a cursor was come by, its position leads to it. -/
theorem atPosition?_position (hc : c.Placed) : atPosition? c.source c.position = some c := by
  obtain ⟨before, ahead, rfl⟩ := hc
  exact atPosition?_length before ahead

theorem eq_iff_position_eq (hc : c.Placed) (hd : d.Placed) (same : d.source = c.source) :
    d = c ↔ d.position = c.position := by
  constructor
  · intro h
    rw [h]
  · intro h
    have found := atPosition?_position hd
    rw [same, h, atPosition?_position hc] at found
    exact (Option.some.inj found).symm

/-- A walk reaches as far as there are scalars ahead and no further, step by step, and in parts as
well as at once; a place is found for every position up to the length of the text; and a cursor is
the one that is found for its position. -/
theorem exact_positions (hc : c.Reachable) :
    (∀ n, ((c.advance? n).isSome ↔ n ≤ c.rest.length) ∧
      ∀ e, c.advance? n = some e →
        e = next^[n] c ∧ e.source = c.source ∧ e.position = c.position + n) ∧
    (∀ a b, (((c.advance? a).bind fun d => d.advance? b).isSome ↔ a + b ≤ c.rest.length) ∧
      ((c.advance? a).bind fun d => d.advance? b) = c.advance? (a + b)) ∧
    (∀ source p, ((atPosition? source p).isSome ↔ p ≤ source.length) ∧
      ∀ e, atPosition? source p = some e →
        e.scalar? = source.toList[p]? ∧ (e.scalar? = none ↔ p = source.length)) ∧
    atPosition? c.source c.position = some c ∧
    ∀ d, d.Reachable → d.source = c.source → (d = c ↔ d.position = c.position) := by
  have placed := reachable_iff_placed.1 hc
  refine ⟨?_, ?_, ?_, atPosition?_position placed, ?_⟩
  · intro n
    refine ⟨isSome_advance?_iff placed, ?_⟩
    intro e h
    exact ⟨eq_iterate_of_advance? h, (placed_of_advance? placed h).2, position_of_advance? placed h⟩
  · intro a b
    rw [← advance?_add]
    exact ⟨isSome_advance?_iff placed, rfl⟩
  · intro source p
    refine ⟨isSome_atPosition?_iff, ?_⟩
    intro e h
    have scalar := scalar?_of_atPosition? h
    refine ⟨scalar, ?_⟩
    have le : p ≤ source.length := isSome_atPosition?_iff.1 (Option.isSome_of_eq_some h)
    rw [scalar, List.getElem?_eq_none_iff, String.length_toList]
    omega
  · intro d hd same
    exact eq_iff_position_eq placed (reachable_iff_placed.1 hd) same

theorem exact_positions_wide :
    let c := between ['é'] "🦀x".toList
    c.Reachable ∧ c.advance? 18446744073709551615 = none ∧
      ((c.advance? 1).bind fun d => d.advance? 2) = none ∧
      c.advance? 2 = some (next^[2] c) ∧ (next^[2] c).position = 3 ∧
      atPosition? "é🦀x" 1 = some c ∧ (atPosition? "é🦀x" 4).isSome = false := by
  intro c
  have hc : c.Reachable := reachable_between _ _
  obtain ⟨walks, parts, places, found, -⟩ := exact_positions hc
  have ahead : c.rest.length = 2 := by decide +kernel
  rw [ahead] at walks parts
  obtain ⟨e, moved⟩ := Option.isSome_iff_exists.1 ((walks 2).1.2 (Nat.le_refl 2))
  obtain ⟨rfl, -, position⟩ := (walks 2).2 e moved
  refine ⟨hc, ?_, ?_, moved, position, found, ?_⟩
  · rw [← Option.not_isSome_iff_eq_none, (walks _).1]
    omega
  · rw [← Option.not_isSome_iff_eq_none, (parts 1 2).1]
    omega
  · rw [Bool.eq_false_iff, ne_eq, (places _ _).1]
    decide

end TextGrammar.Cursor

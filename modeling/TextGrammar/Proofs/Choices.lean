import TextGrammar.Parser.Primitive

/-! Choices. An alternative is chosen when it matches where the choice stands, whatever comes of it
further on. So a first stage that two alternatives share can be read once for both, but a stage
behind a choice is not the same as that stage behind each alternative: the choice is not made again
when what follows it fails. -/
namespace TextGrammar.Parser
open Cursor (between)

section
variable {p q : Parser α} {f g : α → Parser β} {c : Cursor}

/-- `p` matches at `c`, and what follows by `f` does not match behind it. -/
def Strands (p : Parser α) (f : α → Parser β) (c : Cursor) : Prop :=
  ∃ a d, p.parse c = some (a, d) ∧ (f a).parse d = none

theorem bind_orElse_bind (p : Parser α) (f g : α → Parser β) :
    ((p >>= f) <|> (p >>= g)) = p >>= fun a => f a <|> g a := by
  ext1 c
  rw [parse_orElse]
  cases first : p.parse c with
  | none => simp only [parse_bind_of_no_match first, Option.or_none]
  | some r => simp only [parse_bind_of_match first, parse_orElse]

theorem Strands.parse_orElse_bind_eq_none (h : p.Strands f c) (q : Parser α) :
    ((p <|> q) >>= f).parse c = none := by
  obtain ⟨a, d, first, second⟩ := h
  have chosen : (p <|> q).parse c = some (a, d) := by
    rw [parse_orElse, first, Option.some_or]
  rw [parse_bind_of_match chosen, second]

theorem Strands.parse_bind_orElse_bind (h : p.Strands f c) (q : Parser α) :
    ((p >>= f) <|> (q >>= f)).parse c = (q >>= f).parse c := by
  obtain ⟨a, d, first, second⟩ := h
  rw [parse_orElse, parse_bind_of_match first, second, Option.none_or]

theorem parse_orElse_bind_of_not_strands (h : ¬ p.Strands f c) (q : Parser α) :
    ((p <|> q) >>= f).parse c = ((p >>= f) <|> (q >>= f)).parse c := by
  cases first : p.parse c with
  | none => simp only [parse_bind, parse_orElse, first, Option.none_or, Option.bind_none]
  | some r =>
    obtain ⟨a, d⟩ := r
    have chosen : (p <|> q).parse c = some (a, d) := by
      rw [parse_orElse, first, Option.some_or]
    rw [parse_bind_of_match chosen, parse_orElse, parse_bind_of_match first]
    -- what follows the first alternative matches, so the second is asked for on neither side
    cases second : (f a).parse d with
    | none => exact absurd ⟨a, d, first, second⟩ h
    | some s => rw [Option.some_or]

end

def choice : List (Parser α) → Parser α
  | [] => fail
  | p :: ps => ps.foldl Parser.orElse p

theorem parse_foldl_orElse (ps : List (Parser α)) (p : Parser α) (c : Cursor) :
    (ps.foldl Parser.orElse p).parse c = (p.parse c).or (ps.findSome? fun q => q.parse c) := by
  induction ps generalizing p with
  | nil => exact (Option.or_none).symm
  | cons q ps ih =>
    rw [List.foldl_cons, ih, orElse_eq, parse_orElse, List.findSome?_cons, Option.or_assoc]
    cases q.parse c <;> rfl

theorem parse_choice (ps : List (Parser α)) (c : Cursor) :
    (choice ps).parse c = ps.findSome? fun p => p.parse c := by
  cases ps with
  | nil => rfl
  | cons p ps =>
    rw [choice, parse_foldl_orElse, List.findSome?_cons]
    cases p.parse c <;> rfl

theorem parse_choice_eq_some_iff {ps : List (Parser α)} {c : Cursor} {r : α × Cursor} :
    (choice ps).parse c = some r ↔ ∃ (i : Nat) (p : Parser α), ps[i]? = some p ∧
      p.parse c = some r ∧ ∀ j < i, ∀ q, ps[j]? = some q → q.parse c = none := by
  rw [parse_choice, List.findSome?_eq_some_iff]
  constructor
  · rintro ⟨tried, p, left, rfl, matched, failed⟩
    refine ⟨tried.length, p, by simp, matched, ?_⟩
    intro j lt q hq
    rw [List.getElem?_append_left lt] at hq
    exact failed q (List.mem_of_getElem? hq)
  · rintro ⟨i, p, hp, matched, failed⟩
    obtain ⟨lt, rfl⟩ := List.getElem?_eq_some_iff.1 hp
    refine ⟨ps.take i, ps[i], ps.drop (i + 1), ?_, matched, ?_⟩
    · rw [List.getElem_cons_drop, List.take_append_drop]
    · intro q hq
      obtain ⟨j, hj, rfl⟩ := List.mem_take_iff_getElem.1 hq
      exact failed j (by omega) _ (List.getElem?_eq_getElem (by omega))

/-- A shared first stage can be taken out of a choice. What follows a choice cannot always be moved
into it, but it can be moved out: a match behind the choice is one behind each alternative, and the
two differ where the first alternative matches, what follows it fails, and the second alternative
with what follows matches. There it is the choice in front that fails. -/
theorem choice_distributes (p q : Parser α) (f g : α → Parser β) (c : Cursor) :
    ((p >>= f) <|> (p >>= g)).parse c = (p >>= fun a => f a <|> g a).parse c ∧
    (∀ b e, ((p <|> q) >>= f).parse c = some (b, e) →
      ((p >>= f) <|> (q >>= f)).parse c = some (b, e)) ∧
    (((p <|> q) >>= f).parse c ≠ ((p >>= f) <|> (q >>= f)).parse c ↔
      p.Strands f c ∧ ((q >>= f).parse c).isSome) ∧
    (p.Strands f c → ((p <|> q) >>= f).parse c = none ∧
      ((p >>= f) <|> (q >>= f)).parse c = (q >>= f).parse c) := by
  refine ⟨by rw [bind_orElse_bind], ?_, ?_, ?_⟩
  · intro b e matched
    by_cases stranded : p.Strands f c
    · rw [stranded.parse_orElse_bind_eq_none q] at matched
      contradiction
    · rw [← parse_orElse_bind_of_not_strands stranded q]
      exact matched
  · by_cases stranded : p.Strands f c
    · rw [stranded.parse_orElse_bind_eq_none q, stranded.parse_bind_orElse_bind q,
        Option.isSome_iff_ne_none, ne_comm]
      exact (and_iff_right stranded).symm
    · rw [parse_orElse_bind_of_not_strands stranded q]
      simp [stranded]
  · intro stranded
    exact ⟨stranded.parse_orElse_bind_eq_none q, stranded.parse_bind_orElse_bind q⟩

theorem choice_distributes_back :
    let p := exactly "for"
    let q := exactly "form"
    let f : Unit → Parser Char := fun _ =>
      ⟨fun d => if d.rest.startsWith "at" then some ('!', .start d.source) else none⟩
    let c := between [] "format".toList
    let d := between [] "forat".toList
    p.Strands f c ∧ ((q >>= f).parse c).isSome ∧ ((p <|> q) >>= f).parse c = none ∧
      ((p >>= f) <|> (q >>= f)).parse c = some ('!', c) ∧
      ((p <|> q) >>= f).parse d = some ('!', d) ∧
      ((p >>= f) <|> (q >>= f)).parse d = some ('!', d) := by
  intro p q f c d
  -- behind the shorter word, `at` follows in the second text only
  obtain ⟨-, -, gap, differ⟩ := choice_distributes p q f f c
  obtain ⟨-, out, -, -⟩ := choice_distributes p q f f d
  have refused : ((p <|> q) >>= f).parse c ≠ ((p >>= f) <|> (q >>= f)).parse c := by
    decide +kernel
  have second : (q >>= f).parse c = some ('!', c) := by decide +kernel
  have whole : ((p <|> q) >>= f).parse d = some ('!', d) := by decide +kernel
  obtain ⟨stranded, matched⟩ := gap.1 refused
  obtain ⟨failed, apart⟩ := differ stranded
  exact ⟨stranded, matched, failed, apart.trans second, whole, out _ _ whole⟩

end TextGrammar.Parser

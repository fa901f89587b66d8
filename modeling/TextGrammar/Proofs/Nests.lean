import TextGrammar.Proofs.Equations
import TextGrammar.Proofs.Languages
import TextGrammar.Proofs.Reachability

/-! Nests of brackets in closed form. A level that does not find its closing bracket gives back what
the levels inside it have read, so that a run of opening brackets is read as one nest, which takes
all of them, or not at all. -/
namespace TextGrammar.Format.Nesting
open TextGrammar.Parser (exactly)
open Cursor (between)
open Text (Stops)

theorem terminating : rules.Terminating :=
  ⟨Parser.forward_nesting, Rules.guarded_nesting⟩

theorem parse_eq {c : Cursor} (hc : c.Placed) :
    parser.parse c = Parser.parse (((exactly "(" >>= fun _ => parser) >>= fun inner =>
      (fun _ => inner + 1) <$> exactly ")") <|> pure 0) c :=
  terminating.parse_rule .depth hc

theorem parse_of_stops {ahead : List Char} (h : Stops (· == '(') ahead) (before : List Char) :
    parser.parse (between before ahead) = some (0, between before ahead) := by
  have refused := Parser.parse_exactly_of_stops "(" '(' rfl h before
  rw [parse_eq (Cursor.placed_between _ _)]
  simp [refused]

theorem parse_of_closed {inner : Nat} {before mid ahead after : List Char}
    (h : parser.parse (between (before ++ ['(']) ahead) =
      some (inner, between mid (')' :: after))) :
    parser.parse (between before ('(' :: ahead)) =
      some (inner + 1, between (mid ++ [')']) after) := by
  have opens := Parser.parse_exactly_cons "(" '(' rfl before ahead
  have closes := Parser.parse_exactly_cons ")" ')' rfl mid after
  rw [parse_eq (Cursor.placed_between _ _)]
  simp [opens, h, closes]

theorem parse_of_open {inner : Nat} {before mid ahead after : List Char}
    (h : parser.parse (between (before ++ ['(']) ahead) = some (inner, between mid after))
    (stops : Stops (· == ')') after) :
    parser.parse (between before ('(' :: ahead)) = some (0, between before ('(' :: ahead)) := by
  have opens := Parser.parse_exactly_cons "(" '(' rfl before ahead
  have refused := Parser.parse_exactly_of_stops ")" ')' rfl stops mid
  rw [parse_eq (Cursor.placed_between _ _)]
  simp [opens, h, refused]

theorem parse_brackets {m k : Nat} {after : List Char} (hclosed : Stops (· == ')') after)
    (hopened : Stops (· == '(') (List.replicate k ')' ++ after)) (before : List Char) :
    parser.parse (between before (List.replicate m '(' ++ (List.replicate k ')' ++ after))) =
      if m ≤ k then
        some (m, between (before ++ (List.replicate m '(' ++ List.replicate m ')'))
          (List.replicate (k - m) ')' ++ after))
      else some (0, between before (List.replicate m '(' ++ (List.replicate k ')' ++ after))) := by
  induction m generalizing before with
  | zero => simp [parse_of_stops hopened]
  | succ m ih =>
    have inside := ih (before ++ ['('])
    rw [List.replicate_succ, List.cons_append]
    rcases Nat.lt_trichotomy m k with lt | rfl | lt
    · -- inside, all levels were closed, and a bracket is left for this one
      have next : k - m = k - (m + 1) + 1 := by omega
      rw [if_pos (by omega), next, List.replicate_succ, List.cons_append] at inside
      rw [parse_of_closed inside, if_pos (by omega)]
      simp [List.replicate_succ']
    · rw [if_pos (Nat.le_refl m), Nat.sub_self] at inside
      rw [if_neg (by omega)]
      exact parse_of_open inside hclosed
    · -- inside, nothing was read, and the next bracket opens
      obtain ⟨d, rfl⟩ := Nat.exists_eq_add_of_lt lt
      rw [if_neg (by omega)] at inside ⊢
      exact parse_of_open inside rfl

def opening (ahead : List Char) : Nat :=
  (ahead.takeWhile (· == '(')).length

/-- How many brackets close right after those that open. -/
def closing (ahead : List Char) : Nat :=
  ((ahead.dropWhile (· == '(')).takeWhile (· == ')')).length

theorem takeWhile_eq_replicate (x : Char) (ahead : List Char) :
    ahead.takeWhile (· == x) = List.replicate (ahead.takeWhile (· == x)).length x := by
  apply List.eq_replicate_of_mem
  intro y hy
  simpa using List.mem_takeWhile_imp hy

theorem exists_brackets (ahead : List Char) :
    ∃ after, ahead = List.replicate (opening ahead) '(' ++
        (List.replicate (closing ahead) ')' ++ after) ∧
      Stops (· == ')') after ∧ Stops (· == '(') (List.replicate (closing ahead) ')' ++ after) := by
  refine ⟨(ahead.dropWhile (· == '(')).dropWhile (· == ')'), ?_, Text.stops_dropWhile _ _, ?_⟩
  · rw [opening, closing, ← takeWhile_eq_replicate, ← takeWhile_eq_replicate,
      List.takeWhile_append_dropWhile, List.takeWhile_append_dropWhile]
  · rw [closing, ← takeWhile_eq_replicate, List.takeWhile_append_dropWhile]
    exact Text.stops_dropWhile _ _

theorem run_eq_some_iff {text : String} {n : Nat} : parser.run text = some n ↔
    text.toList = List.replicate n '(' ++ List.replicate n ')' := by
  rw [Parser.run_eq_some_iff]
  constructor
  · rintro ⟨e, matched, left⟩
    obtain ⟨after, cut, hclosed, hopened⟩ := exists_brackets text.toList
    have result := parse_brackets (m := opening text.toList) hclosed hopened []
    rw [← cut, matched] at result
    split at result
    case isTrue le =>
      cases result
      simp only [Cursor.rest_between, String.ofList_eq_empty_iff, List.append_eq_nil_iff,
        List.replicate_eq_nil_iff] at left
      have same : closing text.toList = opening text.toList := by omega
      rw [same, left.2, List.append_nil] at cut
      exact cut
    case isFalse lt =>
      cases result
      rw [Cursor.rest_between, String.ofList_eq_empty_iff] at left
      simp [opening, left] at lt
  · intro balanced
    have result := parse_brackets (m := n) (k := n) Text.stops_nil (by cases n <;> rfl) []
    rw [List.append_nil, ← balanced, if_pos (Nat.le_refl n), Nat.sub_self] at result
    exact ⟨_, result, Cursor.rest_between _ _⟩

theorem advance?_brackets {m k : Nat} (le : m ≤ k) (before after : List Char) :
    (between before (List.replicate m '(' ++ (List.replicate k ')' ++ after))).advance? (2 * m) =
      some (between (before ++ (List.replicate m '(' ++ List.replicate m ')'))
        (List.replicate (k - m) ')' ++ after)) := by
  have whole := Cursor.advance?_between_append before
    (List.replicate m '(' ++ List.replicate m ')') (List.replicate (k - m) ')' ++ after)
  have size : (List.replicate m '(' ++ List.replicate m ')').length = 2 * m := by
    rw [List.length_append, List.length_replicate, List.length_replicate]
    omega
  have closed : List.replicate k ')' = List.replicate m ')' ++ List.replicate (k - m) ')' := by
    rw [List.replicate_append_replicate, Nat.add_sub_cancel' le]
  rw [closed, ← size]
  simpa only [List.append_assoc] using whole

/-- A whole text is read when it is as many closing brackets behind as many opening ones; and
anywhere, brackets that open are read with as many that close, or nothing is. -/
theorem balanced_nests :
    (∀ text n, parser.run text = some n ↔
      text.toList = List.replicate n '(' ++ List.replicate n ')') ∧
    ∀ c, c.Reachable →
      let m := opening c.rest.toList
      let k := closing c.rest.toList
      rules.Reads (c.rest.length + 1) (.rule .depth) c (parser.parse c) ∧
      (m ≤ k → ∃ e, c.advance? (2 * m) = some e ∧ parser.parse c = some (m, e)) ∧
      (k < m → parser.parse c = some (0, c)) := by
  refine ⟨fun text n => run_eq_some_iff, ?_⟩
  intro c hc m k
  have placed := Cursor.reachable_iff_placed.1 hc
  refine ⟨terminating.reads_parse trivial placed, ?_⟩
  obtain ⟨before, ahead, rfl⟩ := placed
  obtain ⟨after, cut, hclosed, hopened⟩ := exists_brackets ahead
  have result := parse_brackets (m := m) hclosed hopened before
  subst m k
  rw [Cursor.toList_rest_between] at result ⊢
  rw [← cut] at result
  constructor
  · intro le
    have moved := advance?_brackets le before after
    rw [← cut] at moved
    rw [if_pos le] at result
    exact ⟨_, moved, result⟩
  · intro lt
    rw [if_neg (Nat.not_le_of_lt lt)] at result
    exact result

theorem balanced_nests_open :
    let c := between ['é'] ['(', '(', '(', ')', ')', 'x']
    c.Reachable ∧ closing c.rest.toList < opening c.rest.toList ∧
      parser.parse c = some (0, c) := by
  intro c
  have hc : c.Reachable := Cursor.reachable_between _ _
  have lt : closing c.rest.toList < opening c.rest.toList := by decide +kernel
  obtain ⟨-, -, open_read⟩ := balanced_nests.2 c hc
  exact ⟨hc, lt, open_read lt⟩

end TextGrammar.Format.Nesting

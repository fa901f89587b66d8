import Mathlib.Algebra.GroupWithZero.Nat
import TextGrammar.Format.Recursive
import TextGrammar.Proofs.Equations
import TextGrammar.Proofs.Languages
import TextGrammar.Proofs.Reachability

/-! Sums read as far as they go. A sum is a chain of numbers with plus signs between them; when no
number follows a plus sign, or one that is too large, the sign and the white space around it are
given back, and the chain that was read is the longest there is. -/
namespace TextGrammar.Format.Sum
open TextGrammar.Parser (number exactly blanks Recognises)
open Cursor (between)
open Text (Stops Numeral isBlank)

/-- Texts that are written for numbers with plus signs between them. White space may surround the
signs, and the numbers are those of 64 bits. -/
inductive Chain : List Char → List UInt64 → Prop where
  | one {n : UInt64} {digits : List Char} : Numeral n.toNat digits → Chain digits [n]
  | more {n : UInt64} {digits w w' text : List Char} {numbers : List UInt64} :
      Numeral n.toNat digits → (∀ x ∈ w, isBlank x) → (∀ x ∈ w', isBlank x) →
      Chain text numbers → Chain (digits ++ (w ++ '+' :: (w' ++ text))) (n :: numbers)

def Continues (after : List Char) : Prop :=
  ∃ w w' text numbers after', after = w ++ '+' :: (w' ++ (text ++ after')) ∧
    (∀ x ∈ w, isBlank x) ∧ (∀ x ∈ w', isBlank x) ∧ Chain text numbers ∧ Stops Char.isDigit after'

/-- What follows makes a chain no longer. -/
def Ends (after : List Char) : Prop :=
  Stops Char.isDigit after ∧ ¬ Continues after

theorem ends_nil : Ends [] := by
  refine ⟨rfl, ?_⟩
  rintro ⟨w, w', text, numbers, after', cut, -⟩
  simp at cut

theorem stops_isBlank_plus (ahead : List Char) : Stops isBlank ('+' :: ahead) := rfl

theorem stops_isDigit_plus {w : List Char} (hw : ∀ x ∈ w, isBlank x) (ahead : List Char) :
    Stops Char.isDigit (w ++ '+' :: ahead) := by
  have plus : Stops Char.isDigit ('+' :: ahead) := rfl
  exact plus.append fun x hx => Text.not_isDigit_of_isBlank (hw x hx)

theorem Chain.exists_numeral {mid after : List Char} {numbers : List UInt64}
    (h : Chain mid numbers) (stops : Stops Char.isDigit after) :
    ∃ (n : UInt64) (digits rest : List Char), mid ++ after = digits ++ rest ∧
      Numeral n.toNat digits ∧ Stops Char.isDigit rest := by
  cases h with
  | one hn => exact ⟨_, _, _, rfl, hn, stops⟩
  | more hn hw _ _ =>
    refine ⟨_, _, _, List.append_assoc .., hn, ?_⟩
    rw [List.append_assoc, List.cons_append]
    exact stops_isDigit_plus hw _

theorem Chain.stops_isBlank {mid : List Char} {numbers : List UInt64} (h : Chain mid numbers)
    (after : List Char) : Stops isBlank (mid ++ after) := by
  cases h with
  | one hn => exact hn.stops_isBlank after
  | more hn _ _ _ =>
    rw [List.append_assoc]
    exact hn.stops_isBlank _

theorem exists_chain {n : UInt64} {digits rest : List Char} (hn : Numeral n.toNat digits)
    (stops : Stops Char.isDigit rest) :
    ∃ mid numbers after, digits ++ rest = mid ++ after ∧ Chain mid numbers ∧ Ends after := by
  induction h : rest.length using Nat.strong_induction_on generalizing n digits rest with
  | _ size ih =>
    subst h
    by_cases continues : Continues rest
    · -- the chain behind the sign may go on, but it begins with a number, and there is less text
      obtain ⟨w, w', text, numbers, after, rfl, hw, hw', chain, stops'⟩ := continues
      obtain ⟨m, digits', rest', cut, hm, stops''⟩ := chain.exists_numeral stops'
      have shorter : rest'.length < (w ++ '+' :: (w' ++ (text ++ after))).length := by
        rw [cut]
        simp
        omega
      obtain ⟨mid, numbers, after, cut', chain, ends⟩ := ih _ shorter hm stops'' rfl
      refine ⟨_, _, after, ?_, .more hn hw hw' chain, ends⟩
      rw [cut, cut']
      simp
    · exact ⟨digits, [n], rest, rfl, .one hn, stops, continues⟩

theorem Chain.longest {mid mid' after after' : List Char} {numbers numbers' : List UInt64}
    (h : Chain mid numbers) (ends : Ends after) (h' : Chain mid' numbers')
    (stops : Stops Char.isDigit after') (same : mid ++ after = mid' ++ after') : mid' <+: mid := by
  induction h generalizing mid' numbers' with
  | one hn =>
    cases h' with
    | one hn' =>
      obtain ⟨rfl, -⟩ := Text.run_inj hn.isDigit ends.1 hn'.isDigit stops same
      exact List.prefix_rfl
    | more hn' hw hw' chain =>
      simp only [List.append_assoc, List.cons_append] at same
      -- the other chain goes on where this one ends
      obtain ⟨-, rfl⟩ :=
        Text.run_inj hn.isDigit ends.1 hn'.isDigit (stops_isDigit_plus hw _) same
      exact absurd ⟨_, _, _, _, _, rfl, hw, hw', chain, stops⟩ ends.2
  | more hn hw hw' chain ih =>
    simp only [List.append_assoc, List.cons_append] at same
    cases h' with
    | one hn' =>
      obtain ⟨rfl, -⟩ := Text.run_inj hn.isDigit (stops_isDigit_plus hw _) hn'.isDigit stops same
      exact List.prefix_append _ _
    | more hn' hv hv' chain' =>
      simp only [List.append_assoc, List.cons_append] at same
      obtain ⟨rfl, signs⟩ := Text.run_inj hn.isDigit (stops_isDigit_plus hw _) hn'.isDigit
        (stops_isDigit_plus hv _) same
      obtain ⟨rfl, blanks⟩ :=
        Text.run_inj hw (stops_isBlank_plus _) hv (stops_isBlank_plus _) signs
      obtain ⟨rfl, chains⟩ := Text.run_inj hw' (chain.stops_isBlank _) hv'
        (chain'.stops_isBlank _) (List.cons.inj blanks).2
      obtain ⟨left, rfl⟩ := ih chain' chains
      exact ⟨left, by simp⟩

theorem forward : rules.Each Parser.Forward := by
  intro α r
  cases r
  simp [rules, Parser.forward_pure]

theorem terminating : rules.Terminating where
  forward := forward
  guarded r := by
    cases r
    have plus : rules.Consumes (.exactly "+") :=
      Rules.consumes_exactly forward (by decide)
    exact ⟨trivial, .inr fun _ => ⟨⟨trivial, .inr fun _ => ⟨trivial, .inl plus⟩⟩, trivial⟩⟩

def plus : Parser Unit := do
  blanks
  exactly "+"
  blanks

theorem recognises_plus : plus.Recognises fun _ mid after =>
    ∃ w w', mid = w ++ '+' :: w' ∧ (∀ x ∈ w, isBlank x) ∧ (∀ x ∈ w', isBlank x) ∧
      Stops isBlank after := by
  have stages := Recognises.blanks_bind <| Recognises.exactly_bind "+" Parser.recognises_blanks
  apply stages.congr
  intro _ mid after
  constructor
  · intro taken
    obtain ⟨w, behindGap, rfl, hw, -, taken⟩ := taken
    obtain ⟨w', rfl, hw', stops⟩ := taken
    exact ⟨w, w', rfl, hw, hw', stops⟩
  · intro written
    obtain ⟨w, w', rfl, hw, hw', stops⟩ := written
    refine ⟨w, '+' :: w', rfl, hw, stops_isBlank_plus _, ?_⟩
    exact ⟨w', rfl, hw', stops⟩

def tail (first : UInt64) : Parser UInt64 :=
  plus >>= fun _ => (first + ·) <$> parser

theorem parse_eq {c : Cursor} (hc : c.Placed) :
    parser.parse c = Parser.parse (number >>= fun first => tail first <|> pure first) c := by
  simp only [tail, plus, bind_assoc]
  exact terminating.parse_rule .sum hc

theorem parse_of_number {c d : Cursor} (hc : c.Placed) {first : UInt64}
    (h : number.parse c = some (first, d)) :
    parser.parse c = ((tail first).parse d).or (some (first, d)) := by
  rw [parse_eq hc]
  simp [h]

theorem parse_eq_none {c : Cursor} (hc : c.Placed) :
    parser.parse c = none ↔ number.parse c = none := by
  rw [parse_eq hc, Parser.parse_bind]
  cases number.parse c <;> simp

theorem parse_tail_of_parse (first : UInt64) {sum : UInt64} {before w w' ahead : List Char}
    {e : Cursor} (hw : ∀ x ∈ w, isBlank x) (hw' : ∀ x ∈ w', isBlank x) (stops : Stops isBlank ahead)
    (h : parser.parse (between (before ++ (w ++ '+' :: w')) ahead) = some (sum, e)) :
    (tail first).parse (between before (w ++ '+' :: w' ++ ahead)) = some (first + sum, e) := by
  have sign := recognises_plus.parse_eq (a := ()) ⟨_, _, rfl, hw, hw', stops⟩ before
  rw [tail, Parser.parse_bind, sign]
  simp [h]

theorem parse_tail_of_ends {after : List Char} (ends : Ends after) (first : UInt64)
    (before : List Char) : (tail first).parse (between before after) = none := by
  rw [Option.eq_none_iff_forall_ne_some]
  intro r matched
  rw [tail, Parser.parse_bind, Option.bind_eq_some_iff] at matched
  obtain ⟨⟨_, d⟩, sign, sum⟩ := matched
  obtain ⟨_, ahead, rfl, rfl, w, w', rfl, hw, hw', -⟩ := (recognises_plus _ _ _ _).1 sign
  cases h : number.parse (between (before ++ (w ++ '+' :: w')) ahead) with
  | none =>
    rw [← parse_eq_none (Cursor.placed_between _ _)] at h
    simp [h] at sum
  | some r =>
    -- a number behind the sign is a chain, whatever is read behind the number
    obtain ⟨digits, after, rfl, -, hn, stops⟩ := (Parser.recognises_number _ _ _ _).1 h
    apply ends.2
    exact ⟨w, w', digits, [r.1], after, by simp, hw, hw', .one hn, stops⟩

def total (numbers : List UInt64) : UInt64 :=
  UInt64.ofNat (numbers.map UInt64.toNat).sum

theorem total_singleton (n : UInt64) : total [n] = n := by
  simp [total]

theorem total_cons (n : UInt64) (numbers : List UInt64) :
    total (n :: numbers) = n + total numbers := by
  simp [total]

theorem toNat_total (numbers : List UInt64) :
    (total numbers).toNat = (numbers.map UInt64.toNat).sum % 2 ^ 64 :=
  UInt64.toNat_ofNat'

theorem Chain.parse_eq {mid after : List Char} {numbers : List UInt64} (h : Chain mid numbers)
    (ends : Ends after) (before : List Char) :
    parser.parse (between before (mid ++ after)) =
      some (total numbers, between (before ++ mid) after) := by
  induction h generalizing before with
  | one hn =>
    have first := Parser.recognises_number.parse_eq ⟨hn, ends.1⟩ before
    rw [parse_of_number (Cursor.placed_between _ _) first, parse_tail_of_ends ends,
      total_singleton, Option.none_or]
  | @more n digits w w' text numbers hn hw hw' chain ih =>
    have first := Parser.recognises_number.parse_eq
      ⟨hn, stops_isDigit_plus hw (w' ++ (text ++ after))⟩ before
    have rest := parse_tail_of_parse n hw hw' (chain.stops_isBlank after)
      (ih (before ++ digits ++ (w ++ '+' :: w')))
    rw [List.append_assoc, List.cons_append] at rest
    have cut : digits ++ (w ++ '+' :: (w' ++ text)) ++ after =
        digits ++ (w ++ '+' :: (w' ++ (text ++ after))) := by simp
    rw [cut, parse_of_number (Cursor.placed_between _ _) first, rest, total_cons]
    simp

/-- The language of sums: chains that what follows makes no longer. -/
theorem recognises_chain : parser.Recognises fun sum mid after =>
    ∃ numbers, Chain mid numbers ∧ sum = total numbers ∧ Ends after := by
  intro before ahead sum e
  constructor
  · intro matched
    cases h : number.parse (between before ahead) with
    | none =>
      rw [← parse_eq_none (Cursor.placed_between _ _), matched] at h
      contradiction
    | some r =>
      obtain ⟨digits, rest, rfl, -, hn, stops⟩ := (Parser.recognises_number _ _ _ _).1 h
      obtain ⟨mid, numbers, after, cut, chain, ends⟩ := exists_chain hn stops
      rw [cut, chain.parse_eq ends] at matched
      cases matched
      exact ⟨mid, after, cut, rfl, numbers, chain, rfl, ends⟩
  · rintro ⟨mid, after, rfl, rfl, numbers, chain, rfl, ends⟩
    exact chain.parse_eq ends before

theorem run_eq_some_iff {text : String} {sum : UInt64} : parser.run text = some sum ↔
    ∃ numbers, Chain text.toList numbers ∧
      sum.toNat = (numbers.map UInt64.toNat).sum % 2 ^ 64 := by
  rw [recognises_chain.run_iff]
  simp only [ends_nil, and_true, ← toNat_total, UInt64.toNat_inj]

/-- A text is read as the longest chain that it begins with, which there is when it begins with a
number, and as the sum of that chain; a whole text is read when it is a chain. -/
theorem longest_chain :
    (∀ text sum, parser.run text = some sum ↔ ∃ numbers, Chain text.toList numbers ∧
      sum.toNat = (numbers.map UInt64.toNat).sum % 2 ^ 64) ∧
    ∀ c, c.Reachable →
      rules.Reads (c.rest.length + 1) (.rule .sum) c (parser.parse c) ∧
      (parser.parse c = none ↔ number.parse c = none) ∧
      ∀ sum e, parser.parse c = some (sum, e) → ∃ mid numbers,
        c.rest.toList = mid ++ e.rest.toList ∧ c.advance? mid.length = some e ∧
        Chain mid numbers ∧ Stops Char.isDigit e.rest.toList ∧
        sum.toNat = (numbers.map UInt64.toNat).sum % 2 ^ 64 ∧
        ∀ mid' numbers' after', c.rest.toList = mid' ++ after' → Chain mid' numbers' →
          Stops Char.isDigit after' → mid' <+: mid := by
  refine ⟨fun text sum => run_eq_some_iff, ?_⟩
  intro c hc
  have placed := Cursor.reachable_iff_placed.1 hc
  refine ⟨terminating.reads_parse trivial placed, parse_eq_none placed, ?_⟩
  obtain ⟨before, ahead, rfl⟩ := placed
  intro sum e matched
  obtain ⟨mid, after, rfl, rfl, numbers, chain, rfl, ends⟩ := (recognises_chain _ _ _ _).1 matched
  simp only [Cursor.rest_between, String.toList_ofList]
  refine ⟨mid, numbers, rfl, Cursor.advance?_between_append _ _ _, chain, ends.1, toNat_total _, ?_⟩
  intro mid' numbers' after' cut chain' stops
  exact chain.longest ends chain' stops cut

theorem longest_chain_overflow :
    let c := between ['é'] "1\u3000+\n2 +18446744073709551616".toList
    c.Reachable ∧ ∃ sum e, parser.parse c = some (sum, e) ∧ e.rest = " +18446744073709551616" ∧
      ∃ mid numbers, c.rest.toList = mid ++ e.rest.toList ∧ Chain mid numbers ∧
        sum.toNat = (numbers.map UInt64.toNat).sum % 2 ^ 64 := by
  intro c
  have hc : c.Reachable := Cursor.reachable_between _ _
  -- the white space around the first sign is read; that before the second is given back with it
  have matched : parser.parse c = some (3, ⟨c.source, 9, 6⟩) := by decide +kernel
  obtain ⟨-, -, read⟩ := longest_chain.2 c hc
  obtain ⟨mid, numbers, cut, -, chain, -, sum, -⟩ := read _ _ matched
  exact ⟨hc, _, _, matched, by decide +kernel, mid, numbers, cut, chain, sum⟩

end TextGrammar.Format.Sum

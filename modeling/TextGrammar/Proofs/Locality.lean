import TextGrammar.Format.Recursive
import TextGrammar.Proofs.Consumption
import TextGrammar.Proofs.Reachability
import TextGrammar.Proofs.Reading

/-! Reading looks ahead only. Neither the text before a cursor nor the place of the cursor has a
part in what is read there, so a text can be read on from any place as if it began there. -/
namespace TextGrammar

namespace Parser
open Cursor (between placed_between)

/-- The text ahead decides what `p` gives and how far it goes. -/
def SeesAhead (p : Parser α) : Prop :=
  ∃ look : String → Option (α × Nat), ∀ c, c.Placed →
    p.parse c = (look c.rest).bind fun (a, count) => (c.advance? count).map fun e => (a, e)

/-- Whatever stands before a text, `p` fails on it, or gives one value for one part of it. -/
def Local (p : Parser α) : Prop :=
  ∀ ahead, (∀ before, p.parse (between before ahead) = none) ∨
    ∃ a mid after, ahead = mid ++ after ∧
      ∀ before, p.parse (between before ahead) = some (a, between (before ++ mid) after)

theorem local_of_seesAhead {p : Parser α} (h : p.SeesAhead) : p.Local := by
  obtain ⟨look, h⟩ := h
  intro ahead
  have parse before : p.parse (between before ahead) = _ := h _ (placed_between before ahead)
  simp only [Cursor.rest_between, Cursor.advance?_between] at parse
  cases seen : look (String.ofList ahead) with
  | none =>
    left
    intro before
    rw [parse, seen]
    rfl
  | some r =>
    obtain ⟨a, count⟩ := r
    by_cases le : count ≤ ahead.length
    · right
      refine ⟨a, ahead.take count, ahead.drop count, (List.take_append_drop ..).symm, ?_⟩
      intro before
      simp [parse, seen, le]
    · left
      intro before
      simp [parse, seen, le]

theorem seesAhead_pure (a : α) : (pure a : Parser α).SeesAhead :=
  ⟨fun _ => some (a, 0), fun _ _ => rfl⟩

theorem local_fail : (fail : Parser α).Local :=
  fun _ => .inl fun _ => rfl

theorem local_scalar : scalar.Local := by
  intro ahead
  cases ahead with
  | nil => exact .inl parse_scalar_nil
  | cons x xs => exact .inr ⟨x, [x], xs, rfl, fun before => parse_scalar_cons before x xs⟩

theorem local_exactly (text : String) : (exactly text).Local := by
  intro ahead
  by_cases found : text.toList <+: ahead
  · right
    obtain ⟨after, rfl⟩ := found
    exact ⟨(), text.toList, after, rfl, fun before => parse_exactly_append text before after⟩
  · left
    intro before
    rw [parse_exactly, if_neg found]

theorem local_blanks : blanks.Local := by
  intro ahead
  right
  exact ⟨(), ahead.takeWhile Text.isBlank, ahead.dropWhile Text.isBlank,
    List.takeWhile_append_dropWhile.symm, fun before => parse_blanks before ahead⟩

theorem local_number : number.Local := by
  intro ahead
  by_cases none : ahead.takeWhile Char.isDigit = []
  · left
    intro before
    rw [parse_number, if_pos none]
  · cases h : Text.decimal? (ahead.takeWhile Char.isDigit) with
    | none =>
      left
      intro before
      rw [parse_number, if_neg none, h]
      rfl
    | some n =>
      right
      refine ⟨n, ahead.takeWhile Char.isDigit, ahead.dropWhile Char.isDigit,
        List.takeWhile_append_dropWhile.symm, ?_⟩
      intro before
      rw [parse_number, if_neg none, h]
      rfl

theorem local_textUntil {delimiter : Parser α} (h : delimiter.Local) :
    (textUntil delimiter).Local := by
  intro ahead
  right
  induction ahead with
  | nil => exact ⟨"", [], [], rfl, fun before => by simp⟩
  | cons x xs ih =>
    rcases h (x :: xs) with refused | ⟨a, mid, after, -, found⟩
    · obtain ⟨text, mid, after, rfl, next⟩ := ih
      refine ⟨String.singleton x ++ text, x :: mid, after, rfl, fun before => ?_⟩
      rw [parse_textUntil_of_no_match (refused before), next, ← List.append_cons]
      rfl
    · refine ⟨"", [], x :: xs, rfl, fun before => ?_⟩
      rw [parse_textUntil_of_match (found before), List.append_nil]

theorem local_map (f : α → β) {p : Parser α} (h : p.Local) : (f <$> p).Local := by
  intro ahead
  rcases h ahead with failed | ⟨a, mid, after, rfl, found⟩
  · left
    intro before
    rw [parse_map, failed]
    rfl
  · right
    refine ⟨f a, mid, after, rfl, fun before => ?_⟩
    rw [parse_map, found]
    rfl

theorem local_bind {p : Parser α} {f : α → Parser β} (hp : p.Local) (hf : ∀ a, (f a).Local) :
    (p >>= f).Local := by
  intro ahead
  rcases hp ahead with failed | ⟨a, mid, after, rfl, found⟩
  · left
    intro before
    rw [parse_bind, failed]
    rfl
  rcases hf a after with failed | ⟨b, mid', after, rfl, found'⟩
  · left
    intro before
    rw [parse_bind, found]
    exact failed (before ++ mid)
  · right
    -- the second parser sees what the first one took as text behind it
    refine ⟨b, mid ++ mid', after, by simp, fun before => ?_⟩
    rw [parse_bind, found, ← List.append_assoc]
    exact found' (before ++ mid)

theorem local_orElse {p q : Parser α} (hp : p.Local) (hq : q.Local) : (p <|> q).Local := by
  intro ahead
  rcases hp ahead with failed | ⟨a, mid, after, rfl, found⟩
  · rcases hq ahead with failed' | ⟨a, mid, after, rfl, found⟩
    · left
      intro before
      rw [parse_orElse, failed, failed']
      rfl
    · right
      refine ⟨a, mid, after, rfl, fun before => ?_⟩
      rw [parse_orElse, failed, found]
      rfl
  · right
    refine ⟨a, mid, after, rfl, fun before => ?_⟩
    rw [parse_orElse, found]
    rfl

theorem local_lookahead {p : Parser α} (h : p.Local) : p.lookahead.Local := by
  intro ahead
  rcases h ahead with failed | ⟨a, mid, after, rfl, found⟩
  · left
    intro before
    rw [parse_lookahead, failed]
    rfl
  · right
    refine ⟨a, [], mid ++ after, rfl, fun before => ?_⟩
    rw [parse_lookahead, found, List.append_nil]
    rfl

theorem compositional_local : Compositional Local where
  scalar := local_scalar
  exactly := local_exactly
  blanks := local_blanks
  number := local_number
  textUntil := local_textUntil
  map f _ hp := local_map f hp
  bind := local_bind
  orElse := local_orElse
  lookahead := local_lookahead

theorem local_parserWithin {Rule : Type → Type} {rules : Rules Rule}
    (hrules : rules.Each SeesAhead) {g : Grammar Rule α} (hg : g.Each SeesAhead) (depth : Nat) :
    (rules.parserWithin depth g).Local :=
  compositional_local.parserWithin local_fail (hrules.mono local_of_seesAhead)
    (hg.mono local_of_seesAhead) depth

theorem Local.cases {p : Parser α} (h : p.Local) {c d : Cursor} (hc : c.Placed) (hd : d.Placed)
    (same : c.rest = d.rest) :
    (p.parse c = none ∧ p.parse d = none) ∨
      ∃ a before before' mid after, c = between before (mid ++ after) ∧
        d = between before' (mid ++ after) ∧
        p.parse c = some (a, between (before ++ mid) after) ∧
        p.parse d = some (a, between (before' ++ mid) after) := by
  obtain ⟨before, ahead, rfl⟩ := hc
  obtain ⟨before', ahead', rfl⟩ := hd
  rw [Cursor.rest_between, Cursor.rest_between, String.ofList_inj] at same
  subst same
  rcases h ahead with failed | ⟨a, mid, after, rfl, found⟩
  · exact .inl ⟨failed before, failed before'⟩
  · exact .inr ⟨a, before, before', mid, after, rfl, rfl, found before, found before'⟩

/-- Two results with one value, or none, and one text left over. -/
inductive Agree : Option (α × Cursor) → Option (α × Cursor) → Prop where
  | none : Agree none none
  | some : e.Placed → f.Placed → e.rest = f.rest → Agree (some (a, e)) (some (a, f))

theorem Local.agree {p : Parser α} (h : p.Local) {c d : Cursor} (hc : c.Placed) (hd : d.Placed)
    (same : c.rest = d.rest) : Agree (p.parse c) (p.parse d) := by
  rcases h.cases hc hd same with
    ⟨left, right⟩ | ⟨a, before, before', mid, after, -, -, left, right⟩
  · rw [left, right]
    exact .none
  · rw [left, right]
    refine .some (placed_between _ _) (placed_between _ _) ?_
    rw [Cursor.rest_between, Cursor.rest_between]

end Parser

namespace Cursor

theorem scalar?_eq_head? {c : Cursor} (hc : c.Placed) : c.scalar? = c.rest.toList.head? := by
  obtain ⟨before, ahead, rfl⟩ := hc
  simp

theorem rest_next {c : Cursor} (hc : c.Placed) :
    c.next.rest = String.ofList c.rest.toList.tail := by
  obtain ⟨before, ahead, rfl⟩ := hc
  cases ahead <;> simp

end Cursor

namespace Rules.Reads
open TextGrammar.Parser (Local Agree)
variable {Rule : Type → Type} {rules : Rules Rule} {α : Type}

theorem transfer (hrules : rules.Each Local) {g : Grammar Rule α} (hg : g.Each Local)
    {depth : Nat} {c d : Cursor} (hc : c.Placed) (hd : d.Placed) (same : c.rest = d.rest)
    {result : Option (α × Cursor)} (h : rules.Reads depth g c result) :
    ∃ other, rules.Reads depth g d other ∧ Agree result other := by
  -- on the reading, whose steps are repeated one by one at `d`
  induction h generalizing d with
  | scalar h => exact ⟨_, .scalar rfl, h ▸ Parser.local_scalar.agree hc hd same⟩
  | exactly h => exact ⟨_, .exactly rfl, h ▸ (Parser.local_exactly _).agree hc hd same⟩
  | blanks h => exact ⟨_, .blanks rfl, h ▸ Parser.local_blanks.agree hc hd same⟩
  | number h => exact ⟨_, .number rfl, h ▸ Parser.local_number.agree hc hd same⟩
  | ofParser h => exact ⟨_, .ofParser rfl, h ▸ Local.agree hg hc hd same⟩
  | textUntilEnd hx =>
    rw [Cursor.scalar?_eq_head? hc, same, ← Cursor.scalar?_eq_head? hd] at hx
    exact ⟨_, .textUntilEnd hx, .some hc hd same⟩
  | textUntilFound hx _ ih =>
    rw [Cursor.scalar?_eq_head? hc, same, ← Cursor.scalar?_eq_head? hd] at hx
    obtain ⟨_, found, agree⟩ := ih hg hc hd same
    cases agree with
    | some => exact ⟨_, .textUntilFound hx found, .some hc hd same⟩
  | textUntilNext hx _ _ ih ihnext =>
    rw [Cursor.scalar?_eq_head? hc, same, ← Cursor.scalar?_eq_head? hd] at hx
    obtain ⟨_, refused, agree⟩ := ih hg hc hd same
    have later := (Cursor.rest_next hc).trans (same ▸ (Cursor.rest_next hd).symm)
    obtain ⟨_, next, agree'⟩ := ihnext hg (Cursor.placed_next hc) (Cursor.placed_next hd) later
    cases agree with
    | none =>
      cases agree' with
      | some he hf left => exact ⟨_, .textUntilNext hx refused next, .some he hf left⟩
  | map f _ ih =>
    obtain ⟨_, h, agree⟩ := ih hg hc hd same
    refine ⟨_, .map f h, ?_⟩
    cases agree with
    | none => exact .none
    | some he hf left => exact .some he hf left
  | bindFail _ ih =>
    obtain ⟨_, h, agree⟩ := ih hg.1 hc hd same
    cases agree with
    | none => exact ⟨_, .bindFail h, .none⟩
  | bindNext _ _ ih ihnext =>
    obtain ⟨_, first, agree⟩ := ih hg.1 hc hd same
    cases agree with
    | some he hf left =>
      obtain ⟨_, next, agree⟩ := ihnext (hg.2 _) he hf left
      exact ⟨_, .bindNext first next, agree⟩
  | orElseFirst _ ih =>
    obtain ⟨_, h, agree⟩ := ih hg.1 hc hd same
    cases agree with
    | some he hf left => exact ⟨_, .orElseFirst h, .some he hf left⟩
  | orElseSecond _ _ ih ihsecond =>
    obtain ⟨_, first, agree⟩ := ih hg.1 hc hd same
    obtain ⟨_, second, agree'⟩ := ihsecond hg.2 hc hd same
    cases agree with
    | none => exact ⟨_, .orElseSecond first second, agree'⟩
  | lookahead _ ih =>
    obtain ⟨_, h, agree⟩ := ih hg hc hd same
    refine ⟨_, .lookahead h, ?_⟩
    cases agree with
    | none => exact .none
    | some => exact .some hc hd same
  | deferred _ ih =>
    obtain ⟨_, h, agree⟩ := ih hg hc hd same
    exact ⟨_, .deferred h, agree⟩
  | rule _ ih =>
    obtain ⟨_, h, agree⟩ := ih (hrules _) hc hd same
    exact ⟨_, .rule h, agree⟩

end Rules.Reads

namespace Parser
open Cursor (between)

theorem Local.runFrom_eq {p : Parser α} (h : p.Local) {text : String} {start : Nat}
    (le : start ≤ text.length) :
    p.runFrom text start = p.runFrom (String.ofList (text.toList.drop start)) 0 := by
  obtain ⟨before, ahead, rfl, rfl⟩ := Cursor.exists_split le
  have here := runFrom_length p before ahead
  have alone := runFrom_length p [] ahead
  rw [List.nil_append, List.length_nil] at alone
  rw [String.toList_ofList, List.drop_left, here, alone]
  rcases h ahead with failed | ⟨a, mid, after, rfl, found⟩
  · simp only [failed]
  · simp only [found, Cursor.rest_between]

/-- Where one text lies ahead, reading ends or not, fails or not, gives one value, takes as many
scalars and bytes and leaves the same over, whatever the two texts were that lie behind. -/
theorem reading_depends_on_rest {Rule : Type → Type} {rules : Rules Rule}
    (hrules : rules.Each SeesAhead) {g : Grammar Rule α} (hg : g.Each SeesAhead) (depth : Nat) :
    let p := rules.parserWithin depth g
    (∀ c d, c.Reachable → d.Reachable → c.rest = d.rest →
      ((∃ result, rules.Reads depth g c result) → ∃ result, rules.Reads depth g d result) ∧
      ((p.parse c = none ∧ p.parse d = none) ∨
        ∃ a e f count size, p.parse c = some (a, e) ∧ p.parse d = some (a, f) ∧
          e.position = c.position + count ∧ f.position = d.position + count ∧
          e.offset = c.offset + size ∧ f.offset = d.offset + size ∧ e.rest = f.rest)) ∧
    ∀ text k, k ≤ text.length →
      p.runFrom text k = p.runFrom (String.ofList (text.toList.drop k)) 0 := by
  intro p
  have local_p : p.Local := local_parserWithin hrules hg depth
  refine ⟨?_, fun text k le => local_p.runFrom_eq le⟩
  intro c d hc hd same
  rw [Cursor.reachable_iff_placed] at hc hd
  constructor
  · rintro ⟨result, h⟩
    obtain ⟨other, h', -⟩ := h.transfer (hrules.mono local_of_seesAhead)
      (hg.mono local_of_seesAhead) hc hd same
    exact ⟨other, h'⟩
  · rcases local_p.cases hc hd same with
      failed | ⟨a, before, before', mid, after, rfl, rfl, left, right⟩
    · exact .inl failed
    · refine .inr ⟨a, _, _, mid.length, Text.byteSize mid, left, right, ?_⟩
      simp

theorem each_seesAhead_sum : Format.Sum.rules.Each SeesAhead := by
  intro α r
  cases r
  simp [Format.Sum.rules, seesAhead_pure]

theorem reading_depends_on_rest_sum :
    let p := Format.Sum.rules.parserWithin 9 (.rule .sum)
    Format.Sum.rules.Each SeesAhead ∧ (between ['é'] "1 + 2;".toList).Reachable ∧
      p.runFrom "é1 + 2;" 1 = p.runFrom "1 + 2;" 0 ∧ p.runFrom "1 + 2;" 0 = (some 3, ";") ∧
      ∃ a e f, p.parse (between ['é'] "1 + 2;".toList) = some (a, e) ∧
        p.parse (between [] "1 + 2;".toList) = some (a, f) ∧ e.rest = f.rest := by
  intro p
  have found : p.runFrom "1 + 2;" 0 = (some 3, ";") := by decide +kernel
  have behind : (between ['é'] "1 + 2;".toList).Reachable := Cursor.reachable_between _ _
  have alone : (between [] "1 + 2;".toList).Reachable := Cursor.reachable_between _ _
  obtain ⟨both, one⟩ := @reading_depends_on_rest UInt64 Format.Sum.Rule Format.Sum.rules
    each_seesAhead_sum (.rule .sum) trivial 9
  refine ⟨each_seesAhead_sum, behind, one "é1 + 2;" 1 (by decide +kernel), found, ?_⟩
  have results := both _ _ behind alone (by simp)
  rcases results.2 with failed | ⟨a, e, f, _, _, left, right, -, -, -, -, rest⟩
  · have matched : (p.parse (between [] "1 + 2;".toList)).isSome := by decide +kernel
    rw [failed.2] at matched
    contradiction
  · exact ⟨a, e, f, left, right, rest⟩

end Parser
end TextGrammar

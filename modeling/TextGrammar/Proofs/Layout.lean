import TextGrammar.Proofs.Languages
import TextGrammar.Proofs.Locality

/-! White space before a text. Reading over white space goes to the end of the longest run of it, so
that there is none behind, and to do it again does nothing. What is read behind it by a parser that only
looks ahead does not depend on how much there was. -/
namespace TextGrammar.Parser
open Cursor (between)
open Text (Stops isBlank)

theorem blanks_bind_blanks : (blanks >>= fun _ => blanks) = blanks := by
  ext1 c
  rw [parse_bind]
  simp only [blanks, Option.bind_some, Cursor.advanceWhile_advanceWhile]

/-- Where one text is ahead, `p` gives one value and leaves one text, or fails, wherever it stands. -/
def Portable (p : Parser α) : Prop :=
  ∀ c d, c.Reachable → d.Reachable → c.rest = d.rest → Agree (p.parse c) (p.parse d)

theorem Local.portable {p : Parser α} (h : p.Local) : p.Portable := by
  intro c d hc hd same
  rw [Cursor.reachable_iff_placed] at hc hd
  exact h.agree hc hd same

theorem Portable.agree_blanks {p : Parser α} (hp : p.Portable) {w : String}
    (hw : ∀ x ∈ w.toList, isBlank x) {c d : Cursor} (hc : c.Reachable) (hd : d.Reachable)
    (ahead : c.rest = w ++ d.rest) :
    Agree ((blanks >>= fun _ => p).parse c) ((blanks >>= fun _ => p).parse d) := by
  rw [Cursor.reachable_iff_placed] at hc hd
  obtain ⟨before, text, rfl⟩ := hc
  obtain ⟨before', text', rfl⟩ := hd
  obtain rfl : text = w.toList ++ text' := by
    have lists := congrArg String.toList ahead
    rw [String.toList_append, Cursor.toList_rest_between, Cursor.toList_rest_between] at lists
    exact lists
  rw [parse_bind_of_match (parse_blanks before _), parse_bind_of_match (parse_blanks before' text'),
    List.dropWhile_append_of_pos hw]
  -- both runs of white space end at the same text
  apply hp _ _ (Cursor.reachable_between _ _) (Cursor.reachable_between _ _)
  rw [Cursor.rest_between, Cursor.rest_between]

theorem runFrom_zero_of_agree {p : Parser α} {s t : String}
    (h : Agree (p.parse (between [] s.toList)) (p.parse (between [] t.toList))) :
    (p.runFrom s 0 = (none, s) ∧ p.runFrom t 0 = (none, t)) ∨
      ∃ a left, p.runFrom s 0 = (some a, left) ∧ p.runFrom t 0 = (some a, left) := by
  rw [runFrom_zero, runFrom_zero]
  generalize p.parse (between [] s.toList) = result at h
  generalize p.parse (between [] t.toList) = other at h
  cases h with
  | none => exact .inl ⟨rfl, rfl⟩
  | some _ _ left => exact .inr ⟨_, _, rfl, by rw [left]⟩

/-- White space is read over to the end of the longest run of it, which may be empty, and what was read
over once is not there again. A parser that only looks ahead does the same behind it, whether more white
space stood there or less: from any two cursors, and on any two texts. -/
theorem blanks_take_longest_run :
    (∀ c, c.Reachable → ∃ w e, blanks.parse c = some ((), e) ∧ c.textTo? e = some w ∧
      c.rest = w ++ e.rest ∧ (∀ x ∈ w.toList, isBlank x) ∧ Stops isBlank e.rest.toList ∧
      ∀ run, run <+: c.rest.toList → (∀ x ∈ run, isBlank x) → run <+: w.toList) ∧
    (blanks >>= fun _ => blanks) = blanks ∧
    ∀ {α : Type} (p : Parser α), p.Portable → ∀ w : String, (∀ x ∈ w.toList, isBlank x) →
      let q := blanks >>= fun _ => p
      (∀ c d, c.Reachable → d.Reachable → c.rest = w ++ d.rest → Agree (q.parse c) (q.parse d)) ∧
      ∀ t, q.run (w ++ t) = q.run t ∧
        ((q.runFrom (w ++ t) 0 = (none, w ++ t) ∧ q.runFrom t 0 = (none, t)) ∨
          ∃ a left, q.runFrom (w ++ t) 0 = (some a, left) ∧ q.runFrom t 0 = (some a, left)) := by
  refine ⟨?_, blanks_bind_blanks, ?_⟩
  · intro c hc
    obtain ⟨before, ahead, rfl⟩ := Cursor.reachable_iff_placed.1 hc
    obtain ⟨mid, after, rfl, blank, stops⟩ := Text.exists_run isBlank ahead
    refine ⟨String.ofList mid, between (before ++ mid) after,
      recognises_blanks.parse_eq ⟨blank, stops⟩ before, Cursor.textTo?_between before mid after, ?_⟩
    rw [Cursor.toList_rest_between, Cursor.toList_rest_between, Cursor.rest_between,
      Cursor.rest_between, String.toList_ofList]
    refine ⟨String.ofList_append, blank, stops, ?_⟩
    intro run ahead hrun
    exact Text.prefix_of_stops blank stops hrun ahead
  · intro α p hp w hw q
    have alike {c d : Cursor} (hc : c.Reachable) (hd : d.Reachable) (ahead : c.rest = w ++ d.rest) :
        Agree (q.parse c) (q.parse d) := hp.agree_blanks hw hc hd ahead
    refine ⟨fun c d => alike, ?_⟩
    intro t
    have texts := runFrom_zero_of_agree (alike (Cursor.reachable_between [] (w ++ t).toList)
      (Cursor.reachable_between [] t.toList) (by simp))
    refine ⟨?_, texts⟩
    rcases texts with ⟨failed, failed'⟩ | ⟨a, left, matched, matched'⟩
    · rw [run, run, failed, failed']
    · rw [run, run, matched, matched']

theorem blanks_take_longest_run_sum :
    let p := Format.Sum.rules.parserWithin 9 (.rule .sum)
    let q := blanks >>= fun _ => p
    let c := between ['é'] "\u3000\n 1 + 2;".toList
    p.Portable ∧ c.Reachable ∧ "\u3000\n".toList.all isBlank ∧
      (∃ w e, blanks.parse c = some ((), e) ∧ c.textTo? e = some w ∧ "\u3000\n ".toList <+: w.toList) ∧
      q.runFrom " 1 + 2;" 0 = (some 3, ";") ∧ q.runFrom ("\u3000\n" ++ " 1 + 2;") 0 = (some 3, ";") ∧
      q.run ("\u3000\n" ++ " 1 +") = q.run " 1 +" := by
  intro p q c
  have portable : p.Portable := by
    apply Local.portable
    exact local_parserWithin each_seesAhead_sum (g := .rule .sum) trivial 9
  have hc : c.Reachable := Cursor.reachable_between _ _
  have blank : "\u3000\n".toList.all isBlank := by decide
  obtain ⟨cuts, -, layout⟩ := blanks_take_longest_run
  obtain ⟨-, texts⟩ := layout p portable "\u3000\n" (List.all_eq_true.1 blank)
  obtain ⟨w, e, passed, cut, -, -, -, longest⟩ := cuts c hc
  have matched : q.runFrom " 1 + 2;" 0 = (some 3, ";") := by decide +kernel
  refine ⟨portable, hc, blank, ⟨w, e, passed, cut, ?_⟩, matched, ?_, (texts " 1 +").1⟩
  · exact longest _ (by decide +kernel) (List.all_eq_true.1 (by decide))
  · rcases (texts " 1 + 2;").2 with ⟨-, failed⟩ | ⟨a, left, found, found'⟩
    · rw [matched] at failed
      contradiction
    · rw [found, ← found', matched]

end TextGrammar.Parser

import TextGrammar.Format.Record
import TextGrammar.Proofs.Languages

/-! Settings and their texts. A key goes up to the first equals sign and a value up to the first
semicolon behind it, with all the white space between the two; no mark is looked for in the other
part, so each may hold the other's. A text without an equals sign is searched to its end for one,
and given back. -/
namespace TextGrammar

namespace Text
variable {x : Char} {mid mid' after after' : List Char}

/-- `mid` is what stands before the first `x`, or all of the text when there is none. -/
structure Before (x : Char) (mid after : List Char) : Prop where
  not_mem : x ∉ mid
  stop : after = [] ∨ ∃ more, after = x :: more

theorem before_iff_stops :
    Before x mid after ↔ (∀ y ∈ mid, !(y == x)) ∧ Stops (fun y => !(y == x)) after := by
  have others : (∀ y ∈ mid, !(y == x)) ↔ x ∉ mid := by
    simp only [Bool.not_eq_true', beq_eq_false_iff_ne, ← List.forall_mem_ne', ne_eq]
  have stop : Stops (fun y => !(y == x)) after ↔ after = [] ∨ ∃ more, after = x :: more := by
    cases after with
    | nil => simp
    | cons y ys => simp
  rw [others, stop]
  exact ⟨fun h => ⟨h.not_mem, h.stop⟩, fun h => ⟨h.1, h.2⟩⟩

theorem exists_before (x : Char) (text : List Char) :
    ∃ mid after, text = mid ++ after ∧ Before x mid after := by
  obtain ⟨mid, after, cut, others, stops⟩ := exists_run (fun y => !(y == x)) text
  exact ⟨mid, after, cut, before_iff_stops.2 ⟨others, stops⟩⟩

theorem Before.inj (h : Before x mid after) (h' : Before x mid' after')
    (same : mid ++ after = mid' ++ after') : mid = mid' ∧ after = after' := by
  rw [before_iff_stops] at h h'
  exact run_inj h.1 h.2 h'.1 h'.2 same

end Text

theorem Parser.recognises_textUntil_mark (mark : String) (x : Char) (h : mark.toList = [x]) :
    (textUntil (exactly mark)).Recognises fun text mid after =>
      text = String.ofList mid ∧ Text.Before x mid after := by
  apply (recognises_textUntil (isSome_parse_exactly mark x h)).congr
  intro text mid after
  rw [Text.before_iff_stops]

namespace Format
open TextGrammar.Parser (Recognises recognises_textUntil_mark)
open Text (Stops Before isBlank)

/-- The format, with `gap` for the white space behind the equals sign. -/
structure Setting.WrittenAs (s : Setting) (gap text : List Char) : Prop where
  cut : text = s.key.toList ++ '=' :: (gap ++ s.value.toList)
  key : '=' ∉ s.key.toList
  blank : ∀ x ∈ gap, isBlank x
  value : ';' ∉ s.value.toList
  starts : Stops isBlank s.value.toList

namespace Setting
variable {s s' : Setting} {gap gap' text after : List Char}

theorem stops_isBlank (stop : after = [] ∨ ∃ more, after = ';' :: more) : Stops isBlank after := by
  rcases stop with rfl | ⟨more, rfl⟩ <;> rfl

theorem not_writtenAs_nil : ¬ s.WrittenAs gap [] := by
  intro h
  have cut := h.cut
  simp at cut

theorem WrittenAs.mem_equals (h : s.WrittenAs gap text) : '=' ∈ text := by
  rw [h.cut]
  simp

theorem WrittenAs.before_iff (h : s.WrittenAs gap text) :
    Before ';' (gap ++ s.value.toList) after ↔ Before ';' s.value.toList after := by
  constructor
  · intro before
    exact ⟨h.value, before.stop⟩
  · intro before
    refine ⟨?_, before.stop⟩
    rw [List.mem_append]
    rintro (inGap | inValue)
    · -- a semicolon is no white space
      exact absurd (h.blank ';' inGap) (by decide)
    · exact h.value inValue

theorem WrittenAs.inj (h : s.WrittenAs gap text) (h' : s'.WrittenAs gap' text) :
    s = s' ∧ gap = gap' := by
  have equals (t : Setting) (key : '=' ∉ t.key.toList) (behind : List Char) :
      Before '=' t.key.toList ('=' :: behind) := ⟨key, .inr ⟨behind, rfl⟩⟩
  -- the key ends at the first equals sign, and the white space with its longest run
  obtain ⟨key, behind⟩ := (equals s h.key _).inj (equals s' h'.key _) (h.cut.symm.trans h'.cut)
  obtain ⟨rfl, value⟩ :=
    Text.run_inj h.blank h.starts h'.blank h'.starts (List.tail_eq_of_cons_eq behind)
  cases s
  cases s'
  cases String.toList_inj.1 key
  cases String.toList_inj.1 value
  exact ⟨rfl, rfl⟩

theorem writtenAs_parts {key value : List Char} (hkey : '=' ∉ key) (hgap : ∀ x ∈ gap, isBlank x)
    (hvalue : Before ';' value after) (stops : Stops isBlank (value ++ after)) :
    let s : Setting := ⟨String.ofList key, String.ofList value⟩
    s.WrittenAs gap (key ++ '=' :: (gap ++ value)) ∧ Before ';' (gap ++ s.value.toList) after := by
  intro s
  have written : s.WrittenAs gap (key ++ '=' :: (gap ++ value)) := {
    cut := by simp [s]
    key := by simpa [s] using hkey
    blank := hgap
    value := by simpa [s] using hvalue.not_mem
    starts := by simpa [s] using (Text.stops_append_iff (stops_isBlank hvalue.stop)).1 stops }
  refine ⟨written, ?_⟩
  rw [written.before_iff, String.toList_ofList]
  exact hvalue

theorem exists_writtenAs (h : '=' ∈ text) : ∃ (s : Setting) (gap mid after : List Char),
    text = mid ++ after ∧ s.WrittenAs gap mid ∧ Before ';' (gap ++ s.value.toList) after := by
  obtain ⟨key, ahead, rfl, hkey, stop⟩ := Text.exists_before '=' text
  rcases stop with rfl | ⟨behind, rfl⟩
  · rw [List.append_nil] at h
    contradiction
  · obtain ⟨gap, ahead, rfl, hgap, stops⟩ := Text.exists_run isBlank behind
    obtain ⟨value, after, rfl, hvalue⟩ := Text.exists_before ';' ahead
    exact ⟨_, gap, _, after, by simp, writtenAs_parts hkey hgap hvalue stops⟩

end Setting

theorem recognises_setting : Setting.parser.Recognises fun s mid after =>
    ∃ gap, s.WrittenAs gap mid ∧ Before ';' (gap ++ s.value.toList) after := by
  have stages := (recognises_textUntil_mark "=" '=' rfl).bind fun key =>
    Recognises.exactly_bind "=" <| Recognises.blanks_bind <|
      (recognises_textUntil_mark ";" ';' rfl).bind_pure (Setting.mk key)
  apply stages.congr
  intro s mid after
  constructor
  · intro taken
    obtain ⟨_, key, behindKey, rfl, ⟨rfl, hkey⟩, taken⟩ := taken
    obtain ⟨behindMark, rfl, taken⟩ := taken
    obtain ⟨gap, value, rfl, hgap, stops, taken⟩ := taken
    obtain ⟨_, rfl, rfl, hvalue⟩ := taken
    exact ⟨gap, Setting.writtenAs_parts hkey.not_mem hgap hvalue stops⟩
  · intro written
    obtain ⟨gap, h, before⟩ := written
    rw [h.before_iff] at before
    have equals : Before '=' s.key.toList ('=' :: (gap ++ s.value.toList) ++ after) :=
      ⟨h.key, .inr ⟨_, rfl⟩⟩
    have stops : Stops isBlank (s.value.toList ++ after) :=
      (Text.stops_append_iff (Setting.stops_isBlank before.stop)).2 h.starts
    refine ⟨s.key, s.key.toList, _, h.cut, ⟨String.ofList_toList.symm, equals⟩, ?_⟩
    refine ⟨gap ++ s.value.toList, rfl, ?_⟩
    refine ⟨gap, s.value.toList, rfl, h.blank, stops, ?_⟩
    exact ⟨s.value, rfl, String.ofList_toList.symm, before⟩

theorem Setting.runFrom_eq_some_iff {text : String} {start : Nat} {s : Setting} {left : String} :
    Setting.parser.runFrom text start = (some s, left) ↔ ∃ mid,
      text.toList.drop start = mid ++ left.toList ∧
        ∃ gap, s.WrittenAs gap mid ∧ Before ';' (gap ++ s.value.toList) left.toList := by
  apply recognises_setting.runFrom_eq_some_iff
  rintro s ⟨gap, h, -⟩
  exact Setting.not_writtenAs_nil h

theorem Setting.isSome_runFrom_iff {text : String} {start : Nat} :
    (Setting.parser.runFrom text start).1.isSome ↔ '=' ∈ text.toList.drop start := by
  constructor
  · intro some
    obtain ⟨s, hs⟩ := Option.isSome_iff_exists.1 some
    obtain ⟨mid, cut, gap, h, -⟩ := Setting.runFrom_eq_some_iff.1 (Prod.ext hs rfl)
    rw [cut]
    exact List.mem_append_left _ h.mem_equals
  · intro equals
    obtain ⟨s, gap, mid, after, cut, h, before⟩ := Setting.exists_writtenAs equals
    rw [← String.toList_ofList (l := after)] at cut before
    rw [Setting.runFrom_eq_some_iff.2 ⟨mid, cut, gap, h, before⟩]
    rfl

/-- A whole text is read as a setting when it is one, and it is one in one way only. From any place
a setting is read when an equals sign follows: the key goes up to the first, and what is left over
begins with the first semicolon behind it, if there is one. Without an equals sign all of the text
is left over. -/
theorem settings_of_texts :
    (∀ text s, Setting.parser.run text = some s ↔ ∃ gap, s.WrittenAs gap text.toList) ∧
    (∀ text (s s' : Setting) gap gap', s.WrittenAs gap text → s'.WrittenAs gap' text →
      s = s' ∧ gap = gap') ∧
    ∀ text start,
      ((Setting.parser.runFrom text start).1.isSome ↔ '=' ∈ text.toList.drop start) ∧
      (∀ s left, Setting.parser.runFrom text start = (some s, left) ↔ ∃ mid,
        text.toList.drop start = mid ++ left.toList ∧
          ∃ gap, s.WrittenAs gap mid ∧ Before ';' (gap ++ s.value.toList) left.toList) ∧
      ('=' ∉ text.toList.drop start →
        Setting.parser.runFrom text start = (none, String.ofList (text.toList.drop start))) := by
  refine ⟨?_, fun text s s' gap gap' h h' => h.inj h', ?_⟩
  · intro text s
    rw [recognises_setting.run_iff]
    constructor
    · rintro ⟨gap, h, -⟩
      exact ⟨gap, h⟩
    · rintro ⟨gap, h⟩
      exact ⟨gap, h, h.before_iff.2 ⟨h.value, .inl rfl⟩⟩
  · intro text start
    refine ⟨Setting.isSome_runFrom_iff, fun s left => Setting.runFrom_eq_some_iff, ?_⟩
    intro none
    apply recognises_setting.runFrom_eq_none
    rintro s mid after cut ⟨gap, h, -⟩
    rw [cut] at none
    exact none (List.mem_append_left _ h.mem_equals)

theorem settings_of_texts_marks :
    let s : Setting := ⟨"a;b", "v =w"⟩
    s.WrittenAs "\u3000 ".toList "a;b=\u3000 v =w".toList ∧
      (∀ s' gap', s'.WrittenAs gap' "a;b=\u3000 v =w".toList → s' = s) ∧
      Setting.parser.run "a;b=\u3000 v =w" = some s ∧
      Setting.parser.runFrom "éa;b=\u3000 v =w;x" 1 = (some s, ";x") ∧
      '=' ∉ "é a;b".toList.drop 1 ∧ Setting.parser.runFrom "é a;b" 1 = (none, " a;b") := by
  intro s
  have starts : Stops isBlank "v =w".toList := by
    unfold Stops
    decide
  have written : s.WrittenAs "\u3000 ".toList "a;b=\u3000 v =w".toList :=
    ⟨by decide +kernel, by decide, List.all_eq_true.1 (by decide), by decide, starts⟩
  have none : '=' ∉ "é a;b".toList.drop 1 := by decide
  obtain ⟨whole, unique, parts⟩ := settings_of_texts
  obtain ⟨-, read, -⟩ := parts "éa;b=\u3000 v =w;x" 1
  obtain ⟨-, -, given_back⟩ := parts "é a;b" 1
  refine ⟨written, ?_, (whole _ _).2 ⟨_, written⟩, ?_, none, given_back none⟩
  · intro s' gap' h
    exact (unique _ _ _ _ _ h written).1
  · exact (read s ";x").2 ⟨_, rfl, _, written, by decide, .inr ⟨['x'], rfl⟩⟩

end Format
end TextGrammar

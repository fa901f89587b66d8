import TextGrammar.Proofs.Choices
import TextGrammar.Proofs.Literals
import TextGrammar.Proofs.Positions

/-! Choices between texts. The first text of the list that is ahead is taken, and it need not be the
longest. It is the longest at every cursor when no text of the list begins a later one. Where one
does, the later text is itself an input that shows it: the earlier one is ahead there as well. -/
namespace TextGrammar.Parser
open Cursor (between)
variable {texts : List String} {text other : String} {c e : Cursor} {i k : Nat}

def keywords (texts : List String) : Parser Nat :=
  choice (texts.mapIdx fun i text => (fun _ => i + 1) <$> exactly text)

structure FirstAhead (texts : List String) (c : Cursor) (i : Nat) (text : String) : Prop where
  listed : texts[i]? = some text
  ahead : text.toList <+: c.rest.toList
  first : ∀ j < i, ∀ other, texts[j]? = some other → ¬ other.toList <+: c.rest.toList

structure LongestAhead (texts : List String) (c : Cursor) (text : String) : Prop where
  listed : text ∈ texts
  ahead : text.toList <+: c.rest.toList
  longest : ∀ other ∈ texts, other.toList <+: c.rest.toList → other.length ≤ text.length

abbrev LongestFirst (texts : List String) : Prop :=
  texts.Pairwise fun text later => ¬ (text.toList <+: later.toList ∧ text ≠ later)

/-- Where any of `texts` is ahead of `c`, the choice takes the longest that is. -/
def TakesLongest (texts : List String) (c : Cursor) : Prop :=
  (∃ text ∈ texts, text.toList <+: c.rest.toList) →
    ∃ k e text, (keywords texts).parse c = some (k, e) ∧ c.textTo? e = some text ∧
      LongestAhead texts c text

theorem textTo?_of_advance?_length (hc : c.Placed) (ahead : text.toList <+: c.rest.toList)
    (h : c.advance? text.length = some e) : c.textTo? e = some text := by
  obtain ⟨before, _, rfl⟩ := hc
  rw [Cursor.toList_rest_between] at ahead
  obtain ⟨after, rfl⟩ := ahead
  rw [← String.length_toList, Cursor.advance?_between_append, Option.some_inj] at h
  rw [← h, Cursor.textTo?_between, String.ofList_toList]

theorem parse_keywords_eq_some_iff (hc : c.Placed) :
    (keywords texts).parse c = some (k, e) ↔
      ∃ i text, k = i + 1 ∧ FirstAhead texts c i text ∧ c.advance? text.length = some e := by
  rw [keywords, parse_choice_eq_some_iff]
  simp only [List.getElem?_mapIdx, Option.map_eq_some_iff]
  constructor
  · rintro ⟨i, _, ⟨text, listed, rfl⟩, matched, failed⟩
    obtain ⟨⟨⟨⟩, d⟩, found, same⟩ := Option.map_eq_some_iff.1 matched
    cases same
    obtain ⟨ahead, moved⟩ := parse_exactly_eq_some_iff.1 found
    refine ⟨i, text, rfl, ⟨listed, ahead, ?_⟩, moved⟩
    intro j lt other hother
    rw [← parse_exactly_eq_none_iff hc]
    exact Option.map_eq_none_iff.1 (failed j lt _ ⟨other, hother, rfl⟩)
  · rintro ⟨i, text, rfl, taken, moved⟩
    have found := parse_exactly_eq_some_iff.2 ⟨taken.ahead, moved⟩
    refine ⟨i, _, ⟨text, taken.listed, rfl⟩, by rw [parse_map, found, Option.map_some], ?_⟩
    rintro j lt _ ⟨other, hother, rfl⟩
    rw [parse_map, Option.map_eq_none_iff, parse_exactly_eq_none_iff hc]
    exact taken.first j lt other hother

theorem isSome_parse_keywords_iff (hc : c.Placed) :
    ((keywords texts).parse c).isSome ↔ ∃ text ∈ texts, text.toList <+: c.rest.toList := by
  constructor
  · intro h
    obtain ⟨⟨k, e⟩, matched⟩ := Option.isSome_iff_exists.1 h
    obtain ⟨i, text, -, taken, -⟩ := (parse_keywords_eq_some_iff hc).1 matched
    exact ⟨text, List.mem_of_getElem? taken.listed, taken.ahead⟩
  · rintro ⟨text, listed, ahead⟩
    obtain ⟨i, lt, rfl⟩ := List.mem_iff_getElem.1 listed
    rw [keywords, parse_choice, List.findSome?_isSome_iff]
    refine ⟨_, List.mem_mapIdx.2 ⟨i, lt, rfl⟩, ?_⟩
    rw [parse_map, Option.isSome_map, Option.isSome_iff_ne_none, ne_eq,
      parse_exactly_eq_none_iff hc, not_not]
    exact ahead

theorem FirstAhead.longestAhead (taken : FirstAhead texts c i text) (h : LongestFirst texts) :
    LongestAhead texts c text := by
  obtain ⟨lt, rfl⟩ := List.getElem?_eq_some_iff.1 taken.listed
  refine ⟨List.getElem_mem lt, taken.ahead, ?_⟩
  intro other listed ahead
  obtain ⟨j, lt', rfl⟩ := List.mem_iff_getElem.1 listed
  rcases Nat.lt_trichotomy j i with before | rfl | behind
  · exact absurd ahead (taken.first j before _ (List.getElem?_eq_getElem lt'))
  · exact Nat.le_refl _
  · -- of two texts that are ahead one begins the other, and the earlier does not begin the later
    rw [← String.length_toList, ← String.length_toList]
    rcases List.prefix_or_prefix_of_prefix ahead taken.ahead with begins | begins
    · exact begins.length_le
    · have same : texts[i] = texts[j] := by
        by_contra differ
        exact List.pairwise_iff_getElem.1 h i j lt lt' behind ⟨begins, differ⟩
      exact Nat.le_of_eq (by rw [same])

theorem takesLongest_of_longestFirst (h : LongestFirst texts) (hc : c.Placed) :
    TakesLongest texts c := by
  intro ahead
  obtain ⟨⟨k, e⟩, matched⟩ := Option.isSome_iff_exists.1 ((isSome_parse_keywords_iff hc).2 ahead)
  obtain ⟨i, text, -, taken, moved⟩ := (parse_keywords_eq_some_iff hc).1 matched
  exact ⟨k, e, text, matched, textTo?_of_advance?_length hc taken.ahead moved,
    taken.longestAhead h⟩

theorem longestFirst_of_takesLongest (distinct : texts.Nodup)
    (h : ∀ c : Cursor, c.Placed → TakesLongest texts c) : LongestFirst texts := by
  rw [LongestFirst, List.pairwise_iff_getElem]
  rintro i j lt lt' before ⟨begins, -⟩
  -- with the later text for an input, that text has to be taken, so the earlier is not ahead of it
  have hc : (between [] texts[j].toList).Placed := ⟨_, _, rfl⟩
  have ahead : texts[j].toList <+: (between [] texts[j].toList).rest.toList := by simp
  obtain ⟨k, e, text, matched, whole, longest⟩ := h _ hc ⟨_, List.getElem_mem lt', ahead⟩
  obtain ⟨i', first, -, taken, moved⟩ := (parse_keywords_eq_some_iff hc).1 matched
  rw [textTo?_of_advance?_length hc taken.ahead moved, Option.some_inj] at whole
  subst whole
  have le := longest.longest _ (List.getElem_mem lt') ahead
  have part := taken.ahead
  rw [Cursor.toList_rest_between] at part
  rw [← String.length_toList, ← String.length_toList] at le
  have same : first = texts[j] := String.toList_inj.1 (part.eq_of_length_le le)
  have here : texts[j]? = texts[i']? := by
    rw [taken.listed, same, List.getElem?_eq_getElem lt']
  obtain rfl := (List.getElem?_inj lt' distinct).1 here
  apply taken.first i before _ (List.getElem?_eq_getElem lt)
  rw [Cursor.toList_rest_between]
  exact begins

/-- A choice between different texts matches where one of them is ahead. It takes the first of those
in the list, gives its place and ends right behind it. What it takes is the longest at every cursor
of every text when no text of the list begins a later one, and only then. -/
theorem keywords_first_or_longest (distinct : texts.Nodup) :
    (∀ c : Cursor, c.Reachable →
      (((keywords texts).parse c).isSome ↔ ∃ text ∈ texts, text.toList <+: c.rest.toList) ∧
      ∀ k e, (keywords texts).parse c = some (k, e) ↔ ∃ i text, k = i + 1 ∧
        FirstAhead texts c i text ∧ c.advance? text.length = some e ∧ c.textTo? e = some text) ∧
    ((∀ c : Cursor, c.Reachable → TakesLongest texts c) ↔ LongestFirst texts) := by
  refine ⟨?_, ?_, ?_⟩
  · intro c hc
    have hc := Cursor.reachable_iff_placed.1 hc
    refine ⟨isSome_parse_keywords_iff hc, ?_⟩
    intro k e
    rw [parse_keywords_eq_some_iff hc]
    constructor
    · rintro ⟨i, text, rfl, taken, moved⟩
      exact ⟨i, text, rfl, taken, moved, textTo?_of_advance?_length hc taken.ahead moved⟩
    · rintro ⟨i, text, rfl, taken, moved, -⟩
      exact ⟨i, text, rfl, taken, moved⟩
  · intro h
    exact longestFirst_of_takesLongest distinct fun c hc => h c (Cursor.reachable_iff_placed.2 hc)
  · intro h c hc
    exact takesLongest_of_longestFirst h (Cursor.reachable_iff_placed.1 hc)

theorem keywords_first_or_longest_orders :
    let rising := ["é", "a", "ab"]
    let falling := ["é", "ab", "a"]
    let c := between ['x'] "abc".toList
    c.Reachable ∧ rising.Nodup ∧ falling.Nodup ∧
      (keywords rising).parse c = some (2, c.next) ∧
      (keywords falling).parse c = some (2, c.next.next) ∧
      (¬ ∀ c : Cursor, c.Reachable → TakesLongest rising c) ∧
      ∀ c : Cursor, c.Reachable → TakesLongest falling c := by
  intro rising falling c
  have hc : c.Reachable := Cursor.reachable_between _ _
  have hrising : rising.Nodup := by decide
  have hfalling : falling.Nodup := by decide
  obtain ⟨first, longest⟩ := keywords_first_or_longest hrising
  obtain ⟨first', longest'⟩ := keywords_first_or_longest hfalling
  refine ⟨hc, hrising, hfalling, ?_, ?_, ?_, ?_⟩
  · exact ((first c hc).2 _ _).2 ⟨1, "a", rfl, ⟨rfl, by decide +kernel, by decide +kernel⟩,
      by decide +kernel, by decide +kernel⟩
  · exact ((first' c hc).2 _ _).2 ⟨1, "ab", rfl, ⟨rfl, by decide +kernel, by decide +kernel⟩,
      by decide +kernel, by decide +kernel⟩
  · rw [longest]
    decide
  · rw [longest']
    decide

end TextGrammar.Parser

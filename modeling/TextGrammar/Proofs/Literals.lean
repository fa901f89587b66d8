import TextGrammar.Proofs.Reachability

/-! Texts matched by bytes and by scalars. A text is compared with what is ahead by bytes, and the
cursor then goes on by as many scalars as the text has. No encoded text is the start of another
unless its scalars are, so this is the same as to take the scalars one at a time and compare each. -/
namespace TextGrammar

namespace Text

/-- Bytes that are a run of scalars begin a text only where the scalars do. -/
theorem bytes_prefix_iff {xs ys : List Char} :
    xs.utf8Encode.data.toList <+: ys.utf8Encode.data.toList ↔ xs <+: ys := by
  constructor
  · rintro ⟨more, cut⟩
    apply List.isPrefix_of_utf8Encode_append_eq_utf8Encode more.toByteArray
    apply ByteArray.ext
    apply Array.toList_inj.1
    rw [ByteArray.toList_data_append, List.toList_data_toByteArray]
    exact cut
  · rintro ⟨zs, rfl⟩
    rw [List.utf8Encode_append, ByteArray.toList_data_append]
    exact List.prefix_append _ _

theorem toUTF8_prefix_iff {s t : String} :
    s.toUTF8.data.toList <+: t.toUTF8.data.toList ↔ s.toList <+: t.toList := by
  rw [String.toUTF8_eq_toByteArray, String.toUTF8_eq_toByteArray, ← String.utf8Encode_toList,
    ← String.utf8Encode_toList]
  exact bytes_prefix_iff

end Text

namespace Parser
open Cursor (between)

def scalarEqual (x : Char) : Parser Unit :=
  scalar >>= fun y => guard (y = x)

def scalarByScalar : List Char → Parser Unit
  | [] => pure ()
  | x :: xs => scalarEqual x >>= fun _ => scalarByScalar xs

theorem parse_scalarEqual (x : Char) (before ahead : List Char) :
    (scalarEqual x).parse (between before ahead) =
      if [x] <+: ahead then some ((), between (before ++ [x]) ahead.tail) else none := by
  cases ahead with
  | nil =>
    rw [scalarEqual, parse_bind, parse_scalar_nil, Option.bind_none, if_neg (by simp)]
  | cons y ys =>
    rw [scalarEqual, parse_bind, parse_scalar_cons, Option.bind_some]
    change (guard (y = x) : Parser Unit).parse _ = _
    rw [parse_guard]
    by_cases same : y = x
    · subst same
      simp
    · simp [same, Ne.symm same]

theorem parse_scalarByScalar (xs before ahead : List Char) :
    (scalarByScalar xs).parse (between before ahead) =
      if xs <+: ahead then some ((), between (before ++ xs) (ahead.drop xs.length)) else none := by
  induction xs generalizing before ahead with
  | nil => simp [scalarByScalar]
  | cons x xs ih =>
    rw [scalarByScalar, parse_bind, parse_scalarEqual]
    cases ahead with
    | nil => simp
    | cons y ys =>
      by_cases same : x = y
      · subst same
        simp [ih]
      · simp [same]

theorem parse_exactly_eq_scalarByScalar (text : String) {c : Cursor} (hc : c.Placed) :
    (exactly text).parse c = (scalarByScalar text.toList).parse c := by
  obtain ⟨before, ahead, rfl⟩ := hc
  rw [parse_exactly, parse_scalarByScalar, String.length_toList]

theorem isSome_parse_exactly_iff (text : String) (before ahead : List Char) :
    ((exactly text).parse (between before ahead)).isSome ↔ text.toList <+: ahead := by
  rw [parse_exactly, Option.isSome_ite]

theorem parse_exactly_eq_some_iff {text : String} {c e : Cursor} :
    (exactly text).parse c = some ((), e) ↔
      text.toList <+: c.rest.toList ∧ c.advance? text.length = some e := by
  rw [exactly]
  simp only [String.startsWith_string_iff]
  split
  case isTrue ahead => simp [ahead]
  case isFalse behind => simp [behind]

theorem parse_exactly_eq_none_iff {text : String} {c : Cursor} (hc : c.Placed) :
    (exactly text).parse c = none ↔ ¬ text.toList <+: c.rest.toList := by
  obtain ⟨before, ahead, rfl⟩ := hc
  rw [← Option.not_isSome_iff_eq_none, isSome_parse_exactly_iff, Cursor.toList_rest_between]

/-- A text is matched when its bytes come next, when its scalars do, and when they are found there
one by one. Where its bytes come next, there are as many scalars to go over as it has, and every
match ends behind them. -/
theorem exactly_bytes_scalars (text : String) {c : Cursor} (hc : c.Reachable) :
    [((exactly text).parse c).isSome = true, c.rest.startsWith text = true,
      text.toUTF8.data.toList <+: c.rest.toUTF8.data.toList, text.toList <+: c.rest.toList,
      ((scalarByScalar text.toList).parse c).isSome = true].TFAE ∧
    (exactly text).parse c = (scalarByScalar text.toList).parse c ∧
    (c.rest.startsWith text = true → ∃ e, c.advance? text.length = some e ∧
      (exactly text).parse c = some ((), e) ∧ e.source = c.source ∧
      e.position = c.position + text.length ∧ e.offset = c.offset + text.utf8ByteSize ∧
      c.rest = text ++ e.rest) := by
  have placed := Cursor.reachable_iff_placed.1 hc
  have same := parse_exactly_eq_scalarByScalar text placed
  obtain ⟨before, ahead, rfl⟩ := placed
  have matched := isSome_parse_exactly_iff text before ahead
  have starts : (between before ahead).rest.startsWith text = true ↔ text.toList <+: ahead := by
    rw [String.startsWith_string_iff, Cursor.toList_rest_between]
  refine ⟨?_, same, ?_⟩
  · rw [← same]
    apply List.tfae_of_forall (text.toList <+: ahead)
    simp only [List.forall_mem_cons, Text.toUTF8_prefix_iff, Cursor.toList_rest_between, matched,
      starts, List.not_mem_nil, false_implies, implies_true, and_self]
  · intro found
    obtain ⟨after, rfl⟩ := starts.1 found
    have moved := Cursor.advance?_between_append before text.toList after
    rw [String.length_toList] at moved
    refine ⟨_, moved, parse_exactly_append text before after, ?_, ?_, ?_, ?_⟩
    · simp
    · simp [String.length_toList]
    · simp
    · simp

theorem exactly_bytes_scalars_wide :
    let c := between ['a'] "é🦀x".toList
    c.Reachable ∧ c.rest.startsWith "é🦀" = true ∧
      (∃ e, (exactly "é🦀").parse c = some ((), e) ∧ e.position = 3 ∧ e.offset = 7 ∧
        (scalarByScalar ['é', '🦀']).parse c = some ((), e)) ∧
      ¬ "è".toUTF8.data.toList <+: c.rest.toUTF8.data.toList := by
  intro c
  have hc : c.Reachable := Cursor.reachable_between _ _
  have starts : c.rest.startsWith "é🦀" = true := by
    rw [String.startsWith_string_iff]
    decide +kernel
  obtain ⟨-, same, moves⟩ := exactly_bytes_scalars "é🦀" hc
  obtain ⟨e, -, matched, -, position, offset, -⟩ := moves starts
  have refused : ((exactly "è").parse c).isSome = false := by decide +kernel
  have bytes : ((exactly "è").parse c).isSome = true ↔
      "è".toUTF8.data.toList <+: c.rest.toUTF8.data.toList :=
    (exactly_bytes_scalars "è" hc).1.out 0 2
  refine ⟨hc, starts, ⟨e, matched, position, offset, ?_⟩, ?_⟩
  · rw [← matched, same]
    rfl
  · rw [← bytes, refused]
    exact Bool.false_ne_true

end Parser
end TextGrammar

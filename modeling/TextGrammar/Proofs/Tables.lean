import TextGrammar.Format.Recursive
import TextGrammar.Proofs.Equations
import TextGrammar.Proofs.Languages
import TextGrammar.Proofs.Reachability

/-! Texts and tables, one for one. A row and a table are the same thing twice: items with a
separator between them, read until no separator follows. What is read of a text is written as that
text, and what is written is read back, so no field and no row is lost or made up. -/
namespace TextGrammar

namespace Text

theorem mem_of_mem_splitOn {x : Char} {text piece : List Char} (h : piece ∈ text.splitOn x) :
    ∀ y ∈ piece, y ∈ text ∧ y ≠ x := by
  induction text generalizing piece with
  | nil =>
    rw [List.splitOn_nil, List.mem_singleton] at h
    simp [h]
  | cons z zs ih =>
    rw [List.splitOn_cons_eq_if_modifyHead] at h
    split at h
    case isTrue =>
      -- `x` begins a new piece, so the one before it is empty
      rcases List.mem_cons.1 h with rfl | h
      · simp
      · exact fun y hy => ⟨List.mem_cons_of_mem z (ih h y hy).1, (ih h y hy).2⟩
    case isFalse other =>
      obtain ⟨first, pieces, cut⟩ := List.exists_cons_of_ne_nil (List.splitOn_ne_nil x zs)
      rw [cut] at h ih
      rcases List.mem_cons.1 h with rfl | h
      · intro y hy
        rcases List.mem_cons.1 hy with rfl | hy
        · exact ⟨List.mem_cons_self, by simpa using other⟩
        · have old := ih List.mem_cons_self y hy
          exact ⟨List.mem_cons_of_mem z old.1, old.2⟩
      · intro y hy
        have old := ih (List.mem_cons_of_mem first h) y hy
        exact ⟨List.mem_cons_of_mem z old.1, old.2⟩

end Text

namespace Parser
open Cursor (between)
open Text (Stops)

/-- Items that are written with a separator between them are read one by one. What may follow an
item, `A`, is a separator or what follows the list. -/
theorem parse_separated {item : Parser α} {list : Parser (List α)} (separator : String) (x : Char)
    (hx : separator.toList = [x])
    (parse_list : ∀ {c : Cursor}, c.Placed → list.parse c = Parser.parse (item >>= fun first =>
      (exactly separator >>= fun _ => (first :: ·) <$> list) <|> pure [first]) c)
    {write : α → List Char} {A : List Char → Prop} (next : ∀ after, A (x :: after))
    {items : List α} (ne : items ≠ [])
    (parse_item : ∀ a ∈ items, ∀ before after, A after →
      item.parse (between before (write a ++ after)) = some (a, between (before ++ write a) after))
    {after : List Char} (last : A after) (stops : Stops (· == x) after) (before : List Char) :
    list.parse (between before ([x].intercalate (items.map write) ++ after)) =
      some (items, between (before ++ [x].intercalate (items.map write)) after) := by
  induction items generalizing before with
  | nil => contradiction
  | cons a items ih =>
    rw [parse_list (Cursor.placed_between _ _), parse_bind]
    cases items with
    | nil =>
      -- no separator follows, so the list ends here
      have first := parse_item a List.mem_cons_self before after last
      have refused := parse_exactly_of_stops separator x hx stops (before ++ write a)
      simp [first, refused]
    | cons b items =>
      have tail := ih (by simp) fun a ha => parse_item a (List.mem_cons_of_mem _ ha)
      have cut : [x].intercalate ((a :: b :: items).map write) =
          write a ++ x :: [x].intercalate ((b :: items).map write) := by simp
      rw [cut, List.append_assoc, List.cons_append]
      generalize [x].intercalate ((b :: items).map write) = text at tail
      have first := parse_item a List.mem_cons_self before (x :: (text ++ after)) (next _)
      have found := parse_exactly_cons separator x hx (before ++ write a) (text ++ after)
      rw [first, Option.bind_some]
      simp [found, tail]

end Parser

namespace Format.Table
open TextGrammar.Parser (exactly)
open Cursor (between)
open Text (Stops)

theorem forward : rules.Each Parser.Forward := by
  intro α r
  cases r <;> simp [rules, row, table, field, Parser.forward_pure]

theorem terminating : rules.Terminating where
  forward := forward
  guarded r := by
    have consumes {text : String} (h : text ≠ "") : rules.Consumes (.exactly text) :=
      Rules.consumes_exactly forward h
    have guarded_row : rules.Guarded row :=
      ⟨⟨trivial, trivial⟩, .inr fun _ => ⟨⟨trivial, .inl (consumes (by decide))⟩, trivial⟩⟩
    cases r with
    | row => exact guarded_row
    | table =>
      exact ⟨guarded_row, .inr fun _ => ⟨⟨trivial, .inl (consumes (by decide))⟩, trivial⟩⟩

def separates (x : Char) : Bool :=
  x == ',' || x == '\n'

theorem recognises_field (calls : ∀ {α : Type}, Rule α → Parser α) :
    (field.parser calls).Recognises fun text mid after =>
      text = String.ofList mid ∧ (∀ x ∈ mid, !separates x) ∧ Stops (!separates ·) after := by
  apply Parser.recognises_textUntil
  intro before x xs
  change ((exactly "," <|> exactly "\n" : Parser Unit).parse _).isSome = _
  rw [Parser.parse_orElse, Option.isSome_or, Parser.isSome_parse_exactly "," ',' rfl,
    Parser.isSome_parse_exactly "\n" '\n' rfl]
  rfl

def EndsRow (after : List Char) : Prop :=
  Stops (!separates ·) after ∧ Stops (· == ',') after

theorem endsRow_nil : EndsRow [] := ⟨rfl, rfl⟩

theorem endsRow_newline (after : List Char) : EndsRow ('\n' :: after) := ⟨rfl, rfl⟩

def writeRow (row : List String) : List Char :=
  [','].intercalate (row.map String.toList)

theorem toList_write (t : Table) : t.write.toList = ['\n'].intercalate (t.rows.map writeRow) := by
  rw [write, String.toList_intercalate, List.map_map]
  apply congrArg
  apply List.map_congr_left
  intro row _
  exact String.toList_intercalate

theorem parse_row {row : List String} (ne : row ≠ [])
    (hrow : ∀ text ∈ row, ',' ∉ text.toList ∧ '\n' ∉ text.toList) (before : List Char)
    {after : List Char} (ends : EndsRow after) :
    (rules.parser (.rule .row)).parse (between before (writeRow row ++ after)) =
      some (row, between (before ++ writeRow row) after) := by
  apply Parser.parse_separated "," ',' rfl
    (fun hc => terminating.parse_rule .row hc) (A := Stops (!separates ·)) (fun _ => rfl) ne _
    ends.1 ends.2
  intro text htext before after stops
  apply (recognises_field _).parse_eq
  refine ⟨String.ofList_toList.symm, ?_, stops⟩
  intro x hx
  have comma : x ≠ ',' := fun same => (hrow text htext).1 (same ▸ hx)
  have newline : x ≠ '\n' := fun same => (hrow text htext).2 (same ▸ hx)
  simp [separates, comma, newline]

theorem parse_write {t : Table} (h : t.Writable) (before : List Char) :
    (Readable.parser : Parser Table).parse (between before t.write.toList) =
      some (t, between (before ++ t.write.toList) []) := by
  have rows : (rules.parser (.rule .table)).parse (between before (t.write.toList ++ [])) =
      some (t.rows, between (before ++ t.write.toList) []) := by
    rw [toList_write]
    apply Parser.parse_separated "\n" '\n' rfl
      (fun hc => terminating.parse_rule .table hc) (A := EndsRow) endsRow_newline h.1 _
      endsRow_nil rfl
    intro row hrow before after ends
    have fields := parse_row (h.2 row hrow).1 (h.2 row hrow).2 before ends
    -- in a table the body of a row stands in place of the call
    rw [terminating.parse_rule .row (Cursor.placed_between _ _)] at fields
    exact fields
  have placed : (between before t.write.toList).Placed := Cursor.placed_between _ _
  rw [List.append_nil, terminating.parse_rule .table placed,
    ← terminating.parse_calls (forward .table) placed] at rows
  change ((rules.parser table).parse _).map _ = _
  rw [show (rules.parser table).parse _ = _ from rows]
  rfl

def split (text : String) : Table :=
  ⟨(text.toList.splitOn '\n').map fun line => (line.splitOn ',').map String.ofList⟩

theorem write_split (text : String) : (split text).write = text := by
  have fields (line : List Char) :
      writeRow ((line.splitOn ',').map String.ofList) = line := by
    rw [writeRow, List.map_map]
    simp [Function.comp_def, List.intercalate_splitOn]
  rw [← String.toList_inj, toList_write, split, List.map_map]
  simp [Function.comp_def, fields, List.intercalate_splitOn]

theorem writable_split (text : String) : (split text).Writable := by
  constructor
  · simp [split]
  · intro row hrow
    obtain ⟨line, hline, rfl⟩ := List.mem_map.1 hrow
    refine ⟨by simp, ?_⟩
    intro field hfield
    obtain ⟨piece, hpiece, rfl⟩ := List.mem_map.1 hfield
    rw [String.toList_ofList]
    constructor
    · exact fun comma => (Text.mem_of_mem_splitOn hpiece _ comma).2 rfl
    · intro newline
      have inLine := (Text.mem_of_mem_splitOn hpiece _ newline).1
      exact (Text.mem_of_mem_splitOn hline _ inLine).2 rfl

theorem runFrom_split {text : String} {start : Nat} (le : start ≤ text.length) :
    (Readable.parser : Parser Table).runFrom text start =
      (some (split (String.ofList (text.toList.drop start))), "") := by
  obtain ⟨before, ahead, rfl, rfl⟩ := Cursor.exists_split le
  rw [Parser.runFrom_length, String.toList_ofList, List.drop_left]
  have read := parse_write (writable_split (String.ofList ahead)) before
  rw [write_split, String.toList_ofList] at read
  simp [read]

theorem read?_write {t : Table} (h : t.Writable) : Readable.read? t.write = some t := by
  rw [Readable.read?, Parser.run_eq_some_iff]
  exact ⟨_, parse_write h [], Cursor.rest_between _ _⟩

/-- Every text is read as a table that is written as this text, and every table that can be written
is read back from its text; and any end of a text is read as it is alone. -/
theorem texts_are_tables :
    (∀ text, ∃ t : Table, Readable.read? text = some t ∧ t.Writable ∧ t.write = text) ∧
    (∀ t : Table, t.Writable → Readable.read? t.write = some t) ∧
    (∀ text start, start ≤ text.length → ∃ t : Table,
      (Readable.parser : Parser Table).runFrom text start = (some t, "") ∧
      Readable.read? (String.ofList (text.toList.drop start)) = some t ∧ t.Writable ∧
      t.write = String.ofList (text.toList.drop start)) ∧
    ∀ c, c.Reachable →
      rules.Reads (c.rest.length + 1) table c ((rules.parser table).parse c) := by
  have read (text : String) : Readable.read? text = some (split text) := by
    have written := read?_write (writable_split text)
    rwa [write_split] at written
  refine ⟨?_, fun t h => read?_write h, ?_, ?_⟩
  · intro text
    exact ⟨split text, read text, writable_split text, write_split text⟩
  · intro text start le
    exact ⟨_, runFrom_split le, read _, writable_split _, write_split _⟩
  · intro c hc
    exact terminating.reads_parse (forward .table) (Cursor.reachable_iff_placed.1 hc)

theorem texts_are_tables_empty :
    let t : Table := ⟨[["é", ""], [""], ["x"], [""]]⟩
    t.Writable ∧ t.write = "é,\n\nx\n" ∧ Readable.read? "é,\n\nx\n" = some t ∧
      ∃ u : Table, (Readable.parser : Parser Table).runFrom "é,\n\nx\n" 2 = (some u, "") ∧
        u.write = "\n\nx\n" := by
  intro t
  have writable : t.Writable := by
    unfold Writable
    decide
  have written : t.write = "é,\n\nx\n" := by decide +kernel
  obtain ⟨-, back, ends, -⟩ := texts_are_tables
  obtain ⟨u, found, -, -, same⟩ := ends "é,\n\nx\n" 2 (by decide +kernel)
  exact ⟨writable, written, written ▸ back t writable, u, found, same⟩

end Format.Table
end TextGrammar

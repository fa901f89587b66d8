import TextGrammar.Format.Recursive
import TextGrammar.Proofs.Movement

/-! What a run leaves over. A match takes a run of scalars off the text ahead and a failure takes
nothing, whichever way the parser was put together and however often it went back on the way. -/
namespace TextGrammar

namespace Cursor

theorem exists_split {text : String} {start : Nat} (h : start ≤ text.length) :
    ∃ before ahead, text = String.ofList (before ++ ahead) ∧ start = before.length := by
  refine ⟨text.toList.take start, text.toList.drop start, ?_, ?_⟩
  · simp
  · rw [List.length_take, String.length_toList, Nat.min_eq_left h]

@[simp] theorem atPosition?_length (before ahead : List Char) :
    atPosition? (String.ofList (before ++ ahead)) before.length = some (between before ahead) := by
  simp [atPosition?_eq]

end Cursor

namespace Parser
open Cursor (between atPosition? atPosition?_length)

theorem runFrom_length (p : Parser α) (before ahead : List Char) :
    p.runFrom (String.ofList (before ++ ahead)) before.length =
      match p.parse (between before ahead) with
      | some (a, e) => (some a, e.rest)
      | none => (none, String.ofList ahead) := by
  have le : before.length ≤ (String.ofList (before ++ ahead)).length := by simp
  have cut := runFrom_of_le p le
  rw [String.toList_ofList, List.take_left, List.drop_left] at cut
  exact cut

theorem runFrom_zero (p : Parser α) (text : String) :
    p.runFrom text 0 =
      match p.parse (between [] text.toList) with
      | some (a, e) => (some a, e.rest)
      | none => (none, text) := by
  have all := runFrom_length p [] text.toList
  rw [List.nil_append, String.ofList_toList, List.length_nil] at all
  exact all

/-- A parser whose functions never go back, its rules unrolled to any depth, takes what it matched
off the front of the text, and nothing when it fails; past the end it is not run at all. -/
theorem runFrom_consumes {Rule : Type → Type} {rules : Rules Rule} (hrules : rules.Each Forward)
    {g : Grammar Rule α} (hg : g.Each Forward) (depth : Nat) (text : String) (start : Nat) :
    let p := rules.parserWithin depth g
    (text.length < start → p.runFrom text start = (none, "")) ∧
    (start ≤ text.length → ∃ A B c, text.toList = A ++ B ∧ A.length = start ∧
      atPosition? text start = some c ∧
      (p.parse c = none → p.runFrom text start = (none, String.ofList B)) ∧
      ∀ a e, p.parse c = some (a, e) → ∃ C R, B = C ++ R ∧
        p.runFrom text start = (some a, String.ofList R) ∧ e.source = text ∧
        e.position = start + C.length ∧ e.offset = Text.byteSize (A ++ C)) ∧
    ∀ a, p.run text = some a ↔ p.runFrom text 0 = (some a, "") := by
  intro p
  have forward : p.Forward :=
    compositional_forward.parserWithin moves_fail hrules hg depth
  refine ⟨runFrom_of_lt p, ?_, fun a => run_eq_some⟩
  intro le
  obtain ⟨A, B, rfl, rfl⟩ := Cursor.exists_split le
  refine ⟨A, B, between A B, String.toList_ofList, rfl, atPosition?_length A B, ?_, ?_⟩
  · intro failed
    rw [runFrom_length, failed]
  · intro a e matched
    obtain ⟨C, R, rfl, rfl⟩ := Cursor.exists_of_precedes
      (forward _ (Cursor.placed_between A B) a e matched)
    refine ⟨C, R, rfl, ?_, ?_, ?_, ?_⟩
    · rw [runFrom_length, matched]
      simp
    · simp
    · simp
    · rfl

theorem forward_nesting : Format.Nesting.rules.Each Forward := by
  intro α r
  cases r
  simp [Format.Nesting.rules, forward_pure]

theorem runFrom_consumes_nesting :
    let p := Format.Nesting.rules.parserWithin 9 (.rule .depth)
    Format.Nesting.rules.Each Forward ∧ p.runFrom "é(())x" 1 = (some 2, "x") ∧
    ∃ A B c, "é(())x".toList = A ++ B ∧ A.length = 1 ∧ atPosition? "é(())x" 1 = some c ∧
      (p.parse c = none → p.runFrom "é(())x" 1 = (none, String.ofList B)) ∧
      ∀ a e, p.parse c = some (a, e) → ∃ C R, B = C ++ R ∧
        p.runFrom "é(())x" 1 = (some a, String.ofList R) ∧ e.source = "é(())x" ∧
        e.position = 1 + C.length ∧ e.offset = Text.byteSize (A ++ C) := by
  intro p
  obtain ⟨-, within, -⟩ :=
    runFrom_consumes forward_nesting (g := .rule .depth) trivial 9 "é(())x" 1
  exact ⟨forward_nesting, by decide +kernel, within (by decide +kernel)⟩

end Parser
end TextGrammar

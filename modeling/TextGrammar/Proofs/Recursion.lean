import TextGrammar.Proofs.Consumption
import TextGrammar.Proofs.Reading

/-! Recursion that ends. When a rule is called only after the same body has read a scalar, a call
has less text ahead than the call it is made in, so calls nest no deeper than the text is long;
unrollings that are deeper than that all agree. -/
namespace TextGrammar
open Cursor (between)
open TextGrammar.Parser (Forward Stays)

namespace Rules
variable {Rule : Type → Type} {α β : Type}

def Consumes (rules : Rules Rule) (g : Grammar Rule α) : Prop :=
  ∀ depth c a e, c.Placed → rules.Reads depth g c (some (a, e)) → c.position < e.position

/-- Calls stand only in continuations of grammars that consume. -/
@[simp] def Guarded (rules : Rules Rule) {α : Type} : Grammar Rule α → Prop
  | .scalar => True
  | .exactly _ => True
  | .blanks => True
  | .number => True
  | .textUntil delimiter => rules.Guarded delimiter
  | .ofParser _ => True
  | .map _ g => rules.Guarded g
  | .bind g f => rules.Guarded g ∧ (rules.Consumes g ∨ ∀ a, rules.Guarded (f a))
  | .orElse g h => rules.Guarded g ∧ rules.Guarded h
  | .lookahead g => rules.Guarded g
  | .deferred make => rules.Guarded (make ())
  | .rule _ => False

def CallsEnd (rules : Rules Rule) (depth : Nat) (c : Cursor) : Prop :=
  ∀ {α : Type} (r : Rule α), ∃ result, rules.Reads depth (.rule r) c result

def CallsEndLater (rules : Rules Rule) (depth : Nat) (c : Cursor) : Prop :=
  ∀ d, c.Precedes d → d.rest.length < c.rest.length → rules.CallsEnd depth d

section
variable {rules : Rules Rule} {depth : Nat} {c d : Cursor}

theorem CallsEndLater.of_precedes (h : rules.CallsEndLater depth c) (hcd : c.Precedes d)
    (lt : d.rest.length < c.rest.length) : rules.CallsEndLater depth d := by
  intro e hde lt'
  apply h e (hcd.trans hde)
  exact Nat.lt_trans lt' lt

theorem exists_reads_bind {g : Grammar Rule α} {f : α → Grammar Rule β}
    (first : ∃ result, rules.Reads depth g c result)
    (next : ∀ a d, rules.Reads depth g c (some (a, d)) →
      ∃ result, rules.Reads depth (f a) d result) :
    ∃ result, rules.Reads depth (.bind g f) c result := by
  obtain ⟨result, h⟩ := first
  cases result with
  | none => exact ⟨_, .bindFail h⟩
  | some r =>
    obtain ⟨result, h'⟩ := next r.1 r.2 h
    exact ⟨_, .bindNext h h'⟩

theorem exists_reads_orElse {g h : Grammar Rule α}
    (first : ∃ result, rules.Reads depth g c result)
    (second : ∃ result, rules.Reads depth h c result) :
    ∃ result, rules.Reads depth (.orElse g h) c result := by
  obtain ⟨result, h⟩ := first
  cases result with
  | some r => exact ⟨_, .orElseFirst h⟩
  | none =>
    obtain ⟨result, h'⟩ := second
    exact ⟨_, .orElseSecond h h'⟩

theorem exists_reads_textUntil {g : Grammar Rule α} (hc : c.Placed)
    (h : ∀ d, c.Precedes d → ∃ result, rules.Reads depth g d result) :
    ∃ result, rules.Reads depth (.textUntil g) c result := by
  obtain ⟨before, ahead, rfl⟩ := hc
  suffices ∃ text e, rules.Reads depth (.textUntil g) (between before ahead) (some (text, e)) by
    obtain ⟨text, e, reads⟩ := this
    exact ⟨_, reads⟩
  induction ahead generalizing before with
  | nil => exact ⟨_, _, .textUntilEnd (Cursor.scalar?_between _ _)⟩
  | cons x xs ih =>
    obtain ⟨result, here⟩ := h _ (.refl (Cursor.placed_between _ _))
    cases result with
    | some r => exact ⟨_, _, .textUntilFound (Cursor.scalar?_between _ _) here⟩
    | none =>
      have step := Cursor.precedes_between before [x] xs
      obtain ⟨text, e, next⟩ := ih _ fun d hd => h d (step.trans hd)
      rw [← Cursor.next_between_cons] at next
      exact ⟨_, _, .textUntilNext (Cursor.scalar?_between _ _) here next⟩

theorem exists_reads (hrules : rules.Each Forward) {g : Grammar Rule α} (hg : g.Each Forward)
    (hc : c.Placed) (here : rules.Guarded g ∨ rules.CallsEnd depth c)
    (later : rules.CallsEndLater depth c) : ∃ result, rules.Reads depth g c result := by
  -- `here` is about calls from where `g` starts, `later` about those behind something read
  induction g generalizing c with
  | scalar => exact ⟨_, .scalar rfl⟩
  | exactly text => exact ⟨_, .exactly rfl⟩
  | blanks => exact ⟨_, .blanks rfl⟩
  | number => exact ⟨_, .number rfl⟩
  | ofParser p => exact ⟨_, .ofParser rfl⟩
  | textUntil delimiter ih =>
    apply exists_reads_textUntil hc
    intro d hcd
    rcases hcd.eq_or_lt hc with rfl | lt
    · exact ih hg hc here later
    · exact ih hg hcd.1 (.inr (later d hcd lt)) (later.of_precedes hcd lt)
  | map f g ih =>
    obtain ⟨result, h⟩ := ih hg hc here later
    exact ⟨_, .map f h⟩
  | bind g f ihg ihf =>
    apply exists_reads_bind (ihg hg.1 hc (here.imp_left And.left) later)
    intro a d first
    have hcd := first.precedes hrules hg.1 hc
    rcases hcd.eq_or_lt hc with rfl | lt
    · -- nothing was taken, so the continuation is guarded by what stands in it
      have unmoved : ¬ rules.Consumes g := fun consumes =>
        Nat.lt_irrefl _ (consumes depth d a d hc first)
      have next : rules.Guarded (f a) ∨ rules.CallsEnd depth d :=
        here.imp_left fun guarded => guarded.2.resolve_left unmoved a
      exact ihf a (hg.2 a) hc next later
    · exact ihf a (hg.2 a) hcd.1 (.inr (later d hcd lt)) (later.of_precedes hcd lt)
  | orElse g h ihg ihh =>
    apply exists_reads_orElse
    · exact ihg hg.1 hc (here.imp_left And.left) later
    · exact ihh hg.2 hc (here.imp_left And.right) later
  | lookahead g ih =>
    obtain ⟨result, h⟩ := ih hg hc here later
    exact ⟨_, .lookahead h⟩
  | deferred make ih =>
    obtain ⟨result, h⟩ := ih () hg hc here later
    exact ⟨_, .deferred h⟩
  | rule r =>
    rcases here with guarded | calls
    · exact guarded.elim
    · exact calls r

end

theorem callsEnd {rules : Rules Rule} (hrules : rules.Each Forward)
    (guarded : ∀ {α : Type} (r : Rule α), rules.Guarded (rules.body r)) {depth : Nat} {c : Cursor}
    (hc : c.Placed) (few : c.rest.length < depth) : rules.CallsEnd depth c := by
  induction depth generalizing c with
  | zero => omega
  | succ depth ih =>
    intro α r
    -- behind a scalar that was read less text lies ahead, and one level less is enough for it
    have later : rules.CallsEndLater depth c := by
      intro d hcd lt
      apply ih hcd.1
      omega
    obtain ⟨result, h⟩ := exists_reads hrules (hrules r) hc (.inl (guarded r)) later
    exact ⟨result, .rule h⟩

/-- Guarded rules end at every cursor, with no more bodies active at once than there are scalars
ahead, and one more; and however deep they are unrolled beyond that, they give one result. -/
theorem guarded_rules_end {rules : Rules Rule} (hrules : rules.Each Forward)
    (guarded : ∀ {α : Type} (r : Rule α), rules.Guarded (rules.body r)) (r : Rule α) {c : Cursor}
    (hc : c.Placed) :
    ∃ result, rules.Reads (c.rest.length + 1) (.rule r) c result ∧
      (∀ depth other, rules.Reads depth (.rule r) c other → other = result) ∧
      (rules.parser (.rule r)).parse c = result ∧
      ∀ n, c.rest.length ≤ n → ∀ bottom : ∀ {β : Type}, Rule β → Parser β,
        (∀ {β : Type} (s : Rule β), (bottom s).Stays) →
        (rules.unroll bottom (n + 1) r).parse c = result := by
  have stays : rules.Each Stays := hrules.mono Forward.stays
  obtain ⟨result, h⟩ := callsEnd hrules guarded hc (Nat.lt_succ_self _) r
  refine ⟨result, h, ?_, ?_, ?_⟩
  · intro depth other h'
    exact h'.unique (g := .rule r) stays trivial hc h
  · exact h.parserWithin_eq (g := .rule r) stays trivial hc
  · intro n few bottom hbottom
    exact (h.mono (Nat.succ_le_succ few)).unroll_eq stays hbottom hc

theorem consumes_exactly {rules : Rules Rule} (hrules : rules.Each Forward) {text : String}
    (h : text ≠ "") : rules.Consumes (.exactly text) := by
  intro depth c a e hc hr
  have stays : rules.Each Stays := hrules.mono Forward.stays
  have matched : (Parser.exactly text).parse c = some (a, e) :=
    hr.parserWithin_eq (g := .exactly text) stays trivial hc
  obtain ⟨before, ahead, rfl⟩ := hc
  rw [Parser.parse_exactly] at matched
  split at matched
  case isTrue =>
    cases matched
    have := List.length_pos_iff.2 (mt String.toList_eq_nil_iff.1 h)
    rw [Cursor.position_between, Cursor.position_between, List.length_append]
    omega
  case isFalse => contradiction

theorem guarded_nesting {α : Type} (r : Format.Nesting.Rule α) :
    Format.Nesting.rules.Guarded (Format.Nesting.rules.body r) := by
  cases r
  have bracket : Format.Nesting.rules.Consumes (.exactly "(") :=
    consumes_exactly Parser.forward_nesting (by decide)
  exact ⟨⟨⟨trivial, .inl bracket⟩, .inr fun _ => trivial⟩, trivial⟩

theorem guarded_rules_end_nesting :
    let c := between [] ['(', '(', '(', '(']
    Format.Nesting.rules.Each Forward ∧ c.Placed ∧
      Format.Nesting.rules.Reads 5 (.rule .depth) c (some (0, c)) := by
  intro c
  have placed : c.Placed := Cursor.placed_between _ _
  have length : c.rest.length = 4 := by rw [Cursor.rest_between]; rfl
  have found : (Format.Nesting.rules.parser (.rule .depth)).parse c = some (0, c) := by
    decide +kernel
  obtain ⟨result, h, -, same, -⟩ := @guarded_rules_end Format.Nesting.Rule Nat
    Format.Nesting.rules Parser.forward_nesting guarded_nesting .depth c placed
  obtain rfl := same.symm.trans found
  exact ⟨Parser.forward_nesting, placed, h.mono (by omega)⟩

end Rules
end TextGrammar

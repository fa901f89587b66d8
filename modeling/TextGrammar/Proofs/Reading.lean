import TextGrammar.Proofs.Movement

/-! What it means that reading ends. A parser of a grammar is total, whatever its rules do, since
calls that nest too deep are answered by something else; the relation here has no such answer. It
is a derivation for every reading that ends, and counts the bodies that are active at once. -/
namespace TextGrammar
open TextGrammar.Parser (Forward Stays)

/-- `rules.Reads depth g c result`: the grammar `g` read at `c` ends with `result`, and no more
than `depth` bodies of rules are active at any time. -/
inductive Rules.Reads {Rule : Type → Type} (rules : Rules Rule) : Nat → {α : Type} →
    Grammar Rule α → Cursor → Option (α × Cursor) → Prop where
  | scalar : Parser.scalar.parse c = result → Reads rules depth .scalar c result
  | exactly : (Parser.exactly text).parse c = result → Reads rules depth (.exactly text) c result
  | blanks : Parser.blanks.parse c = result → Reads rules depth .blanks c result
  | number : Parser.number.parse c = result → Reads rules depth .number c result
  | ofParser {α : Type} {p : Parser α} {result : Option (α × Cursor)} : p.parse c = result →
      Reads rules depth (.ofParser p) c result
  | textUntilEnd : c.scalar? = none → Reads rules depth (.textUntil g) c (some ("", c))
  | textUntilFound : c.scalar? = some x → Reads rules depth g c (some r) →
      Reads rules depth (.textUntil g) c (some ("", c))
  | textUntilNext : c.scalar? = some x → Reads rules depth g c none →
      Reads rules depth (.textUntil g) c.next (some (text, e)) →
      Reads rules depth (.textUntil g) c (some (String.singleton x ++ text, e))
  | map (f : α → β) : Reads rules depth g c result →
      Reads rules depth (.map f g) c (result.map fun (a, e) => (f a, e))
  | bindFail : Reads rules depth g c none → Reads rules depth (.bind g f) c none
  | bindNext : Reads rules depth g c (some (a, d)) → Reads rules depth (f a) d result →
      Reads rules depth (.bind g f) c result
  | orElseFirst : Reads rules depth g c (some r) → Reads rules depth (.orElse g h) c (some r)
  | orElseSecond : Reads rules depth g c none → Reads rules depth h c result →
      Reads rules depth (.orElse g h) c result
  | lookahead {α : Type} {g : Grammar Rule α} {result : Option (α × Cursor)} :
      Reads rules depth g c result →
      Reads rules depth (.lookahead g) c (result.map fun (a, _) => (a, c))
  | deferred : Reads rules depth (make ()) c result → Reads rules depth (.deferred make) c result
  | rule : Reads rules depth (rules.body r) c result → Reads rules (depth + 1) (.rule r) c result

/-- What there is to a reading of `g` at `c` that ends with `result`: the readings of the parts of `g`
that were made for it. -/
def Rules.Parts {Rule : Type → Type} (rules : Rules Rule) (depth : Nat) {α : Type} :
    Grammar Rule α → Cursor → Option (α × Cursor) → Prop
  | .scalar, c, result => Parser.scalar.parse c = result
  | .exactly text, c, result => (Parser.exactly text).parse c = result
  | .blanks, c, result => Parser.blanks.parse c = result
  | .number, c, result => Parser.number.parse c = result
  | .ofParser p, c, result => p.parse c = result
  | .textUntil g, c, result =>
    result = some ("", c) ∧ (c.scalar? = none ∨
      ∃ x r, c.scalar? = some x ∧ rules.Reads depth g c (some r)) ∨
    ∃ x text e, c.scalar? = some x ∧ rules.Reads depth g c none ∧
      rules.Reads depth (.textUntil g) c.next (some (text, e)) ∧
      result = some (String.singleton x ++ text, e)
  | .map f g, c, result => ∃ r, rules.Reads depth g c r ∧ result = r.map fun (a, e) => (f a, e)
  | .bind g f, c, result => rules.Reads depth g c none ∧ result = none ∨
    ∃ a d, rules.Reads depth g c (some (a, d)) ∧ rules.Reads depth (f a) d result
  | .orElse g h, c, result => (∃ r, rules.Reads depth g c (some r) ∧ result = some r) ∨
    rules.Reads depth g c none ∧ rules.Reads depth h c result
  | .lookahead g, c, result => ∃ r, rules.Reads depth g c r ∧ result = r.map fun (a, _) => (a, c)
  | .deferred make, c, result => rules.Reads depth (make ()) c result
  | .rule r, c, result => ∃ n, n < depth ∧ rules.Reads n (rules.body r) c result

namespace Rules.Reads
variable {Rule : Type → Type} {rules : Rules Rule} {α : Type}

theorem parts {g : Grammar Rule α} {depth : Nat} {c : Cursor} {result : Option (α × Cursor)}
    (h : rules.Reads depth g c result) : rules.Parts depth g c result := by
  cases h with
  | scalar h | exactly h | blanks h | number h | ofParser h | deferred h => exact h
  | textUntilEnd hx => exact .inl ⟨rfl, .inl hx⟩
  | textUntilFound hx found => exact .inl ⟨rfl, .inr ⟨_, _, hx, found⟩⟩
  | textUntilNext hx refused next => exact .inr ⟨_, _, _, hx, refused, next, rfl⟩
  | map f h | lookahead h => exact ⟨_, h, rfl⟩
  | bindFail h => exact .inl ⟨h, rfl⟩
  | bindNext first next => exact .inr ⟨_, _, first, next⟩
  | orElseFirst h => exact .inl ⟨_, h, rfl⟩
  | orElseSecond first second => exact .inr ⟨first, second⟩
  | rule h => exact ⟨_, Nat.lt_succ_self _, h⟩

theorem mono {g : Grammar Rule α} {c : Cursor} {result : Option (α × Cursor)} {m n : Nat}
    (h : rules.Reads m g c result) (le : m ≤ n) : rules.Reads n g c result := by
  induction h generalizing n with
  | scalar h => exact .scalar h
  | exactly h => exact .exactly h
  | blanks h => exact .blanks h
  | number h => exact .number h
  | ofParser h => exact .ofParser h
  | textUntilEnd hx => exact .textUntilEnd hx
  | textUntilFound hx _ ih => exact .textUntilFound hx (ih le)
  | textUntilNext hx _ _ ih ihnext => exact .textUntilNext hx (ih le) (ihnext le)
  | map f _ ih => exact .map f (ih le)
  | bindFail _ ih => exact .bindFail (ih le)
  | bindNext _ _ ih ihnext => exact .bindNext (ih le) (ihnext le)
  | orElseFirst _ ih => exact .orElseFirst (ih le)
  | orElseSecond _ _ ih ihsecond => exact .orElseSecond (ih le) (ihsecond le)
  | lookahead _ ih => exact .lookahead (ih le)
  | deferred _ ih => exact .deferred (ih le)
  | rule _ ih =>
    obtain ⟨n, rfl⟩ := Nat.exists_eq_add_of_lt le
    exact .rule (ih (by omega))

theorem parse_eq {calls : ∀ {α : Type}, Rule α → Parser α} {depth : Nat}
    (hcalls : ∀ {α : Type} (r : Rule α), (calls r).Stays)
    (answers : ∀ {α : Type} {r : Rule α} {c result}, c.Placed →
      rules.Reads depth (.rule r) c result → (calls r).parse c = result)
    {g : Grammar Rule α} (hg : g.Each Stays) {c : Cursor} (hc : c.Placed)
    {result : Option (α × Cursor)} (h : rules.Reads depth g c result) :
    (g.parser calls).parse c = result := by
  -- one case for each way a reading ends; calls are answered by the hypothesis
  induction h with
  | scalar h | exactly h | blanks h | number h | ofParser h => exact h
  | textUntilEnd hx =>
    obtain ⟨before, ahead, rfl⟩ := hc
    rw [Cursor.scalar?_between, List.head?_eq_none_iff] at hx
    subst hx
    exact Parser.parse_textUntil_nil _ before
  | textUntilFound _ _ ih =>
    have found := ih answers hg hc
    obtain ⟨before, ahead, rfl⟩ := hc
    exact Parser.parse_textUntil_of_match found
  | textUntilNext hx _ _ ih ihnext =>
    have refused := ih answers hg hc
    obtain ⟨before, ahead, rfl⟩ := hc
    rw [Cursor.scalar?_between] at hx
    obtain ⟨xs, rfl⟩ := List.head?_eq_some_iff.1 hx
    rw [Cursor.next_between_cons] at ihnext
    have next := ihnext answers hg (Cursor.placed_between _ _)
    rw [Grammar.parser_textUntil] at next ⊢
    rw [Parser.parse_textUntil_of_no_match refused, next]
    rfl
  | map f _ ih =>
    rw [← ih answers hg hc]
    rfl
  | bindFail _ ih =>
    change ((Grammar.parser _ _).parse _).bind _ = none
    rw [ih answers hg.1 hc]
    rfl
  | bindNext _ _ ih ihnext =>
    have first := ih answers hg.1 hc
    have stays := Parser.compositional_stays.parser hcalls hg.1
    change ((Grammar.parser _ _).parse _).bind _ = _
    rw [first]
    exact ihnext answers (hg.2 _) (stays _ hc _ _ first).1
  | orElseFirst _ ih =>
    change ((Grammar.parser _ _).parse _ <|> (Grammar.parser _ _).parse _) = _
    rw [ih answers hg.1 hc]
    rfl
  | orElseSecond _ _ ih ihsecond =>
    change ((Grammar.parser _ _).parse _ <|> (Grammar.parser _ _).parse _) = _
    rw [ih answers hg.1 hc, ihsecond answers hg.2 hc]
    rfl
  | lookahead _ ih =>
    rw [← ih answers hg hc]
    rfl
  | deferred _ ih => exact ih answers hg hc
  | rule h _ => exact answers hc (.rule h)

theorem unroll_eq (hrules : rules.Each Stays) {bottom : ∀ {α : Type}, Rule α → Parser α}
    (hbottom : ∀ {α : Type} (r : Rule α), (bottom r).Stays) {depth : Nat} {r : Rule α}
    {c : Cursor} (hc : c.Placed) {result : Option (α × Cursor)}
    (h : rules.Reads depth (.rule r) c result) :
    (rules.unroll bottom depth r).parse c = result := by
  induction depth generalizing α c with
  | zero => cases h
  | succ depth ih =>
    cases h with
    | rule h =>
      -- calls from this body nest one level less, whatever stands below that
      exact h.parse_eq (fun s => Parser.compositional_stays.unroll hrules hbottom depth s)
        (fun hc h => ih hc h) (hrules r) hc

theorem parserWithin_eq (hrules : rules.Each Stays) {g : Grammar Rule α} (hg : g.Each Stays)
    {depth : Nat} {c : Cursor} (hc : c.Placed) {result : Option (α × Cursor)}
    (h : rules.Reads depth g c result) : (rules.parserWithin depth g).parse c = result :=
  h.parse_eq
    (fun r => Parser.compositional_stays.unroll hrules (fun _ => Parser.moves_fail) depth r)
    (fun hc h => h.unroll_eq hrules (fun _ => Parser.moves_fail) hc) hg hc

theorem precedes (hrules : rules.Each Forward) {g : Grammar Rule α} (hg : g.Each Forward)
    {depth : Nat} {c e : Cursor} (hc : c.Placed) {a : α}
    (h : rules.Reads depth g c (some (a, e))) : c.Precedes e := by
  have matched := h.parserWithin_eq (hrules.mono Forward.stays) (hg.mono Forward.stays) hc
  exact Parser.compositional_forward.parserWithin Parser.moves_fail hrules hg depth c hc a e matched

theorem unique (hrules : rules.Each Stays) {g : Grammar Rule α} (hg : g.Each Stays) {m n : Nat}
    {c : Cursor} (hc : c.Placed) {result other : Option (α × Cursor)}
    (h : rules.Reads m g c result) (h' : rules.Reads n g c other) : result = other := by
  have deep := (h.mono (Nat.le_max_left m n)).parserWithin_eq hrules hg hc
  have deep' := (h'.mono (Nat.le_max_right m n)).parserWithin_eq hrules hg hc
  exact deep.symm.trans deep'

end Rules.Reads
end TextGrammar

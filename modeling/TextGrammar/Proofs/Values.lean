import TextGrammar.Format.Recursive
import TextGrammar.Proofs.Delimiters
import TextGrammar.Proofs.Reading

/-! Values and matches. What is read for a value decides nothing about where a grammar matches and
how far, unless a continuation asks for it. So the functions that make values can be exchanged or
left out, in the rules as well, and what is left accepts the same texts. -/
namespace TextGrammar

namespace Parser
open Cursor (between next)

/-- Two results that differ in their values at most. Where they end stands between scalars, as every
cursor does that can be had. -/
inductive SameEnd : Option (α × Cursor) → Option (β × Cursor) → Prop where
  | none : SameEnd none none
  | some : e.Placed → SameEnd (some (a, e)) (some (b, e))

/-- At every cursor, `p` and `q` both fail, or both match and end at one cursor. -/
def MatchesAs (p : Parser α) (q : Parser β) : Prop :=
  ∀ c, c.Placed → SameEnd (p.parse c) (q.parse c)

namespace SameEnd
variable {r : Option (α × Cursor)} {s : Option (β × Cursor)}

theorem symm (h : SameEnd r s) : SameEnd s r := by
  cases h with
  | none => exact .none
  | some he => exact .some he

theorem isSome_eq (h : SameEnd r s) : r.isSome = s.isSome := by
  cases h <;> rfl

theorem map_left (f : α → γ) (h : SameEnd r s) : SameEnd (r.map fun (a, e) => (f a, e)) s := by
  cases h with
  | none => exact .none
  | some he => exact .some he

theorem bind {f : α × Cursor → Option (γ × Cursor)} {g : β × Cursor → Option (δ × Cursor)}
    (h : SameEnd r s) (hfg : ∀ a b e, e.Placed → SameEnd (f (a, e)) (g (b, e))) :
    SameEnd (r.bind f) (s.bind g) := by
  cases h with
  | none => exact .none
  | some he => exact hfg _ _ _ he

theorem or {r' : Option (α × Cursor)} {s' : Option (β × Cursor)} (h : SameEnd r s)
    (h' : SameEnd r' s') : SameEnd (r.or r') (s.or s') := by
  cases h with
  | none => exact h'
  | some he => exact .some he

theorem lookahead {c : Cursor} (hc : c.Placed) (h : SameEnd r s) :
    SameEnd (r.map fun (a, _) => (a, c)) (s.map fun (b, _) => (b, c)) := by
  cases h with
  | none => exact .none
  | some => exact .some hc

end SameEnd

section
variable {p : Parser α} {q : Parser β}

theorem Forward.matchesAs (h : p.Forward) : p.MatchesAs p := by
  intro c hc
  cases matched : p.parse c with
  | none => exact .none
  | some r => exact .some (h c hc r.1 r.2 matched).1

theorem matchesAs_fail : (fail : Parser α).MatchesAs (fail : Parser β) :=
  fun _ _ => .none

theorem matchesAs_pure (a : α) (b : β) : (pure a : Parser α).MatchesAs (pure b : Parser β) :=
  fun _ hc => .some hc

namespace MatchesAs

theorem symm (h : p.MatchesAs q) : q.MatchesAs p :=
  fun c hc => (h c hc).symm

theorem map_left (f : α → γ) (h : p.MatchesAs q) : (f <$> p).MatchesAs q :=
  fun c hc => (h c hc).map_left f

theorem bind {f : α → Parser γ} {g : β → Parser δ} (h : p.MatchesAs q)
    (hfg : ∀ a b, (f a).MatchesAs (g b)) : (p >>= f).MatchesAs (q >>= g) :=
  fun c hc => (h c hc).bind fun a b e he => hfg a b e he

theorem orElse {p' : Parser α} {q' : Parser β} (h : p.MatchesAs q) (h' : p'.MatchesAs q') :
    (p <|> p').MatchesAs (q <|> q') := by
  intro c hc
  rw [parse_orElse, parse_orElse]
  exact (h c hc).or (h' c hc)

theorem lookahead (h : p.MatchesAs q) : p.lookahead.MatchesAs q.lookahead :=
  fun c hc => (h c hc).lookahead hc

theorem parse_textUntil_eq (h : p.MatchesAs q) {c : Cursor} (hc : c.Placed) :
    (textUntil p).parse c = (textUntil q).parse c := by
  obtain ⟨before, ahead, rfl⟩ := hc
  obtain ⟨mid, after, rfl, met⟩ := exists_firstMet p before ahead
  have met' : q.FirstMet (between before (mid ++ after)) mid.length := by
    apply met.congr
    intro j _ _
    exact (h _ (Cursor.placed_iterate_next (Cursor.placed_between _ _) j)).symm.isSome_eq
  rw [met.parse_textUntil, met'.parse_textUntil]

theorem textUntil (h : p.MatchesAs q) : (textUntil p).MatchesAs (textUntil q) := by
  intro c hc
  rw [h.parse_textUntil_eq hc]
  exact (forward_textUntil q).matchesAs c hc

theorem runFrom (h : p.MatchesAs q) (text : String) (start : Nat) :
    (p.runFrom text start).1.isSome = (q.runFrom text start).1.isSome ∧
      (p.runFrom text start).2 = (q.runFrom text start).2 := by
  by_cases le : start ≤ text.length
  · have same := h _ (Cursor.placed_between (text.toList.take start) (text.toList.drop start))
    rw [runFrom_of_le p le, runFrom_of_le q le]
    generalize p.parse _ = r, q.parse _ = s at same ⊢
    cases same <;> exact ⟨rfl, rfl⟩
  · rw [runFrom_of_lt p (Nat.lt_of_not_le le), runFrom_of_lt q (Nat.lt_of_not_le le)]
    exact ⟨rfl, rfl⟩

theorem isSome_run_eq (h : p.MatchesAs q) (text : String) :
    (p.run text).isSome = (q.run text).isSome := by
  obtain ⟨matched, left⟩ := h.runFrom text 0
  rw [Bool.eq_iff_iff, isSome_run_iff, isSome_run_iff, matched, left]

end MatchesAs
end
end Parser

open TextGrammar.Parser (MatchesAs SameEnd)

section
variable {Rule Rule' : Type → Type} (Paired : ∀ {α β : Type}, Rule α → Rule' β → Prop)
  (Known : ∀ {α β : Type}, Grammar Rule α → Grammar Rule' β → Prop)

/-- Grammars of one shape. Functions that make values stand in them wherever they like, and the values
that parsers of one and the other give may differ. `Paired` tells which rule is called for which, and
`Known` which parts match alike for other reasons. -/
inductive Grammar.Alike : ∀ {α β : Type}, Grammar Rule α → Grammar Rule' β → Prop where
  | scalar : Alike .scalar .scalar
  | exactly (text : String) : Alike (.exactly text) (.exactly text)
  | blanks : Alike .blanks .blanks
  | number : Alike .number .number
  | textUntil : Alike g h → Alike (.textUntil g) (.textUntil h)
  | ofParser : p.MatchesAs q → Alike (.ofParser p) (.ofParser q)
  | mapLeft (f : α → γ) : Alike g h → Alike (.map f g) h
  | mapRight (f : β → γ) : Alike g h → Alike g (.map f h)
  | bind : Alike g h → (∀ a b, Alike (k a) (l b)) → Alike (.bind g k) (.bind h l)
  | orElse : Alike g h → Alike g' h' → Alike (.orElse g g') (.orElse h h')
  | lookahead : Alike g h → Alike (.lookahead g) (.lookahead h)
  | deferred : Alike (make ()) (make' ()) → Alike (.deferred make) (.deferred make')
  | rule : Paired r r' → Alike (.rule r) (.rule r')
  | known : Known g h → Alike g h

end

section
variable {Rule Rule' : Type → Type} {Paired : ∀ {α β : Type}, Rule α → Rule' β → Prop}
  {Known : ∀ {α β : Type}, Grammar Rule α → Grammar Rule' β → Prop} {α β : Type}

namespace Grammar.Alike

theorem symm {g : Grammar Rule α} {h : Grammar Rule' β} (alike : Alike Paired Known g h) :
    Alike (fun r' r => Paired r r') (fun h g => Known g h) h g := by
  induction alike with
  | scalar => exact .scalar
  | exactly text => exact .exactly text
  | blanks => exact .blanks
  | number => exact .number
  | textUntil _ ih => exact .textUntil ih
  | ofParser same => exact .ofParser same.symm
  | mapLeft f _ ih => exact .mapRight f ih
  | mapRight f _ ih => exact .mapLeft f ih
  | bind _ _ ih ihnext => exact .bind ih fun b a => ihnext a b
  | orElse _ _ ih ihsecond => exact .orElse ih ihsecond
  | lookahead _ ih => exact .lookahead ih
  | deferred _ ih => exact .deferred ih
  | rule paired => exact .rule paired
  | known same => exact .known same

theorem parser {calls : ∀ {α : Type}, Rule α → Parser α}
    {calls' : ∀ {α : Type}, Rule' α → Parser α}
    (hcalls : ∀ {α β : Type} {r : Rule α} {r' : Rule' β}, Paired r r' →
      (calls r).MatchesAs (calls' r'))
    (known : ∀ {α β : Type} {g : Grammar Rule α} {h : Grammar Rule' β}, Known g h →
      (g.parser calls).MatchesAs (h.parser calls'))
    {g : Grammar Rule α} {h : Grammar Rule' β} (alike : Alike Paired Known g h) :
    (g.parser calls).MatchesAs (h.parser calls') := by
  induction alike with
  | scalar => exact Parser.forward_scalar.matchesAs
  | exactly text => exact (Parser.forward_exactly text).matchesAs
  | blanks => exact Parser.forward_blanks.matchesAs
  | number => exact Parser.forward_number.matchesAs
  | textUntil _ ih => exact ih.textUntil
  | ofParser same => exact same
  | mapLeft f _ ih => exact ih.map_left f
  | mapRight f _ ih => exact (ih.symm.map_left f).symm
  | bind _ _ ih ihnext => exact ih.bind ihnext
  | orElse _ _ ih ihsecond => exact ih.orElse ihsecond
  | lookahead _ ih => exact ih.lookahead
  | deferred _ ih => exact ih
  | rule paired => exact hcalls paired
  | known same => exact known same

theorem unroll {rules : Rules Rule} {rules' : Rules Rule'}
    (hrules : ∀ {α β : Type} {r : Rule α} {r' : Rule' β}, Paired r r' →
      Alike Paired Known (rules.body r) (rules'.body r'))
    (known : ∀ {α β : Type} {g : Grammar Rule α} {h : Grammar Rule' β}, Known g h →
      ∀ depth, (rules.parserWithin depth g).MatchesAs (rules'.parserWithin depth h))
    (depth : Nat) {r : Rule α} {r' : Rule' β} (paired : Paired r r') :
    (rules.unroll (fun _ => .fail) depth r).MatchesAs
      (rules'.unroll (fun _ => .fail) depth r') := by
  induction depth generalizing α β with
  | zero => exact Parser.matchesAs_fail
  | succ depth ih => exact (hrules paired).parser ih fun same => known same depth

end Grammar.Alike

namespace Rules

def Ends (rules : Rules Rule) (g : Grammar Rule α) (c : Cursor) (result : Option (α × Cursor)) :
    Prop :=
  ∃ depth, rules.Reads depth g c result

/-- Where reading `g` ends, with no more than `depth` calls nested, reading `h` ends as well, and no
other way than in the value. -/
def FollowedBy (rules : Rules Rule) (rules' : Rules Rule') (depth : Nat) (g : Grammar Rule α)
    (h : Grammar Rule' β) : Prop :=
  ∀ c, c.Placed → ∀ result, rules.Reads depth g c result →
    ∃ other, rules'.Ends h c other ∧ SameEnd result other

/-- At every cursor neither reading ends, or both fail, or both match and end at one cursor. -/
def ReadsAs (rules : Rules Rule) (rules' : Rules Rule') (g : Grammar Rule α)
    (h : Grammar Rule' β) : Prop :=
  ∀ depth, rules.FollowedBy rules' depth g h ∧ rules'.FollowedBy rules depth h g

namespace Ends
variable {rules : Rules Rule} {c d : Cursor}

theorem bindNext {g : Grammar Rule α} {k : α → Grammar Rule β} {result : Option (β × Cursor)}
    (first : rules.Ends g c (some (a, d))) (next : rules.Ends (k a) d result) :
    rules.Ends (.bind g k) c result := by
  obtain ⟨m, first⟩ := first
  obtain ⟨n, next⟩ := next
  exact ⟨max m n, .bindNext (first.mono (Nat.le_max_left m n)) (next.mono (Nat.le_max_right m n))⟩

theorem orElseSecond {g h : Grammar Rule α} {result : Option (α × Cursor)}
    (first : rules.Ends g c none) (second : rules.Ends h c result) :
    rules.Ends (.orElse g h) c result := by
  obtain ⟨m, first⟩ := first
  obtain ⟨n, second⟩ := second
  exact ⟨max m n,
    .orElseSecond (first.mono (Nat.le_max_left m n)) (second.mono (Nat.le_max_right m n))⟩

theorem textUntilNext {g : Grammar Rule α} (hx : c.scalar? = some x)
    (refused : rules.Ends g c none) (next : rules.Ends (.textUntil g) c.next (some (text, e))) :
    rules.Ends (.textUntil g) c (some (String.singleton x ++ text, e)) := by
  obtain ⟨m, refused⟩ := refused
  obtain ⟨n, next⟩ := next
  exact ⟨max m n,
    .textUntilNext hx (refused.mono (Nat.le_max_left m n)) (next.mono (Nat.le_max_right m n))⟩

end Ends

variable {rules : Rules Rule} {rules' : Rules Rule'}

theorem ends_textUntil {g : Grammar Rule α} {h : Grammar Rule' β} {depth : Nat}
    (followed : rules.FollowedBy rules' depth g h) {c : Cursor} (hc : c.Placed)
    {result : Option (String × Cursor)} (reads : rules.Reads depth (.textUntil g) c result) :
    rules'.Ends (.textUntil h) c result ∧ SameEnd result result := by
  obtain ⟨before, ahead, rfl⟩ := hc
  induction ahead generalizing before result with
  | nil =>
    rcases reads.parts with ⟨rfl, -⟩ | ⟨x, -, -, hx, -⟩
    · exact ⟨⟨0, .textUntilEnd (Cursor.scalar?_between _ _)⟩, .some (Cursor.placed_between _ _)⟩
    · rw [Cursor.scalar?_between] at hx
      contradiction
  | cons x xs ih =>
    have here : (Cursor.between before (x :: xs)).scalar? = some x := Cursor.scalar?_between _ _
    have placed := Cursor.placed_between before (x :: xs)
    rcases reads.parts with ⟨rfl, none | ⟨-, r, -, found⟩⟩ | ⟨y, text, e, hy, refused, later, rfl⟩
    · rw [here] at none
      contradiction
    · obtain ⟨other, ⟨n, found'⟩, same⟩ := followed _ placed _ found
      cases same with
      | some => exact ⟨⟨n, .textUntilFound here found'⟩, .some placed⟩
    · -- both delimiters fail here, so both texts go on with this scalar
      obtain ⟨other, refused', same⟩ := followed _ placed _ refused
      cases same
      obtain rfl : x = y := Option.some.inj (here.symm.trans hy)
      rw [Cursor.next_between_cons] at later
      obtain ⟨later', same⟩ := ih _ later
      rw [← Cursor.next_between_cons] at later'
      cases same with
      | some he => exact ⟨.textUntilNext here refused' later', .some he⟩

namespace FollowedBy
variable {depth : Nat} {g : Grammar Rule α} {h : Grammar Rule' β}

theorem of_matchesAs {p : Parser α} {q : Parser β} (same : p.MatchesAs q)
    (left : ∀ {c result}, rules.Reads depth g c result → p.parse c = result)
    (right : ∀ {c}, rules'.Reads 0 h c (q.parse c)) : rules.FollowedBy rules' depth g h := by
  intro c hc result reads
  obtain rfl := left reads
  exact ⟨_, ⟨0, right⟩, same c hc⟩

theorem textUntil (followed : rules.FollowedBy rules' depth g h) :
    rules.FollowedBy rules' depth (.textUntil g) (.textUntil h) := by
  intro c hc result reads
  obtain ⟨ends, same⟩ := ends_textUntil followed hc reads
  exact ⟨result, ends, same⟩

theorem map_left (f : α → γ) (followed : rules.FollowedBy rules' depth g h) :
    rules.FollowedBy rules' depth (.map f g) h := by
  intro c hc result reads
  obtain ⟨r, part, rfl⟩ := reads.parts
  obtain ⟨other, ends, same⟩ := followed c hc r part
  exact ⟨other, ends, same.map_left f⟩

theorem map_right (f : β → γ) (followed : rules.FollowedBy rules' depth g h) :
    rules.FollowedBy rules' depth g (.map f h) := by
  intro c hc result reads
  obtain ⟨other, ⟨n, ends⟩, same⟩ := followed c hc result reads
  exact ⟨_, ⟨n, .map f ends⟩, (same.symm.map_left f).symm⟩

theorem bind {k : α → Grammar Rule γ} {l : β → Grammar Rule' δ}
    (followed : rules.FollowedBy rules' depth g h)
    (later : ∀ a b, rules.FollowedBy rules' depth (k a) (l b)) :
    rules.FollowedBy rules' depth (.bind g k) (.bind h l) := by
  intro c hc result reads
  rcases reads.parts with ⟨first, rfl⟩ | ⟨a, d, first, next⟩
  · obtain ⟨other, ⟨n, ends⟩, same⟩ := followed c hc none first
    cases same
    exact ⟨none, ⟨n, .bindFail ends⟩, .none⟩
  · obtain ⟨other, ends, same⟩ := followed c hc _ first
    cases same with
    | some hd =>
      obtain ⟨other, ends', same⟩ := later _ _ d hd result next
      exact ⟨other, ends.bindNext ends', same⟩

theorem orElse {g' : Grammar Rule α} {h' : Grammar Rule' β}
    (followed : rules.FollowedBy rules' depth g h) (second : rules.FollowedBy rules' depth g' h') :
    rules.FollowedBy rules' depth (.orElse g g') (.orElse h h') := by
  intro c hc result reads
  rcases reads.parts with ⟨r, matched, rfl⟩ | ⟨failed, next⟩
  · obtain ⟨other, ⟨n, ends⟩, same⟩ := followed c hc _ matched
    cases same with
    | some hd => exact ⟨_, ⟨n, .orElseFirst ends⟩, .some hd⟩
  · obtain ⟨other, ends, same⟩ := followed c hc none failed
    cases same
    obtain ⟨other, ends', same⟩ := second c hc result next
    exact ⟨other, ends.orElseSecond ends', same⟩

theorem lookahead (followed : rules.FollowedBy rules' depth g h) :
    rules.FollowedBy rules' depth (.lookahead g) (.lookahead h) := by
  intro c hc result reads
  obtain ⟨r, part, rfl⟩ := reads.parts
  obtain ⟨other, ⟨n, ends⟩, same⟩ := followed c hc r part
  exact ⟨_, ⟨n, .lookahead ends⟩, same.lookahead hc⟩

theorem deferred {make : Unit → Grammar Rule α} {make' : Unit → Grammar Rule' β}
    (followed : rules.FollowedBy rules' depth (make ()) (make' ())) :
    rules.FollowedBy rules' depth (.deferred make) (.deferred make') := by
  intro c hc result reads
  obtain ⟨other, ⟨n, ends⟩, same⟩ := followed c hc result reads.parts
  exact ⟨other, ⟨n, .deferred ends⟩, same⟩

theorem rule {r : Rule α} {r' : Rule' β}
    (body : ∀ n < depth, rules.FollowedBy rules' n (rules.body r) (rules'.body r')) :
    rules.FollowedBy rules' depth (.rule r) (.rule r') := by
  intro c hc result reads
  obtain ⟨n, lt, part⟩ := reads.parts
  obtain ⟨other, ⟨m, ends⟩, same⟩ := body n lt c hc result part
  exact ⟨other, ⟨m + 1, .rule ends⟩, same⟩

end FollowedBy

theorem followedBy_of_alike
    (hrules : ∀ {α β : Type} {r : Rule α} {r' : Rule' β}, Paired r r' →
      Grammar.Alike Paired Known (rules.body r) (rules'.body r'))
    (known : ∀ {α β : Type} {g : Grammar Rule α} {h : Grammar Rule' β}, Known g h →
      ∀ depth, rules.FollowedBy rules' depth g h)
    {g : Grammar Rule α} {h : Grammar Rule' β} (alike : Grammar.Alike Paired Known g h)
    (depth : Nat) : rules.FollowedBy rules' depth g h := by
  -- on how deep calls nest, and for each depth on the shape: only a call goes to a lower one
  induction depth using Nat.strongRecOn generalizing α β g h with
  | ind depth ih =>
  induction alike with
  | scalar =>
    exact .of_matchesAs Parser.forward_scalar.matchesAs (fun reads => reads.parts) (.scalar rfl)
  | exactly text =>
    exact .of_matchesAs (Parser.forward_exactly text).matchesAs (fun reads => reads.parts)
      (.exactly rfl)
  | blanks =>
    exact .of_matchesAs Parser.forward_blanks.matchesAs (fun reads => reads.parts) (.blanks rfl)
  | number =>
    exact .of_matchesAs Parser.forward_number.matchesAs (fun reads => reads.parts) (.number rfl)
  | ofParser same => exact .of_matchesAs same (fun reads => reads.parts) (.ofParser rfl)
  | textUntil _ followed => exact followed.textUntil
  | mapLeft f _ followed => exact followed.map_left f
  | mapRight f _ followed => exact followed.map_right f
  | bind _ _ followed later => exact followed.bind later
  | orElse _ _ followed second => exact followed.orElse second
  | lookahead _ followed => exact followed.lookahead
  | deferred _ followed => exact followed.deferred
  | rule paired => exact .rule fun n lt => ih n lt (hrules paired)
  | known same => exact known same depth

/-- Grammars of one shape, whose rules have one shape too, are read alike: at every cursor neither
reading ends, or both fail, or both match and end at one cursor, and a text up to one of them is the
text up to the other. So they accept the same texts and leave the same text over, and one of them
may be the other with all its functions on values left out. -/
theorem values_decide_no_match
    (hrules : ∀ {α β : Type} {r : Rule α} {r' : Rule' β}, Paired r r' →
      Grammar.Alike Paired Known (rules.body r) (rules'.body r'))
    {g : Grammar Rule α} {h : Grammar Rule' β} (alike : Grammar.Alike Paired Known g h) :
    ((∀ {α β : Type} {g : Grammar Rule α} {h : Grammar Rule' β}, Known g h →
        rules.ReadsAs rules' g h) →
      rules.ReadsAs rules' g h ∧ ∀ c, c.Reachable → ∀ result,
        rules.Ends (.textUntil g) c result ↔ rules'.Ends (.textUntil h) c result) ∧
    ((∀ {α β : Type} {g : Grammar Rule α} {h : Grammar Rule' β}, Known g h → ∀ depth,
        (rules.parserWithin depth g).MatchesAs (rules'.parserWithin depth h)) →
      ∀ depth, let p := rules.parserWithin depth g; let q := rules'.parserWithin depth h
        p.MatchesAs q ∧
        (∀ c, c.Reachable → (Parser.textUntil p).parse c = (Parser.textUntil q).parse c) ∧
        ∀ text start, (p.run text).isSome = (q.run text).isSome ∧
          (p.runFrom text start).1.isSome = (q.runFrom text start).1.isSome ∧
          (p.runFrom text start).2 = (q.runFrom text start).2) := by
  constructor
  · intro known
    have followed : ∀ depth, rules.FollowedBy rules' depth g h :=
      followedBy_of_alike hrules (fun same depth => (known same depth).1) alike
    have followed' : ∀ depth, rules'.FollowedBy rules depth h g :=
      followedBy_of_alike (fun paired => (hrules paired).symm)
        (fun same depth => (known same depth).2) alike.symm
    refine ⟨fun depth => ⟨followed depth, followed' depth⟩, ?_⟩
    intro c hc result
    have hc := Cursor.reachable_iff_placed.1 hc
    constructor
    · rintro ⟨n, reads⟩
      exact (ends_textUntil (followed n) hc reads).1
    · rintro ⟨n, reads⟩
      exact (ends_textUntil (followed' n) hc reads).1
  · intro known depth p q
    have same : p.MatchesAs q :=
      alike.parser (Grammar.Alike.unroll hrules known depth) fun same => known same depth
    refine ⟨same, fun c hc => same.parse_textUntil_eq (Cursor.reachable_iff_placed.1 hc), ?_⟩
    intro text start
    exact ⟨same.isSome_run_eq text, same.runFrom text start⟩

inductive Unread : Type → Type where
  | sum : Unread Unit

def unreadRules : Rules Unread where
  body
    | .sum => .number >>= fun _ => (.blanks >>= fun _ => .exactly "+" >>= fun _ =>
        .blanks >>= fun _ => .rule .sum) <|> pure ()

theorem values_decide_no_match_sum :
    let p := Format.Sum.rules.parserWithin 9 (.rule .sum)
    let q := unreadRules.parserWithin 9 (.rule .sum)
    let c := Cursor.between [] "é1 + 2;".toList
    (∀ {α β : Type} {r : Format.Sum.Rule α} {r' : Unread β}, True →
      Grammar.Alike (fun _ _ => True) (fun _ _ => False) (Format.Sum.rules.body r)
        (unreadRules.body r')) ∧
      c.Reachable ∧ p.runFrom "1 + 2;" 0 = (some 3, ";") ∧ (q.runFrom "1 + 2;" 0).2 = ";" ∧
      (q.run "1 + 2").isSome ∧ (Parser.textUntil p).parse c = (Parser.textUntil q).parse c ∧
      Format.Sum.rules.ReadsAs unreadRules (.rule .sum) (.rule .sum) := by
  intro p q c
  have hrules : ∀ {α β : Type} {r : Format.Sum.Rule α} {r' : Unread β}, True →
      Grammar.Alike (fun _ _ => True) (fun _ _ => False) (Format.Sum.rules.body r)
        (unreadRules.body r') := by
    rintro α β ⟨⟩ ⟨⟩ -
    refine .bind .number fun _ _ => .orElse ?_ (.ofParser (Parser.matchesAs_pure _ _))
    exact .bind .blanks fun _ _ => .bind (.exactly "+") fun _ _ => .bind .blanks fun _ _ =>
      .mapLeft _ (.rule trivial)
  have hc : c.Reachable := Cursor.reachable_between _ _
  have alike : Grammar.Alike (fun _ _ => True) (fun _ _ => False)
      (.rule Format.Sum.Rule.sum) (.rule Unread.sum) := .rule trivial
  obtain ⟨ends, within⟩ := values_decide_no_match hrules alike
  obtain ⟨-, texts, runs⟩ := within (fun same => same.elim) 9
  have found : p.runFrom "1 + 2;" 0 = (some 3, ";") := by decide +kernel
  have whole : (p.run "1 + 2").isSome := by decide +kernel
  refine ⟨hrules, hc, found, ?_, ?_, texts c hc, (ends fun same => same.elim).1⟩
  · rw [← (runs "1 + 2;" 0).2.2, found]
  · rw [← (runs "1 + 2" 0).1]
    exact whole

end Rules
end
end TextGrammar

import TextGrammar.Format.Record
import TextGrammar.Proofs.Bracketings
import TextGrammar.Proofs.Choices

/-! Choices and sequences, grouped in other ways. Alternatives in brackets are tried from the left, all
of them at one cursor, so that the brackets do not show, and neither do alternatives that match nowhere.
Stages that follow one another can be put together from the front or from the back; where one of them
fails, the whole fails, and nothing of what was read before it is taken. -/
namespace TextGrammar

/-- Stages one behind the other, each for what the one before it gives. -/
inductive Stages (Stage : Type → Type → Type) : Type → Type → Type 1 where
  | last (f : Stage α β) : Stages Stage α β
  | step (f : Stage α β) (more : Stages Stage β γ) : Stages Stage α γ

namespace Stages
variable {Stage : Type → Type → Type} {F : Type → Type}

def foldl (stages : Stages Stage α β) (act : ∀ {α β : Type}, F α → Stage α β → F β) (x : F α) : F β :=
  match stages with
  | last f => act x f
  | step f more => more.foldl act (act x f)

def compose (stages : Stages Stage α β)
    (comp : ∀ {α β γ : Type}, Stage α β → Stage β γ → Stage α γ) : Stage α β :=
  match stages with
  | last f => f
  | step f more => comp f (more.compose comp)

theorem foldl_eq_compose (stages : Stages Stage α β) (x : F α)
    {act : ∀ {α β : Type}, F α → Stage α β → F β}
    {comp : ∀ {α β γ : Type}, Stage α β → Stage β γ → Stage α γ}
    (assoc : ∀ {α β γ : Type} (x : F α) (f : Stage α β) (g : Stage β γ),
      act (act x f) g = act x (comp f g)) :
    stages.foldl act x = act x (stages.compose comp) := by
  induction stages with
  | last f => rfl
  | step f more ih =>
    -- the hypothesis is about every `x` of the next type, so also about `act x f`
    rw [foldl, ih, assoc]
    rfl

end Stages

namespace Parser
open Cursor (between atPosition?)

def alternatives (tree : Bracketing (Parser α)) : Parser α :=
  tree.combine Parser.orElse id

theorem alternatives_eq_choice (tree : Bracketing (Parser α)) :
    alternatives tree = choice tree.members := by
  ext1 c
  rw [parse_choice]
  induction tree with
  | single p => simp [alternatives, Bracketing.combine, Bracketing.members]
  | pair front back ihfront ihback =>
    rw [Bracketing.members, List.findSome?_append, ← ihfront, ← ihback]
    exact parse_orElse _ _ c

/-- Two lists that are alike but for parsers that match nowhere. -/
inductive UpToFailing {α : Type} : List (Parser α) → List (Parser α) → Prop where
  | nil : UpToFailing [] []
  | keep (p : Parser α) : UpToFailing ps qs → UpToFailing (p :: ps) (p :: qs)
  | drop : (∀ c, c.Reachable → p.parse c = none) → UpToFailing ps qs → UpToFailing (p :: ps) qs
  | add : (∀ c, c.Reachable → q.parse c = none) → UpToFailing ps qs → UpToFailing ps (q :: qs)

theorem UpToFailing.parse_choice_eq {ps qs : List (Parser α)} (h : UpToFailing ps qs) {c : Cursor}
    (hc : c.Reachable) : (choice ps).parse c = (choice qs).parse c := by
  rw [parse_choice, parse_choice]
  induction h with
  | nil => rfl
  | keep p _ ih => rw [List.findSome?_cons, List.findSome?_cons, ih]
  | drop fails _ ih => rw [List.findSome?_cons, fails c hc, ih]
  | add fails _ ih => rw [List.findSome?_cons, fails c hc, ih]

abbrev Binder (α β : Type) : Type := α → Parser β

abbrev Conversion (α β : Type) : Type := α → β

def bindAll (p : Parser α) (binders : Stages Binder α β) : Parser β :=
  binders.foldl (fun p f => p >>= f) p

def nested (binders : Stages Binder α β) : Binder α β :=
  binders.compose fun f g a => f a >>= g

def mapAll (p : Parser α) (conversions : Stages Conversion α β) : Parser β :=
  conversions.foldl (fun p f => f <$> p) p

def composite (conversions : Stages Conversion α β) : Conversion α β :=
  conversions.compose fun f g => g ∘ f

theorem bindAll_eq (p : Parser α) (binders : Stages Binder α β) :
    p.bindAll binders = p >>= nested binders :=
  binders.foldl_eq_compose p bind_assoc

theorem mapAll_eq (p : Parser α) (conversions : Stages Conversion α β) :
    p.mapAll conversions = composite conversions <$> p :=
  conversions.foldl_eq_compose p fun q f g => (comp_map f g q).symm

theorem nested_step (f : Binder α β) (more : Stages Binder β γ) (a : α) :
    nested (.step f more) a = f a >>= nested more := rfl

def FailsAt (binders : Stages Binder α β) (p : Parser α) (c : Cursor) : Prop :=
  match binders with
  | .last f => p.parse c = none ∨ ∃ a d, p.parse c = some (a, d) ∧ (f a).parse d = none
  | .step f more => p.parse c = none ∨ ∃ a d, p.parse c = some (a, d) ∧ FailsAt more (f a) d

theorem parse_bind_eq_none_iff {p : Parser α} {f : α → Parser β} {c : Cursor} :
    (p >>= f).parse c = none ↔
      p.parse c = none ∨ ∃ a d, p.parse c = some (a, d) ∧ (f a).parse d = none := by
  cases first : p.parse c with
  | none => exact iff_of_true (parse_bind_of_no_match first f) (.inl rfl)
  | some r =>
    rw [parse_bind_of_match first]
    constructor
    · intro second
      exact .inr ⟨r.1, r.2, rfl, second⟩
    · rintro (missing | ⟨a, d, same, second⟩)
      · contradiction
      · cases same
        exact second

theorem parse_bindAll_eq_none_iff {binders : Stages Binder α β} {p : Parser α} {c : Cursor} :
    (p.bindAll binders).parse c = none ↔ FailsAt binders p c := by
  rw [bindAll_eq]
  -- on the stages: each later one starts with the parser that the value before it gives
  induction binders generalizing c with
  | last f => exact parse_bind_eq_none_iff
  | step f more ih =>
    rw [parse_bind_eq_none_iff]
    simp only [nested_step, ih, FailsAt]

/-- `p` fails where `fails` holds and nowhere else, and nothing is taken there: another parser starts
from the same cursor, and a text is left as it was from there on. -/
structure FailsWhere (p : Parser α) (fails : Cursor → Prop) : Prop where
  no_match : ∀ c, p.parse c = none ↔ fails c
  retried : ∀ c, fails c → ∀ q : Parser α, (p <|> q).parse c = q.parse c
  given_back : ∀ text start c, atPosition? text start = some c → fails c →
    p.runFrom text start = (none, String.ofList (text.toList.drop start))

theorem failsWhere {p : Parser α} {fails : Cursor → Prop}
    (h : ∀ c, p.parse c = none ↔ fails c) : p.FailsWhere fails where
  no_match := h
  retried c failed q := by
    rw [parse_orElse, (h c).2 failed, Option.none_or]
  given_back text start c here failed := by
    exact runFrom_of_no_match here ((h c).2 failed)

/-- Alternatives in brackets are the first of them that matches, all tried at one cursor; so other
brackets make no difference, and alternatives that match nowhere make none. Binders in a row are one
binder, whichever end they are put together from, and conversions in a row are one binder that reads
nothing. Where a stage fails, the whole does, and takes nothing. -/
theorem grouping_is_immaterial (tree : Bracketing (Parser γ)) (p : Parser α)
    (binders : Stages Binder α β) (conversions : Stages Conversion α β) :
    ((∀ c a e, (alternatives tree).parse c = some (a, e) ↔ ∃ (i : Nat) (q : Parser γ),
        tree.members[i]? = some q ∧ q.parse c = some (a, e) ∧
        ∀ j < i, ∀ r, tree.members[j]? = some r → r.parse c = none) ∧
      (alternatives tree).FailsWhere fun c => ∀ q ∈ tree.members, q.parse c = none) ∧
    (∀ other : Bracketing (Parser γ),
      (other.members = tree.members → alternatives other = alternatives tree) ∧
      (UpToFailing other.members tree.members → ∀ c, c.Reachable →
        (alternatives other).parse c = (alternatives tree).parse c)) ∧
    (p.bindAll binders = p >>= nested binders ∧
      (p.bindAll binders).FailsWhere (FailsAt binders p)) ∧
    p.mapAll conversions = (p >>= fun a => pure (composite conversions a)) ∧
      (p.mapAll conversions).FailsWhere fun c => p.parse c = none := by
  refine ⟨⟨?_, ?_⟩, ?_, ⟨bindAll_eq p binders, ?_⟩, ?_, ?_⟩
  · intro c a e
    rw [alternatives_eq_choice]
    exact parse_choice_eq_some_iff
  · apply failsWhere
    intro c
    rw [alternatives_eq_choice, parse_choice, List.findSome?_eq_none_iff]
  · intro other
    rw [alternatives_eq_choice, alternatives_eq_choice]
    constructor
    · intro same
      rw [same]
    · intro alike c hc
      exact alike.parse_choice_eq hc
  · exact failsWhere fun c => parse_bindAll_eq_none_iff
  · rw [mapAll_eq]
    exact map_eq_pure_bind _ p
  · apply failsWhere
    intro c
    rw [mapAll_eq, parse_map, Option.map_eq_none_iff]

theorem grouping_is_immaterial_words :
    let never : Parser Nat := number >>= fun _ => fail
    let short : Parser Nat := (fun _ => 1) <$> exactly "for"
    let long : Parser Nat := (fun _ => 2) <$> exactly "format"
    let tree : Bracketing (Parser Nat) := .pair (.single long) (.single short)
    let other : Bracketing (Parser Nat) :=
      .pair (.pair (.single never) (.single long)) (.pair (.single never) (.single short))
    let binders : Stages Binder UInt64 UInt64 := .step (fun count => (fun _ => count) <$> exactly ":")
      (.last fun count => (fun _ => count) <$> exactly (Format.Counted.run count))
    let conversions : Stages Conversion UInt64 UInt64 := .step (fun n => n + 1) (.last fun n => n * 10)
    let c := between ['é'] "format".toList
    let d := between ['é'] "2:x".toList
    UpToFailing other.members tree.members ∧ c.Reachable ∧
      (alternatives other).parse c = some (2, between "éformat".toList []) ∧
      atPosition? "é2:x" 1 = some d ∧ FailsAt binders number d ∧
      (number.bindAll binders).runFrom "é2:x" 1 = (none, "2:x") ∧
      (number.bindAll binders).parse (between [] "2:xx;".toList) =
        some (2, between "2:xx".toList [';']) ∧
      (number.mapAll conversions).parse d = some (30, between ['é', '2'] ":x".toList) := by
  intro never short long tree other binders conversions c d
  -- a number is read before `never` fails
  have fails : ∀ c, c.Reachable → never.parse c = none := by
    intro c _
    rw [parse_bind]
    cases number.parse c <;> rfl
  have alike : UpToFailing other.members tree.members :=
    .drop fails (.keep long (.drop fails (.keep short .nil)))
  have hc : c.Reachable := Cursor.reachable_between _ _
  have here : atPosition? "é2:x" 1 = some d := by decide +kernel
  obtain ⟨-, brackets, ⟨nests, failure⟩, maps, -⟩ :=
    grouping_is_immaterial tree number binders conversions
  have failed : FailsAt binders number d := (failure.no_match d).1 (by decide +kernel)
  refine ⟨alike, hc, ?_, here, failed, failure.given_back _ _ _ here failed, ?_, ?_⟩
  · rw [(brackets other).2 alike c hc]
    decide +kernel
  · rw [nests]
    decide +kernel
  · rw [maps]
    decide +kernel

end Parser
end TextGrammar

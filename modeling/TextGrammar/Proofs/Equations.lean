import TextGrammar.Proofs.Recursion

/-! Rules as equations. The parser of a grammar counts how deep the calls in it nest; where reading
ends the count has no part in the result, and a rule is read as its body is, with the parsers of
the rules that stand in it. What is proved about such rules needs no depths and no derivations. -/
namespace TextGrammar.Rules
open TextGrammar.Parser (Forward Stays)
variable {Rule : Type → Type} {α : Type}

/-- Nothing in the rules goes back, and they are called only behind something that was read. -/
structure Terminating (rules : Rules Rule) : Prop where
  forward : rules.Each Forward
  guarded : ∀ {α : Type} (r : Rule α), rules.Guarded (rules.body r)

namespace Terminating
variable {rules : Rules Rule} {g : Grammar Rule α} {c : Cursor}

theorem stays (h : rules.Terminating) : rules.Each Stays :=
  Each.mono Forward.stays h.forward

theorem reads_parse (h : rules.Terminating) (hg : g.Each Forward) (hc : c.Placed) :
    rules.Reads (c.rest.length + 1) g c ((rules.parser g).parse c) := by
  have here : rules.CallsEnd (c.rest.length + 1) c :=
    callsEnd h.forward h.guarded hc (Nat.lt_succ_self _)
  have later : rules.CallsEndLater (c.rest.length + 1) c := by
    intro d hcd lt
    apply callsEnd h.forward h.guarded hcd.1
    omega
  obtain ⟨result, reads⟩ := exists_reads h.forward hg hc (.inr here) later
  have found : (rules.parser g).parse c = result :=
    reads.parserWithin_eq h.stays (hg.mono Forward.stays) hc
  rw [found]
  exact reads

theorem parse_eq_of_reads (h : rules.Terminating) (hg : g.Each Forward) (hc : c.Placed)
    {depth : Nat} {result : Option (α × Cursor)} (reads : rules.Reads depth g c result) :
    (rules.parser g).parse c = result :=
  (h.reads_parse hg hc).unique h.stays (hg.mono Forward.stays) hc reads

theorem parse_calls (h : rules.Terminating) (hg : g.Each Forward) (hc : c.Placed) :
    (rules.parser g).parse c = (g.parser fun r => rules.parser (.rule r)).parse c := by
  symm
  -- the reading is repeated with parsers that answer its calls as it does
  apply (h.reads_parse hg hc).parse_eq _ _ (hg.mono Forward.stays) hc
  · intro β r d hd b e matched
    have reads := h.reads_parse (g := .rule r) trivial hd
    rw [matched] at reads
    have ahead := reads.precedes h.forward (g := .rule r) trivial hd
    exact ⟨ahead.1, ahead.2.1⟩
  · intro β r d result hd reads
    exact h.parse_eq_of_reads (g := .rule r) trivial hd reads

theorem parse_rule (h : rules.Terminating) (r : Rule α) (hc : c.Placed) :
    (rules.parser (.rule r)).parse c =
      ((rules.body r).parser fun s => rules.parser (.rule s)).parse c := by
  rw [← h.parse_calls (h.forward r) hc]
  have reads := h.reads_parse (g := .rule r) trivial hc
  generalize (rules.parser (.rule r)).parse c = result at reads
  cases reads with
  | rule body => exact (h.parse_eq_of_reads (h.forward r) hc body).symm

end Terminating
end TextGrammar.Rules

import RuleLang.Proofs.Calls
import RuleLang.Proofs.Congruence

/-!
Evaluations under different ceilings. A loop looks at its ceiling only to stall. So a run under a
higher ceiling goes the same way as under a lower one up to the point where a loop stalls under the
lower, in whatever loops, branches and operands this is; and if none does, the two runs are the
same to their end, be it a value or another fault.
-/
namespace RuleLang

namespace Run

/-- From every state the first run stalls, or the second does just what the first does. -/
def StallsOrSame (α : Type) (low high : Run α) : Prop :=
  ∀ state,
    (∃ ceiling later, low state = .error (.runaway ⟨.stalled, [.ofNat ceiling]⟩) later) ∨
      high state = low state

theorem stallsOrSame_refl {α : Type} (act : Run α) : StallsOrSame α act act := fun _ => .inr rfl

theorem stallsOrSame_stalled (ceiling : Nat) (later : Run Yield) :
    StallsOrSame Yield (throw (.runaway ⟨.stalled, [.ofNat ceiling]⟩)) later :=
  fun state => .inl ⟨ceiling, state, rfl⟩

theorem StallsOrSame.bind {α β : Type} {low high : Run α} {next next' : α → Run β}
    (h : StallsOrSame α low high) (hnext : ∀ a, StallsOrSame β (next a) (next' a)) :
    StallsOrSame β (low >>= next) (high >>= next') := by
  intro state
  rcases h state with ⟨ceiling, later, hstalled⟩ | hsame
  · exact .inl ⟨ceiling, later, bind_error hstalled⟩
  · cases hlow : low state with
    | ok a later =>
      rw [bind_ok hlow, bind_ok (hsame.trans hlow)]
      exact hnext a later
    | error fault later =>
      rw [bind_error hlow, bind_error (hsame.trans hlow)]
      exact .inr rfl

theorem congruence_stallsOrSame : Congruence StallsOrSame where
  pure a := stallsOrSame_refl (pure a)
  bind := StallsOrSame.bind
  step _ := stallsOrSame_refl _

end Run

/-- Under a higher ceiling the run of a rule is the same, unless a loop stalls under the lower. -/
theorem Tree.stallsOrSame_result {ceiling ceiling' : Nat} (hle : ceiling ≤ ceiling') (rule : Tree) :
    Run.StallsOrSame Int32 (rule.result ceiling) (rule.result ceiling') := by
  have hstalls : Run.Stalls Run.StallsOrSame ceiling ceiling' ceiling ceiling' :=
    fun later _ => Run.stallsOrSame_stalled ceiling later
  exact congr_result Run.congruence_stallsOrSame hle hstalls rule

namespace RuleSet

/-- A higher ceiling only takes away faults of loops that do not end: an evaluation that gives an
integer or any other fault gives the same under a higher ceiling, and leaves the same variables. -/
theorem evaluate_of_le_ceiling (program : Program) {set set' : RuleSet}
    (hsymbols : set.store.symbols = set'.store.symbols)
    (hceiling : set.limits.loopCeiling ≤ set'.limits.loopCeiling)
    (hnot : ∀ fault, (evaluate program).outcome set = .error fault →
      fault.report.category ≠ .runaway) :
    (evaluate program).outcome set' = (evaluate program).outcome set ∧
      ((evaluate program).after set').store = ((evaluate program).after set).store := by
  obtain ⟨limits, symbols, scratch⟩ := set
  obtain ⟨limits', symbols', scratch'⟩ := set'
  obtain rfl : symbols = symbols' := hsymbols
  simp only [Host.outcome, Host.after, evaluate_eq] at hnot ⊢
  rcases program.tree.stallsOrSame_result hceiling ⟨⟨symbols, []⟩, .none⟩ with
    ⟨ceiling, later, hstalled⟩ | hsame
  · rw [hstalled] at hnot
    exact absurd rfl (hnot _ rfl)
  · rw [hsame]
    cases program.tree.result limits.loopCeiling ⟨⟨symbols, []⟩, .none⟩ with
    | ok value later => exact ⟨rfl, rfl⟩
    | error fault later => exact ⟨rfl, rfl⟩

/-- The inner loop ends itself in its fourth run, and the outer one then ends too. A ceiling of
three is too low. From four on the rule fails at the unknown name, and leaves the same variable. -/
theorem evaluate_nested_loops :
    let rule : Tree := .block
      [.binary .assign (.name "i") (.number 0),
        .whileLoop (.binary .less (.name "i") (.number 2))
          (.whileLoop (.number 1)
            (.ifThen (.binary .equal (.unary .preIncrement (.name "i")) (.number 4)) .breakLoop)),
        .name "t"]
    (evaluate (.ofTree rule)).outcome (.ofLimits ⟨3, 256⟩) =
        .error (.runaway ⟨.stalled, [.ofNat 3]⟩) ∧
      (evaluate (.ofTree rule)).outcome (.ofLimits .default) =
        .error (.name ⟨.unknownName, ["t".toList]⟩) ∧
      ((evaluate (.ofTree rule)).after (.ofLimits .default)).store = ⟨.empty, [("i", #[4])]⟩ := by
  intro rule
  have hlow : evaluate (.ofTree rule) (.ofLimits ⟨3, 256⟩) =
      .error (.runaway ⟨.stalled, [.ofNat 3]⟩) ⟨⟨3, 256⟩, .empty, [("i", #[3])]⟩ := by
    unfold rule
    cbv
  have hhigh : evaluate (.ofTree rule) (.ofLimits ⟨4, 256⟩) =
      .error (.name ⟨.unknownName, ["t".toList]⟩) ⟨⟨4, 256⟩, .empty, [("i", #[4])]⟩ := by
    unfold rule
    cbv
  have hnot (fault : Fault)
      (h : (evaluate (.ofTree rule)).outcome (.ofLimits ⟨4, 256⟩) = .error fault) :
      fault.report.category ≠ .runaway := by
    rw [Host.outcome, hhigh] at h
    cases h
    decide
  have hsymbols : (ofLimits ⟨4, 256⟩).store.symbols = (ofLimits .default).store.symbols := rfl
  have hceiling : (ofLimits ⟨4, 256⟩).limits.loopCeiling ≤
      (ofLimits .default).limits.loopCeiling := by decide
  obtain ⟨houtcome, hstore⟩ := evaluate_of_le_ceiling (.ofTree rule) hsymbols hceiling hnot
  refine ⟨by rw [Host.outcome, hlow], houtcome.trans ?_, hstore.trans ?_⟩
  · rw [Host.outcome, hhigh]
  · rw [Host.after, hhigh]

end RuleSet
end RuleLang

import RuleLang.Proofs.Calls
import RuleLang.Proofs.Congruence
import RuleLang.Proofs.StoreFaults

/-!
What a host is told when something fails. Each operation can report few templates only, which are
listed here, and every fault that it raises fills its template. For reading this is known from the
walk through the grammar, for a call on the symbols and for the check from the places where they
fail, and for a run from a walk through all that a tree can be.
-/
namespace RuleLang

/-- The templates of the faults of a run: those of the store, and four that are about the tree. -/
def Tree.templates : List Template :=
  Store.templates ++ [.notAssignable, .methodTarget, .divisionByZero, .stalled]

namespace Run

variable {α : Type}

theorem reports_read {get : Store → Except Fault α}
    (h : ∀ store, FailsWith Store.templates (get store)) : Reports Tree.templates (read get) := by
  intro state fault state' herror
  unfold read at herror
  cases hget : get state.store with
  | ok a =>
    rw [hget] at herror
    cases herror
  | error fault' =>
    rw [hget] at herror
    cases herror
    exact (h state.store _ hget).imp_left (List.mem_append_left _)

theorem reports_write {act : Write α} (h : Reports Store.templates act) :
    Reports Tree.templates (write act) := by
  rintro ⟨store, signals⟩ fault state' herror
  cases hact : act store with
  | ok a later =>
    rw [write_ok signals hact] at herror
    cases herror
  | error fault' later =>
    rw [write_error signals hact] at herror
    cases herror
    exact (h store _ _ hact).imp_left (List.mem_append_left _)

theorem congruence_reports : Congruence fun _ act _ => Reports Tree.templates act where
  pure := reports_return
  bind := Reports.bind
  step h := by
    cases h with
    | read => exact reports_read fun _ => Store.failsWith_read _ _
    | readElement => exact reports_read fun _ => Store.failsWith_readElement _ _ _
    | readCell => exact reports_read fun _ => Store.failsWith_readCell _ _ _ _
    | size => exact reports_read fun _ => Store.failsWith_size _ _
    | rowSize => exact reports_read fun _ => Store.failsWith_rowSize _ _ _
    | sort => exact reports_write (Store.reports_sort _)
    | copy => exact reports_write (Store.reports_copy _ _)
    | assign => exact reports_write (Store.reports_assign _ _)
    | assignElement => exact reports_write (Store.reports_assignElement _ _ _)
    | increment => exact reports_write (Store.reports_increment _ _)
    | incrementElement => exact reports_write (Store.reports_incrementElement _ _ _)
    | signals | signal | takeBreak => exact fun _ _ _ => nofun
    | methodTarget | notAssignable | divisionByZero => exact reports_throw rfl ⟨rfl, rfl⟩

end Run

theorem Tree.reports_result (ceiling : Nat) (rule : Tree) :
    Reports templates (rule.result ceiling) :=
  congr_result_self Run.congruence_reports (reports_throw rfl ⟨rfl, rfl⟩) rule

/-- The templates of the faults that a source is to blame for. -/
def syntaxTemplates : List Template :=
  [.unbalanced, .badNumber, .keywordInExpression, .parenExpected, .strayElse, .notAssignable,
    .argumentCount, .clauseCount, .strayBreak, .unexpected, .missingExpression, .blockAsValue,
    .unknownMethod, .methodTakesNothing, .methodTarget, .tooDeep, .notATree]

theorem mem_syntaxTemplates {template : Template} (h : template.category = .syntactic) :
    template ∈ syntaxTemplates := by
  revert h
  cases template <;> decide

theorem reports_parse {limit : Nat} {source : String} {fault : Fault}
    (h : Program.parse limit source = .error fault) :
    fault.template ∈ syntaxTemplates ∧ fault.Fills := by
  obtain ⟨hsyntactic, hfills⟩ := Program.parse_eq_error h
  exact ⟨mem_syntaxTemplates (hfills.category_eq.symm.trans hsyntactic), hfills⟩

theorem reports_check {program : Program} {fault : Fault} (h : program.check = .error fault) :
    fault.template = .notATree ∧ fault.Fills := by
  unfold Program.check at h
  split at h
  · cases h
  · cases h
    exact ⟨rfl, rfl, rfl⟩

/-- What a call can report. -/
def Call.templates : Call → List Template
  | declareSymbols _ | declareSymbol _ => [.badName]
  | clearSymbols | clearSymbolValues => []
  | setSymbol _ _ => [.undeclared, .wrongShape]
  | unsetSymbol _ => [.undeclared]
  | evaluate (.program _) => Tree.templates
  | evaluate (.source _) => syntaxTemplates ++ Tree.templates

namespace RuleSet

theorem reports_changeSymbols {templates : List Template} {change : Symbols → Except Fault Symbols}
    (h : ∀ symbols, FailsWith templates (change symbols)) :
    Reports templates (changeSymbols change) := by
  intro set fault set' herror
  unfold changeSymbols at herror
  cases hchange : change set.store.symbols with
  | ok symbols =>
    rw [hchange] at herror
    cases herror
  | error fault' =>
    rw [hchange] at herror
    cases herror
    exact h _ _ hchange

theorem reports_declareSymbol (declaration : Declaration) :
    Reports [.badName] (declareSymbol declaration) := by
  refine reports_changeSymbols fun symbols => ?_
  unfold Symbols.declare
  split
  · exact failsWith_return _
  · exact failsWith_throw rfl ⟨rfl, rfl⟩

theorem reports_declareSymbols (declarations : List Declaration) :
    Reports [.badName] (declareSymbols declarations) := by
  have hall : Reports [.badName] (declarations.forM declareSymbol) := by
    induction declarations with
    | nil => exact reports_return ()
    | cons declaration declarations ih => exact (reports_declareSymbol declaration).bind fun _ => ih
  have hclear : Reports [.badName] clearSymbols := fun _ _ _ => nofun
  exact hclear.bind fun _ => hall

theorem reports_setSymbol (name : String) (value : Value) :
    Reports [.undeclared, .wrongShape] (setSymbol name value) := by
  refine reports_changeSymbols fun symbols => ?_
  unfold Symbols.set
  split
  · exact failsWith_throw rfl ⟨rfl, rfl⟩
  · split
    · exact failsWith_return _
    · exact failsWith_throw rfl ⟨rfl, rfl⟩

theorem reports_unsetSymbol (name : String) : Reports [.undeclared] (unsetSymbol name) := by
  refine reports_changeSymbols fun symbols => ?_
  unfold Symbols.unset
  split
  · exact failsWith_return _
  · exact failsWith_throw rfl ⟨rfl, rfl⟩

theorem reports_evaluate (program : Program) : Reports Tree.templates (evaluate program) := by
  rintro ⟨limits, store⟩ fault set' herror
  simp only [evaluate_eq] at herror
  split at herror
  · cases herror
  · next hresult =>
    cases herror
    exact Tree.reports_result _ _ _ _ _ hresult

theorem reports_evaluateSource (source : String) :
    Reports (syntaxTemplates ++ Tree.templates) (evaluateSource source) := by
  intro set fault set' herror
  unfold evaluateSource at herror
  cases hparse : set.parse source with
  | ok program =>
    rw [hparse] at herror
    exact (reports_evaluate program set fault set' herror).imp_left (List.mem_append_right _)
  | error fault' =>
    rw [hparse] at herror
    cases herror
    exact (reports_parse hparse).imp_left (List.mem_append_left _)

end RuleSet

theorem Call.reports_run (call : Call) : Reports call.templates call.run := by
  cases call with
  | declareSymbols declarations => exact RuleSet.reports_declareSymbols declarations
  | declareSymbol declaration => exact RuleSet.reports_declareSymbol declaration
  | clearSymbols => exact fun _ _ _ => nofun
  | setSymbol name value => exact RuleSet.reports_setSymbol name value
  | unsetSymbol name => exact RuleSet.reports_unsetSymbol name
  | clearSymbolValues => exact RuleSet.reports_changeSymbols fun _ => failsWith_return _
  | evaluate evaluation =>
    cases evaluation with
    | program program => exact (RuleSet.reports_evaluate program).bind fun _ => reports_return ()
    | source source => exact (RuleSet.reports_evaluateSource source).bind fun _ => reports_return ()

/-- Whatever fails, reading, the check of a program or a call, it is with one of the templates that
are listed for it, and what is reported fits that template. -/
theorem reports_fit :
    (∀ (limit : Nat) (source : String) (fault : Fault),
      Program.parse limit source = .error fault →
        fault.report.message.template ∈ syntaxTemplates ∧ fault.report.Fits) ∧
    (∀ (program : Program) (fault : Fault), program.check = .error fault →
      fault.report.message.template = .notATree ∧ fault.report.Fits) ∧
    ∀ (call : Call) (set : RuleSet) (fault : Fault) (set' : RuleSet),
      call.run set = .error fault set' →
        fault.report.message.template ∈ call.templates ∧ fault.report.Fits := by
  refine ⟨fun limit source fault h => ?_, fun program fault h => ?_, ?_⟩
  · exact (reports_parse h).imp_right Fault.Fills.fits
  · exact (reports_check h).imp_right Fault.Fills.fits
  · intro call set fault set' h
    exact (call.reports_run set fault set' h).imp_right Fault.Fills.fits

/-- Neither the placeholder in a source text nor that in a name is filled in. -/
theorem reports_fit_hash :
    (∃ fault, Program.parse 4 "a # b" = .error fault ∧
      fault.report.text = "syntax error: unexpected '# b'".toList) ∧
    (∃ fault, (Program.mk #[.unary .not 7] 0).check = .error fault ∧
      fault.report.text = "syntax error: node 7 is missing or referenced twice".toList) ∧
    ∃ fault set, (Call.declareSymbol ⟨"#", "", .scalar⟩).run (.ofLimits .default) =
        .error fault set ∧
      fault.report.text = "name error: '#' is not a valid symbol name".toList := by
  have hparse : Program.parse 4 "a # b" =
      .error (.syntactic ⟨.unexpected, ["# b".toList]⟩) := by cbv
  have hcheck : (Program.mk #[.unary .not 7] 0).check =
      .error (.syntactic ⟨.notATree, [.ofNat 7]⟩) := by cbv
  have hcall : (Call.declareSymbol ⟨"#", "", .scalar⟩).run (.ofLimits .default) =
      .error (.name ⟨.badName, ["#".toList]⟩) (.ofLimits .default) := by rfl
  have hread := (reports_fit.1 4 "a # b" _ hparse).2.text_eq
  have hloaded := (reports_fit.2.1 _ _ hcheck).2.text_eq
  have hcalled := (reports_fit.2.2 _ _ _ _ hcall).2.text_eq
  exact ⟨⟨_, hparse, hread.trans (by decide +kernel)⟩,
    ⟨_, hcheck, hloaded.trans (by decide +kernel)⟩,
    ⟨_, _, hcall, hcalled.trans (by decide +kernel)⟩⟩

end RuleLang

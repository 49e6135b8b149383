import RuleLang.Proofs.Lockstep

/-!
What a host does with a rule set: one call after another, each on the rule set that the earlier
calls left, whether they failed or not. An evaluation is a call too. It sees the symbols and
begins without variables, so it depends on nothing else that the rule set holds, and changes
nothing but the variables.
-/
namespace RuleLang

namespace Host

variable {α : Type}

def outcome (act : Host α) (set : RuleSet) : Except Fault α :=
  match act set with
  | .ok a _ => .ok a
  | .error fault _ => .error fault

/-- The rule set that the call leaves, even if it fails. -/
def after (act : Host α) (set : RuleSet) : RuleSet :=
  match act set with
  | .ok _ later => later
  | .error _ later => later

/-- The end of an action that gives no result: its fault, if any, and the rule set it leaves. -/
def ended (fault? : Option Fault) (set : RuleSet) : EStateM.Result Fault RuleSet Unit :=
  match fault? with
  | none => .ok () set
  | some fault => .error fault set

end Host

/-- An evaluation of a program, or of a source text that has to be read first. -/
inductive Evaluation
  | program (program : Program)
  | source (text : String)

namespace Evaluation

def run : Evaluation → Host Int32
  | program given => RuleSet.evaluate given
  | source text => RuleSet.evaluateSource text

/-- The program to be run. -/
def read (limits : Limits) : Evaluation → Except Fault Program
  | program given => .ok given
  | source text => Program.parse limits.nestingDepth text

end Evaluation

inductive Call
  | declareSymbols (declarations : List Declaration)
  | declareSymbol (declaration : Declaration)
  | clearSymbols
  | setSymbol (name : String) (value : Value)
  | unsetSymbol (name : String)
  | clearSymbolValues
  | evaluate (evaluation : Evaluation)

def Call.run : Call → Host Unit
  | declareSymbols declarations => RuleSet.declareSymbols declarations
  | declareSymbol declaration => RuleSet.declareSymbol declaration
  | clearSymbols => RuleSet.clearSymbols
  | setSymbol name value => RuleSet.setSymbol name value
  | unsetSymbol name => RuleSet.unsetSymbol name
  | clearSymbolValues => RuleSet.clearSymbolValues
  | evaluate evaluation => do let _ ← evaluation.run

def Call.isEvaluation : Call → Bool
  | evaluate _ => true
  | _ => false

theorem Call.eq_evaluate {call : Call} (h : call.isEvaluation) :
    ∃ evaluation, call = evaluate evaluation := by
  cases call with
  | evaluate evaluation => exact ⟨evaluation, rfl⟩
  | _ => cases h

/-- Whether a call on the symbols drops the variables. -/
def Call.clearsVariables : Call → Bool
  | declareSymbols _ | clearSymbols => true
  | _ => false

/-- The rule set after the calls. -/
def RuleSet.afterAll (set : RuleSet) (calls : List Call) : RuleSet :=
  calls.foldl (fun set call => call.run.after set) set

namespace Host

variable {α : Type}

theorem after_eq {act : Host Unit} {set later : RuleSet} (fault? : Option Fault)
    (h : act set = ended fault? later) : act.after set = later := by
  rw [after, h]
  cases fault? <;> rfl

theorem after_ignore (act : Host α) (set : RuleSet) :
    Host.after (do let _ ← act) set = act.after set := by
  simp only [Host.after, bind, EStateM.bind]
  cases act set <;> rfl

end Host

section Alike

variable {α : Type} {R : RuleSet → RuleSet → Prop} {act : Host α} {set set' : RuleSet}
  (h : Alike R (act set) (act set'))

include h

theorem Alike.outcome_eq : act.outcome set = act.outcome set' := by
  unfold Host.outcome
  generalize act set = result, act set' = result' at h
  cases h <;> rfl

theorem Alike.after : R (act.after set) (act.after set') := by
  unfold Host.after
  generalize act set = result, act set' = result' at h
  cases h with
  | ok a hlater => exact hlater
  | error fault hlater => exact hlater

end Alike

namespace Store

/-- Two stores with a table of symbols each, and with the same variables. -/
structure Sealed (symbols symbols' : Symbols) (store store' : Store) : Prop where
  symbols_eq : store.symbols = symbols
  symbols_eq' : store'.symbols = symbols'
  scratch_eq : store.scratch = store'.scratch

/-- It is enough that both tables give the same under every name. -/
theorem lockstep_sealed {symbols symbols' : Symbols}
    (hfind : ∀ name, symbols.find? name = symbols'.find? name) :
    Lockstep (Sealed symbols symbols') where
  find?_eq hstore name := by rw [hstore.symbols_eq, hstore.symbols_eq', hfind]
  items_eq hstore name := by rw [hstore.scratch_eq]
  update hstore name change _ :=
    ⟨hstore.symbols_eq, hstore.symbols_eq', by simp only [hstore.scratch_eq]⟩

end Store

namespace RuleSet

theorem alike_evaluate_sealed (program : Program) {set set' : RuleSet}
    (hlimits : set.limits = set'.limits)
    (hfind : ∀ name, set.store.symbols.find? name = set'.store.symbols.find? name) :
    Alike (Related (Store.Sealed set.store.symbols set'.store.symbols))
      (evaluate program set) (evaluate program set') :=
  alike_evaluate (Store.lockstep_sealed hfind).compatible program hlimits ⟨rfl, rfl, rfl⟩

theorem limits_evaluate (program : Program) (set : RuleSet) :
    ((evaluate program).after set).limits = set.limits := by
  obtain ⟨limits, store⟩ := set
  simp only [Host.after, evaluate_eq]
  generalize program.tree.result limits.loopCeiling _ = result
  cases result <;> rfl

theorem symbols_evaluate (program : Program) (set : RuleSet) :
    ((evaluate program).after set).store.symbols = set.store.symbols :=
  (alike_evaluate_sealed program rfl fun _ => rfl).after.store.symbols_eq

end RuleSet

namespace Evaluation

variable {evaluation : Evaluation} {set : RuleSet}

theorem run_of_read {program : Program} (h : evaluation.read set.limits = .ok program) :
    evaluation.run set = RuleSet.evaluate program set := by
  cases evaluation with
  | program given =>
    cases h
    rfl
  | source text =>
    rw [read] at h
    rw [run, RuleSet.evaluateSource, RuleSet.parse, h]

/-- A source text that cannot be read leaves the whole rule set as it was. -/
theorem run_of_unread {fault : Fault} (h : evaluation.read set.limits = .error fault) :
    evaluation.run set = .error fault set := by
  cases evaluation with
  | program given => cases h
  | source text =>
    rw [read] at h
    rw [run, RuleSet.evaluateSource, RuleSet.parse, h]

/-- Only the variables can be different afterwards. -/
theorem after_run (evaluation : Evaluation) (set : RuleSet) :
    ∃ scratch, evaluation.run.after set = ⟨set.limits, set.store.symbols, scratch⟩ := by
  cases h : evaluation.read set.limits with
  | ok program =>
    rw [Host.after, run_of_read h]
    refine ⟨((RuleSet.evaluate program).after set).store.scratch, ?_⟩
    rw [← RuleSet.limits_evaluate program set, ← RuleSet.symbols_evaluate program set]
    rfl
  | error fault => exact ⟨set.store.scratch, by rw [Host.after, run_of_unread h]⟩

theorem limits_run (evaluation : Evaluation) (set : RuleSet) :
    (evaluation.run.after set).limits = set.limits := by
  obtain ⟨scratch, heq⟩ := evaluation.after_run set
  rw [heq]

theorem symbols_run (evaluation : Evaluation) (set : RuleSet) :
    (evaluation.run.after set).store.symbols = set.store.symbols := by
  obtain ⟨scratch, heq⟩ := evaluation.after_run set
  rw [heq]

end Evaluation

namespace RuleSet

theorem changeSymbols_of_ok {change : Symbols → Except Fault Symbols} {set : RuleSet}
    {symbols : Symbols} (h : change set.store.symbols = .ok symbols) :
    changeSymbols change set = .ok () { set with store := { set.store with symbols } } := by
  rw [changeSymbols, h]

theorem changeSymbols_of_error {change : Symbols → Except Fault Symbols} {set : RuleSet}
    {fault : Fault} (h : change set.store.symbols = .error fault) :
    changeSymbols change set = .error fault set := by
  rw [changeSymbols, h]

/-- Only the symbols can be different afterwards. -/
theorem after_changeSymbols (change : Symbols → Except Fault Symbols) (set : RuleSet) :
    ∃ symbols, (changeSymbols change).after set = ⟨set.limits, symbols, set.store.scratch⟩ := by
  unfold Host.after changeSymbols
  cases change set.store.symbols with
  | ok symbols => exact ⟨symbols, rfl⟩
  | error fault => exact ⟨set.store.symbols, rfl⟩

/-- The declarations up to the first with a name that no symbol can have. -/
def accepted (declarations : List Declaration) : List Declaration :=
  declarations.takeWhile fun declaration => isSymbolName declaration.name

/-- The fault of the first declaration with a name that no symbol can have. -/
def rejection? (declarations : List Declaration) : Option Fault :=
  (declarations.find? fun declaration => !isSymbolName declaration.name).map fun declaration =>
    .name ⟨.badName, [declaration.name.toList]⟩

theorem declareSymbol_of_name {declaration : Declaration} (h : isSymbolName declaration.name)
    (set : RuleSet) :
    declareSymbol declaration set = .ok () ((declareSymbol declaration).after set) := by
  have hok : declareSymbol declaration set = .ok () ⟨set.limits,
      set.store.symbols.insert ⟨declaration, none⟩, set.store.scratch⟩ :=
    changeSymbols_of_ok (if_pos h)
  rw [Host.after, hok]

theorem declareSymbol_of_bad_name {declaration : Declaration} (h : ¬isSymbolName declaration.name)
    (set : RuleSet) :
    declareSymbol declaration set = .error (.name ⟨.badName, [declaration.name.toList]⟩) set :=
  changeSymbols_of_error (if_neg h)

theorem forM_declareSymbol (declarations : List Declaration) (set : RuleSet) :
    declarations.forM declareSymbol set = Host.ended (rejection? declarations)
      (set.afterAll ((accepted declarations).map .declareSymbol)) := by
  induction declarations generalizing set with
  | nil => rfl
  | cons declaration declarations ih =>
    rw [List.forM]
    by_cases hname : isSymbolName declaration.name
    · rw [Run.bind_ok (declareSymbol_of_name hname set), ih]
      simp [rejection?, accepted, hname, afterAll, Call.run]
    · rw [Run.bind_error (declareSymbol_of_bad_name hname set)]
      simp [rejection?, accepted, hname, Host.ended, afterAll]

/-- Symbols that are declared together are declared one by one after the table is cleared, up to
the first with a bad name. -/
theorem declareSymbols_eq (declarations : List Declaration) (set : RuleSet) :
    declareSymbols declarations set = Host.ended (rejection? declarations)
      (set.afterAll (.clearSymbols :: (accepted declarations).map .declareSymbol)) :=
  forM_declareSymbol declarations _

theorem after_declareSymbols (declarations : List Declaration) (set : RuleSet) :
    (declareSymbols declarations).after set =
      set.afterAll (.clearSymbols :: (accepted declarations).map .declareSymbol) :=
  Host.after_eq _ (declareSymbols_eq declarations set)

theorem afterAll_append (set : RuleSet) (calls later : List Call) :
    set.afterAll (calls ++ later) = (set.afterAll calls).afterAll later :=
  List.foldl_append

/-- What every call of a sequence keeps, the sequence keeps. -/
theorem afterAll_induction {P : RuleSet → Prop} {calls : List Call}
    (hcall : ∀ call ∈ calls, ∀ set, P set → P (call.run.after set)) {set : RuleSet}
    (hset : P set) : P (set.afterAll calls) := by
  induction calls generalizing set with
  | nil => exact hset
  | cons call calls ih =>
    obtain ⟨hfirst, hcalls⟩ := List.forall_mem_cons.mp hcall
    exact ih hcalls (hfirst set hset)

/-- What holds without symbols, and is kept by each declaration, holds after all of them. -/
theorem declareSymbols_induction {P : RuleSet → Prop} {set : RuleSet}
    (hclear : P (clearSymbols.after set))
    (hdeclare : ∀ declaration later, P later → P ((declareSymbol declaration).after later))
    (declarations : List Declaration) : P ((declareSymbols declarations).after set) := by
  rw [after_declareSymbols]
  change P ((clearSymbols.after set).afterAll ((accepted declarations).map .declareSymbol))
  refine afterAll_induction ?_ hclear
  intro call hcall later hlater
  obtain ⟨declaration, -, rfl⟩ := List.mem_map.mp hcall
  exact hdeclare declaration later hlater

/-- Calls on the symbols leave the limits, and they leave the variables or drop all of them. -/
theorem after_symbol_call {call : Call} (hcall : call.isEvaluation = false) (set : RuleSet) :
    ∃ symbols, call.run.after set =
      ⟨set.limits, symbols, if call.clearsVariables then [] else set.store.scratch⟩ := by
  cases call with
  | declareSymbols declarations =>
    refine declareSymbols_induction (P := fun later =>
      ∃ symbols, later = ⟨set.limits, symbols, []⟩) ⟨.empty, rfl⟩ ?_ declarations
    rintro declaration _ ⟨symbols, rfl⟩
    exact after_changeSymbols _ _
  | clearSymbols => exact ⟨.empty, rfl⟩
  | declareSymbol _ | setSymbol _ _ | unsetSymbol _ => exact after_changeSymbols _ set
  | clearSymbolValues => exact after_changeSymbols (fun symbols => .ok symbols.unsetAll) set
  | evaluate evaluation => cases hcall

theorem scratch_call {call : Call} (hcall : call.isEvaluation = false) (set : RuleSet) :
    (call.run.after set).store.scratch =
      if call.clearsVariables then [] else set.store.scratch := by
  obtain ⟨symbols, heq⟩ := after_symbol_call hcall set
  rw [heq]

theorem limits_call (call : Call) (set : RuleSet) :
    (call.run.after set).limits = set.limits := by
  cases hcall : call.isEvaluation with
  | false =>
    obtain ⟨symbols, heq⟩ := after_symbol_call hcall set
    rw [heq]
  | true =>
    obtain ⟨evaluation, rfl⟩ := call.eq_evaluate hcall
    rw [Call.run, Host.after_ignore, evaluation.limits_run]

theorem limits_afterAll (set : RuleSet) (calls : List Call) :
    (set.afterAll calls).limits = set.limits :=
  afterAll_induction (P := fun later => later.limits = set.limits)
    (fun call _ later hlater => (limits_call call later).trans hlater) rfl

end RuleSet
end RuleLang

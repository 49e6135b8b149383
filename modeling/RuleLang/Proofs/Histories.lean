import RuleLang.Listing
import RuleLang.Proofs.Calls
import RuleLang.Proofs.SymbolTable

/-!
The symbols as a host knows them: from a log of the changes that its calls have made. A log tells
which names are declared and in which order, and under each name the latest declaration and the
value. After every sequence of calls the table of symbols is as its log tells, and the log also
tells which of the calls fail and with which fault.
-/
namespace RuleLang

inductive Change
  | cleared
  | declared (declaration : Declaration)
  /-- The symbol of a name got a value, or lost the one it had. -/
  | valued (name : String) (value? : Option Value)
  | unvalued

/-- Changes of a table of symbols, the latest first. -/
abbrev Log := List Change

namespace Log

/-- The declarations since the table was last cleared, the latest first. -/
def declarations : Log → List Declaration
  | [] | .cleared :: _ => []
  | .declared declaration :: log => declaration :: declarations log
  | .valued _ _ :: log | .unvalued :: log => declarations log

/-- The declared names, each where it was first declared. -/
def names (log : Log) : List String := (log.declarations.map (·.name)).dedup.reverse

/-- The latest declaration of a name. -/
def declaration? (log : Log) (name : String) : Option Declaration :=
  log.declarations.find? fun declaration => declaration.name = name

/-- The value that the latest change of the value of a name has left. -/
def value? (name : String) : Log → Option Value
  | [] | .cleared :: _ | .unvalued :: _ => none
  | .declared declaration :: log =>
    if declaration.name = name then none else value? name log
  | .valued x value? :: log => if x = name then value? else Log.value? name log

def symbol? (log : Log) (name : String) : Option Symbol :=
  (log.declaration? name).map fun declaration => ⟨declaration, log.value? name⟩

/-- All symbols in the order of their first declarations. -/
def symbols (log : Log) : List Symbol := log.names.filterMap log.symbol?

/-- The fault with which a call on the symbols fails, if it does. -/
def fault? (log : Log) : Call → Option Fault
  | .declareSymbols declarations => RuleSet.rejection? declarations
  | .declareSymbol declaration =>
    if isSymbolName declaration.name then none
    else some (.name ⟨.badName, [declaration.name.toList]⟩)
  | .setSymbol name value =>
    match log.declaration? name with
    | none => some (.name ⟨.undeclared, [name.toList]⟩)
    | some declaration =>
      if value.shape = declaration.shape then none
      else some (.shape ⟨.wrongShape, [name.toList, declaration.shape.text, value.shape.text]⟩)
  | .unsetSymbol name =>
    if (log.declaration? name).isSome then none else some (.name ⟨.undeclared, [name.toList]⟩)
  | .clearSymbols | .clearSymbolValues | .evaluate _ => none

end Log

/-- The changes that a call makes if it does not fail, the first of them first. -/
def Call.changes : Call → List Change
  | declareSymbols declarations => .cleared :: (RuleSet.accepted declarations).map .declared
  | declareSymbol declaration => [.declared declaration]
  | clearSymbols => [.cleared]
  | setSymbol name value => [.valued name (some value)]
  | unsetSymbol name => [.valued name none]
  | clearSymbolValues => [.unvalued]
  | evaluate _ => []

namespace Log

/-- The log after a call. One that fails adds nothing, unless it replaces all symbols. -/
def after (log : Log) : Call → Log
  | .declareSymbols declarations => (Call.declareSymbols declarations).changes.reverse ++ log
  | call => if log.fault? call = none then call.changes.reverse ++ log else log

def afterAll (log : Log) (calls : List Call) : Log := calls.foldl after log

theorem names_declared (declaration : Declaration) (log : Log) :
    names (.declared declaration :: log) =
      if declaration.name ∈ log.names then log.names else log.names ++ [declaration.name] := by
  have hmem : declaration.name ∈ log.names ↔
      declaration.name ∈ log.declarations.map (·.name) := by
    rw [names, List.mem_reverse, List.mem_dedup]
  change ((declaration.name :: log.declarations.map (·.name)).dedup).reverse = _
  split
  case isTrue h => rw [List.dedup_cons_of_mem (hmem.mp h), names]
  case isFalse h => rw [List.dedup_cons_of_notMem (mt hmem.mpr h), List.reverse_cons, names]

theorem symbol?_declared (declaration : Declaration) (log : Log) (name : String) :
    symbol? (.declared declaration :: log) name =
      if name = declaration.name then some ⟨declaration, none⟩ else log.symbol? name := by
  simp only [symbol?, declaration?, declarations, List.find?_cons, value?]
  by_cases h : name = declaration.name
  · simp [h]
  · simp [h, Ne.symm h]

theorem symbol?_valued (x : String) (value? : Option Value) (log : Log) (name : String) :
    symbol? (.valued x value? :: log) name =
      if name = x then (log.symbol? x).map fun symbol => { symbol with value? }
      else log.symbol? name := by
  simp only [symbol?, declaration?, declarations, Log.value?]
  by_cases h : name = x
  · simp [h, Function.comp_def]
  · simp [h, Ne.symm h]

theorem symbol?_unvalued (log : Log) (name : String) :
    symbol? (.unvalued :: log) name =
      (log.symbol? name).map fun symbol => { symbol with value? := none } := by
  simp [symbol?, declaration?, declarations, value?, Function.comp_def]

/-- The table of symbols is as the log tells, and keeps what was asked of its names and values. -/
structure Describes (log : Log) (symbols : Symbols) : Prop where
  indexed : symbols.Indexed
  names_eq : symbols.names = log.names
  find?_eq : ∀ name, symbols.find? name = log.symbol? name
  valid : ∀ name ∈ symbols.names, isSymbolName name
  shaped : ∀ {name symbol}, symbols.find? name = some symbol →
    ∀ value ∈ symbol.value?, value.shape = symbol.shape

end Log

/-- The log tells the entries in their order. -/
theorem Log.Describes.entries_eq {log : Log} {symbols : Symbols} (h : log.Describes symbols) :
    symbols.entries.toList = log.symbols := by
  rw [h.indexed.entries_eq, Log.symbols, h.names_eq, funext h.find?_eq]

theorem Log.Describes.declares_eq {log : Log} {symbols : Symbols} (h : log.Describes symbols)
    (name : String) : symbols.declares name = (log.declaration? name).isSome := by
  rw [Symbols.declares, h.find?_eq, Log.symbol?, Option.isSome_map]

/-- A symbol keeps its name when its value changes. -/
theorem Symbols.names_modify_value {symbols : Symbols} (h : symbols.Indexed) (name : String)
    (value? : Option Value) :
    (symbols.modify name fun symbol => { symbol with value? }).names = symbols.names :=
  names_modify h fun _ hname => hname

namespace Change

/-- What the change does to a table. -/
def apply : Change → Symbols → Symbols
  | cleared, _ => .empty
  | declared declaration, symbols => symbols.insert ⟨declaration, none⟩
  | valued name value?, symbols => symbols.modify name fun symbol => { symbol with value? }
  | unvalued, symbols => symbols.unsetAll

/-- Calls that do not fail only declare good names and only give values of the declared shapes. -/
def Allowed (log : Log) : Change → Prop
  | declared declaration => isSymbolName declaration.name
  | valued name value? => ∀ value ∈ value?, ∃ declaration,
      log.declaration? name = some declaration ∧ value.shape = declaration.shape
  | cleared | unvalued => True

end Change

namespace Log

variable {log : Log} {symbols : Symbols}

theorem describes_empty (h : log.declarations = []) : log.Describes .empty where
  indexed := Symbols.indexed_empty
  names_eq := by rw [names, h]; rfl
  find?_eq name := by rw [symbol?, declaration?, h]; rfl
  valid _ hmem := by cases hmem
  shaped hfind := by cases hfind

namespace Describes

variable (h : log.Describes symbols)

include h

theorem declared {declaration : Declaration} (hname : isSymbolName declaration.name) :
    Describes (.declared declaration :: log) (symbols.insert ⟨declaration, none⟩) where
  indexed := Symbols.indexed_insert h.indexed _
  names_eq := by rw [Symbols.names_insert h.indexed, names_declared, h.names_eq]
  find?_eq name := by rw [Symbols.find?_insert h.indexed, symbol?_declared, h.find?_eq]
  valid name hmem := by
    rw [Symbols.names_insert h.indexed] at hmem
    split at hmem
    · exact h.valid name hmem
    · rcases List.mem_append.mp hmem with hold | hnew
      · exact h.valid name hold
      · rw [List.mem_singleton.mp hnew]
        exact hname
  shaped hfind := by
    rw [Symbols.find?_insert h.indexed] at hfind
    split at hfind
    · cases hfind
      exact fun value hvalue => by cases hvalue
    · exact h.shaped hfind

theorem valued {name : String} {value? : Option Value}
    (hshape : ∀ value ∈ value?, ∃ declaration, log.declaration? name = some declaration ∧
      value.shape = declaration.shape) :
    Describes (.valued name value? :: log)
      (symbols.modify name fun symbol => { symbol with value? }) where
  indexed := Symbols.indexed_modify h.indexed fun _ hname => hname
  names_eq := (Symbols.names_modify_value h.indexed name value?).trans h.names_eq
  find?_eq x := by rw [Symbols.find?_modify h.indexed, symbol?_valued, h.find?_eq, h.find?_eq]
  valid x hmem := by
    rw [Symbols.names_modify_value h.indexed] at hmem
    exact h.valid x hmem
  shaped hfind value hvalue := by
    rw [Symbols.find?_modify h.indexed] at hfind
    split at hfind
    · obtain ⟨symbol, hsymbol, rfl⟩ := Option.map_eq_some_iff.mp hfind
      obtain ⟨declaration, hdeclaration, heq⟩ := hshape value hvalue
      rw [h.find?_eq, symbol?, hdeclaration] at hsymbol
      cases hsymbol
      exact heq
    · exact h.shaped hfind value hvalue

theorem unvalued : Describes (.unvalued :: log) symbols.unsetAll where
  indexed := Symbols.indexed_unsetAll h.indexed
  names_eq := (Symbols.names_unsetAll symbols).trans h.names_eq
  find?_eq name := by rw [Symbols.find?_unsetAll, symbol?_unvalued, h.find?_eq]
  valid name hmem := by
    rw [Symbols.names_unsetAll] at hmem
    exact h.valid name hmem
  shaped hfind value hvalue := by
    rw [Symbols.find?_unsetAll] at hfind
    obtain ⟨symbol, -, rfl⟩ := Option.map_eq_some_iff.mp hfind
    cases hvalue

/-- Every change of the table is told right by the log that has it in front. -/
theorem change {change : Change} (hallowed : change.Allowed log) :
    Describes (change :: log) (change.apply symbols) := by
  cases change with
  | cleared => exact describes_empty rfl
  | declared declaration => exact h.declared hallowed
  | valued name value? => exact h.valued hallowed
  | unvalued => exact h.unvalued

end Describes

/-- A call on the symbols does what the log lets expect. If it fails it changes nothing, unless it
replaces all symbols. -/
structure Foresees (log : Log) (set : RuleSet) (call : Call) : Prop where
  describes : (log.after call).Describes (call.run.after set).store.symbols
  run_eq : call.run set = Host.ended (log.fault? call) (call.run.after set)
  unchanged : log.fault? call ≠ none → (∀ declarations, call ≠ .declareSymbols declarations) →
    call.run.after set = set

namespace Describes

variable {set : RuleSet} (h : log.Describes set.store.symbols) {call : Call}
  {change : Symbols → Except Fault Symbols}

include h

theorem foresees_change (made : Change) (hrun : call.run = RuleSet.changeSymbols change)
    (hfault : log.fault? call = none) (hafter : log.after call = made :: log)
    (hchange : change set.store.symbols = .ok (made.apply set.store.symbols))
    (hallowed : made.Allowed log) : log.Foresees set call := by
  have heq := RuleSet.changeSymbols_of_ok hchange
  rw [← hrun] at heq
  have hlater := Host.after_eq none heq
  refine ⟨?_, ?_, fun hne => absurd hfault hne⟩
  · rw [hafter, hlater]
    exact h.change hallowed
  · rw [hfault, hlater, heq]
    rfl

theorem foresees_fault {fault : Fault} (hrun : call.run = RuleSet.changeSymbols change)
    (hfault : log.fault? call = some fault) (hafter : log.after call = log)
    (hchange : change set.store.symbols = .error fault) : log.Foresees set call := by
  have heq := RuleSet.changeSymbols_of_error hchange
  rw [← hrun] at heq
  have hlater := Host.after_eq (some fault) heq
  refine ⟨?_, ?_, fun _ _ => hlater⟩
  · rw [hafter, hlater]
    exact h
  · rw [hfault, hlater, heq]
    rfl

theorem foresees_declareSymbol (declaration : Declaration) :
    log.Foresees set (.declareSymbol declaration) := by
  by_cases hname : isSymbolName declaration.name
  · have hfault : log.fault? (.declareSymbol declaration) = none := if_pos hname
    exact h.foresees_change (.declared declaration) rfl hfault (if_pos hfault) (if_pos hname) hname
  · have hfault : log.fault? (.declareSymbol declaration) =
        some (.name ⟨.badName, [declaration.name.toList]⟩) := if_neg hname
    exact h.foresees_fault rfl hfault (if_neg (by simp [hfault])) (if_neg hname)

theorem foresees_setSymbol (name : String) (value : Value) :
    log.Foresees set (.setSymbol name value) := by
  have hfind : set.store.symbols.find? name = log.symbol? name := h.find?_eq name
  rw [symbol?] at hfind
  cases hdeclaration : log.declaration? name with
  | none =>
    have hfault : log.fault? (.setSymbol name value) =
        some (.name ⟨.undeclared, [name.toList]⟩) := by
      simp only [fault?, hdeclaration]
    refine h.foresees_fault rfl hfault (if_neg (by simp [hfault])) ?_
    rw [Symbols.set, hfind, hdeclaration]
    rfl
  | some declaration =>
    rw [hdeclaration] at hfind
    by_cases hshape : value.shape = declaration.shape
    · have hfault : log.fault? (.setSymbol name value) = none := by
        simp only [fault?, hdeclaration, if_pos hshape]
      refine h.foresees_change (.valued name (some value)) rfl hfault (if_pos hfault) ?_ ?_
      · rw [Symbols.set, hfind]
        exact if_pos hshape
      · rintro _ ⟨rfl⟩
        exact ⟨declaration, hdeclaration, hshape⟩
    · have hfault : log.fault? (.setSymbol name value) =
          some (.shape ⟨.wrongShape, [name.toList, declaration.shape.text, value.shape.text]⟩) := by
        simp only [fault?, hdeclaration, if_neg hshape]
      refine h.foresees_fault rfl hfault (if_neg (by simp [hfault])) ?_
      rw [Symbols.set, hfind]
      exact if_neg hshape

theorem foresees_unsetSymbol (name : String) : log.Foresees set (.unsetSymbol name) := by
  have hdeclares := h.declares_eq name
  by_cases hname : (log.declaration? name).isSome
  · have hfault : log.fault? (.unsetSymbol name) = none := if_pos hname
    refine h.foresees_change (.valued name none) rfl hfault (if_pos hfault) ?_ ?_
    · rw [Symbols.unset, hdeclares]
      exact if_pos hname
    · rintro _ ⟨⟩
  · have hfault : log.fault? (.unsetSymbol name) = some (.name ⟨.undeclared, [name.toList]⟩) :=
      if_neg hname
    refine h.foresees_fault rfl hfault (if_neg (by simp [hfault])) ?_
    rw [Symbols.unset, hdeclares]
    exact if_neg hname

omit h in
theorem foresees_clearSymbols (log : Log) (set : RuleSet) : log.Foresees set .clearSymbols :=
  ⟨describes_empty rfl, rfl, fun hne => absurd rfl hne⟩

theorem foresees_clearSymbolValues : log.Foresees set .clearSymbolValues := by
  have hrun : Call.clearSymbolValues.run =
      RuleSet.changeSymbols fun symbols => .ok symbols.unsetAll := rfl
  exact h.foresees_change .unvalued hrun rfl rfl rfl trivial

/-- Declarations with good names are all made, one after another. -/
theorem declareAll {declarations : List Declaration}
    (hnames : ∀ declaration ∈ declarations, isSymbolName declaration.name) :
    Describes ((declarations.map .declared).reverse ++ log)
      (set.afterAll (declarations.map .declareSymbol)).store.symbols := by
  induction declarations generalizing log set with
  | nil => exact h
  | cons declaration declarations ih =>
    obtain ⟨hname, hnames⟩ := List.forall_mem_cons.mp hnames
    have hfirst := (h.foresees_declareSymbol declaration).describes
    have hafter : log.after (.declareSymbol declaration) = .declared declaration :: log :=
      if_pos (if_pos hname)
    rw [hafter] at hfirst
    rw [List.map_cons, List.reverse_cons, List.append_assoc]
    exact ih hfirst hnames

omit h in
theorem foresees_declareSymbols (log : Log) (set : RuleSet) (declarations : List Declaration) :
    log.Foresees set (.declareSymbols declarations) := by
  have hlater := RuleSet.after_declareSymbols declarations set
  refine ⟨?_, ?_, fun _ hne => absurd rfl (hne declarations)⟩
  · have hnames : ∀ declaration ∈ RuleSet.accepted declarations, isSymbolName declaration.name := by
      intro declaration hmem
      simpa using List.mem_takeWhile_imp hmem
    have hdeclared := (foresees_clearSymbols log set).describes.declareAll hnames
    rw [Call.run, hlater]
    change Describes ((.cleared :: (RuleSet.accepted declarations).map .declared).reverse ++ log) _
    rw [List.reverse_cons, List.append_assoc]
    exact hdeclared
  · change RuleSet.declareSymbols declarations set = _
    rw [RuleSet.declareSymbols_eq, ← hlater]
    rfl

theorem foresees (call : Call) (hcall : call.isEvaluation = false) : log.Foresees set call := by
  cases call with
  | declareSymbols declarations => exact foresees_declareSymbols log set declarations
  | declareSymbol declaration => exact h.foresees_declareSymbol declaration
  | clearSymbols => exact foresees_clearSymbols log set
  | setSymbol name value => exact h.foresees_setSymbol name value
  | unsetSymbol name => exact h.foresees_unsetSymbol name
  | clearSymbolValues => exact h.foresees_clearSymbolValues
  | evaluate evaluation => cases hcall

/-- Evaluations leave the symbols alone, and the log stays as it is. -/
theorem after_call (call : Call) :
    (log.after call).Describes (call.run.after set).store.symbols := by
  cases hcall : call.isEvaluation with
  | false => exact (h.foresees call hcall).describes
  | true =>
    obtain ⟨evaluation, rfl⟩ := call.eq_evaluate hcall
    rw [Call.run, Host.after_ignore, evaluation.symbols_run]
    exact h

theorem after_calls (calls : List Call) :
    (log.afterAll calls).Describes (set.afterAll calls).store.symbols := by
  induction calls generalizing log set with
  | nil => exact h
  | cons call calls ih => exact ih (h.after_call call)

end Describes

theorem describes_afterAll (limits : Limits) (calls : List Call) :
    (afterAll [] calls).Describes ((RuleSet.ofLimits limits).afterAll calls).store.symbols :=
  Describes.after_calls (describes_empty rfl) calls

end Log

namespace RuleSet

/-- Beginning without symbols, whatever calls a host makes, the table stays an ordered map: it is
as the log of the calls tells, its index is right in both directions, and the next call does what
the log lets expect. Symbols that are declared together replace all earlier ones, up to the first
bad name. -/
theorem log_describes_symbols (limits : Limits) (calls : List Call) :
    let set := (ofLimits limits).afterAll calls
    let log := Log.afterAll [] calls
    log.Describes set.store.symbols ∧
      set.symbols = log.symbols.map Symbol.info ∧
      (∀ name, set.description? name = (log.declaration? name).map (·.description)) ∧
      set.store.symbols.names.Nodup ∧
      (∀ name symbol, set.store.symbols.find? name = some symbol ↔
        symbol ∈ set.store.symbols.entries ∧ symbol.name = name) ∧
      (∀ name place, (name, place) ∈ set.store.symbols.index ↔
        set.store.symbols.entries[place]?.map (·.name) = some name) ∧
      (∀ call, call.isEvaluation = false → log.Foresees set call) ∧
      ∀ declarations, (declareSymbols declarations).after set =
        set.afterAll (.clearSymbols :: (accepted declarations).map .declareSymbol) := by
  intro set log
  have h : log.Describes set.store.symbols := Log.describes_afterAll limits calls
  refine ⟨h, ?_, ?_, h.indexed.names_nodup, fun _ _ => h.indexed.find?_eq_some_iff,
    h.indexed.mem_index_iff, h.foresees, fun declarations => after_declareSymbols declarations set⟩
  · rw [symbols, h.entries_eq]
  · intro name
    rw [description?, h.find?_eq, Log.symbol?, Option.map_map]
    rfl

/-- A name that is declared again keeps its place and loses its value. -/
example :
    let log := Log.afterAll []
      [.declareSymbol ⟨"b", "", .scalar⟩, .declareSymbol ⟨"a", "", .scalar⟩,
        .setSymbol "a" (.scalar 1), .setSymbol "b" (.scalar 2),
        .declareSymbol ⟨"b", "new", .vector⟩]
    log.symbols = [⟨⟨"b", "new", .vector⟩, none⟩, ⟨⟨"a", "", .scalar⟩, some (.scalar 1)⟩] := by
  decide

end RuleSet
end RuleLang

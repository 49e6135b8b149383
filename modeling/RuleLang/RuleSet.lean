import RuleLang.Limits
import RuleLang.Program.Run
import RuleLang.Program.Source

/-!
Rule sets: the limits, symbols and variables under which a host evaluates programs. The host
declares symbols and gives them values; an evaluation reads them and leaves them alone. The
variables that an evaluation creates can be looked at until the next one begins.
-/
namespace RuleLang

structure RuleSet where
  limits : Limits
  store : Store

/-- What a host does with a rule set. It may fail, and even then may have changed it. -/
abbrev Host (α : Type) := EStateM Fault RuleSet α

namespace RuleSet

def ofLimits (limits : Limits) : RuleSet := ⟨limits, .empty⟩

/-- Changes the symbols, or fails and leaves the rule set as it was. -/
def changeSymbols (change : Symbols → Except Fault Symbols) : Host Unit := fun set =>
  match change set.store.symbols with
  | .ok symbols => .ok () { set with store := { set.store with symbols } }
  | .error fault => .error fault set

def declareSymbol (declaration : Declaration) : Host Unit :=
  changeSymbols (·.declare declaration)

/-- Drops all symbols and variables. -/
def clearSymbols : Host Unit := modify fun set => { set with store := .empty }

/-- Declares symbols in place of all earlier ones. Those before a bad name stay declared. -/
def declareSymbols (declarations : List Declaration) : Host Unit := do
  clearSymbols
  declarations.forM declareSymbol

def setSymbol (name : String) (value : Value) : Host Unit := changeSymbols (·.set name value)

def unsetSymbol (name : String) : Host Unit := changeSymbols (·.unset name)

def clearSymbolValues : Host Unit := changeSymbols fun symbols => .ok symbols.unsetAll

def description? (set : RuleSet) (name : String) : Option String :=
  (set.store.symbols.find? name).map (·.description)

def contentsOf? (set : RuleSet) (name : String) : Option (Array Int32) :=
  set.store.scratch.find? name

def parse (set : RuleSet) (source : String) : Except Fault Program :=
  Program.parse set.limits.nestingDepth source

/-- Evaluates a program, with no variables at the beginning. -/
def evaluate (program : Program) : Host Int32 := fun ⟨limits, store⟩ =>
  match program.result limits.loopCeiling ⟨{ store with scratch := [] }, .none⟩ with
  | .ok value state => .ok value ⟨limits, state.store⟩
  | .error fault state => .error fault ⟨limits, state.store⟩

/-- Evaluates a source text. One that cannot be read leaves even the variables as they were. -/
def evaluateSource (source : String) : Host Int32 := fun set =>
  match set.parse source with
  | .ok program => evaluate program set
  | .error fault => .error fault set

end RuleSet
end RuleLang

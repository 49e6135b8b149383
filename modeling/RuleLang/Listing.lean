import RuleLang.RuleSet

/-!
Listings of a rule set for people to read: its symbols in the order of declaration, and its
variables in ascending order of names. A variable with one element is listed as a number.
-/
namespace RuleLang

/-- What an editor shows of a symbol. -/
structure SymbolInfo where
  name : String
  description : String
  isVector : Bool
  isMatrix : Bool
  deriving DecidableEq

def Symbol.info (symbol : Symbol) : SymbolInfo :=
  ⟨symbol.name, symbol.description, symbol.shape.isVector, symbol.shape.isMatrix⟩

structure Row where
  name : String
  shape : Shape
  /-- The written value, which a symbol may lack. -/
  value? : Option String
  description : String
  deriving DecidableEq

namespace Row

def text (row : Row) : Text :=
  let head :=
    match row.value? with
    | some value => row.name.toList ++ " = ".toList ++ value.toList
    | none => row.name.toList ++ " (unset)".toList
  if row.description.isEmpty then head
  else head ++ "  // ".toList ++ row.description.toList

def ofVariable (name : String) (items : Array Int32) : Row :=
  match items.toList with
  | [n] => ⟨name, .scalar, some (.ofList (Text.ofInt n.toInt)), ""⟩
  | _ => ⟨name, .vector, some (.ofList (Value.vectorText items)), ""⟩

def ofSymbol (symbol : Symbol) : Row :=
  ⟨symbol.name, symbol.shape, symbol.value?.map fun value => .ofList value.text,
    symbol.description⟩

end Row

namespace RuleSet

def symbols (set : RuleSet) : List SymbolInfo := set.store.symbols.entries.toList.map Symbol.info

def variableRows (set : RuleSet) : List Row :=
  set.store.scratch.map fun (name, items) => Row.ofVariable name items

def symbolRows (set : RuleSet) : List Row := set.store.symbols.entries.toList.map Row.ofSymbol

end RuleSet
end RuleLang

import RuleLang.Store.Symbols
import RuleLang.Store.Variables

/-!
What a rule reads and writes by name. Symbols belong to the host and can only be read; a name
that is declared as a symbol is never looked up among the variables. Every write either fails
and leaves the store as it was, or changes the one variable that it names.
-/
namespace RuleLang

structure Store where
  symbols : Symbols
  scratch : Variables

/-- A write, which may fail. -/
abbrev Write (α : Type) := EStateM Fault Store α

/-- The most elements to which a variable can grow by assignment to an element. -/
def maxVariableLength : Nat := 65536

/-- The place of an index in a vector of the given length. -/
def slot (name : String) (index : Int32) (length : Nat) : Except Fault Nat :=
  if 0 ≤ index.toInt ∧ index.toInt < length then .ok index.toInt.toNat
  else .error (.shape ⟨.outOfRange, [.ofInt index.toInt, name.toList]⟩)

/-- A length as a number of the language, which stops at the largest. -/
def lengthNumber (length : Nat) : Int32 := Int32.ofNat (min length 2147483647)

def Symbol.value (symbol : Symbol) : Except Fault Value :=
  match symbol.value? with
  | some value => .ok value
  | none => .error (.name ⟨.unset, [symbol.name.toList]⟩)

namespace Store

def empty : Store := ⟨.empty, []⟩

def items (store : Store) (name : String) : Except Fault (Array Int32) :=
  match store.scratch.find? name with
  | some items => .ok items
  | none => .error (.name ⟨.unknownName, [name.toList]⟩)

/-- The data of a name: the value of a symbol, or the elements of a variable. -/
def lookup (store : Store) (name : String) : Except Fault (Value ⊕ Array Int32) :=
  match store.symbols.find? name with
  | some symbol => .inl <$> symbol.value
  | none => .inr <$> store.items name

/-- A bare name. -/
def read (store : Store) (name : String) : Except Fault Int32 := do
  match ← store.lookup name with
  | .inl (.scalar n) => return n
  | .inl _ => throw (.shape ⟨.needsIndex, [name.toList]⟩)
  | .inr items =>
    if h : items.size = 1 then return items[0]
    else throw (.shape ⟨.needsIndex, [name.toList]⟩)

def elementOf (name : String) (items : Array Int32) (index : Int32) : Except Fault Int32 := do
  let i ← slot name index items.size
  return items.getD i 0

/-- A name with one index. -/
def readElement (store : Store) (name : String) (index : Int32) : Except Fault Int32 := do
  match ← store.lookup name with
  | .inl (.scalar _) => throw (.shape ⟨.notAVector, [name.toList]⟩)
  | .inl (.matrix _) => throw (.shape ⟨.needsTwoIndices, [name.toList]⟩)
  | .inl (.vector items) | .inr items => elementOf name items index

/-- The rows of a matrix. Only symbols can be matrices. -/
def rows (store : Store) (name : String) : Except Fault (Array (Array Int32)) := do
  match ← store.lookup name with
  | .inl (.matrix rows) => return rows
  | _ => throw (.shape ⟨.notAMatrix, [name.toList]⟩)

def row (store : Store) (name : String) (index : Int32) : Except Fault (Array Int32) := do
  let rows ← store.rows name
  return rows.getD (← slot name index rows.size) #[]

/-- A name with two indices. -/
def readCell (store : Store) (name : String) (row column : Int32) : Except Fault Int32 := do
  elementOf name (← store.row name row) column

/-- The number of elements of a vector or of rows of a matrix. -/
def size (store : Store) (name : String) : Except Fault Int32 := do
  match ← store.lookup name with
  | .inl (.scalar _) => throw (.shape ⟨.noSize, [name.toList]⟩)
  | .inl (.matrix rows) => return lengthNumber rows.size
  | .inl (.vector items) | .inr items => return lengthNumber items.size

/-- The length of a row of a matrix. -/
def rowSize (store : Store) (name : String) (index : Int32) : Except Fault Int32 := do
  return lengthNumber (← store.row name index).size

/-- The elements that a name has when it is copied to a variable. -/
def elements (store : Store) (name : String) : Except Fault (Array Int32) := do
  match ← store.lookup name with
  | .inl (.scalar n) => return #[n]
  | .inl (.matrix _) => throw (.shape ⟨.matrixCopy, [name.toList]⟩)
  | .inl (.vector items) | .inr items => return items

/-- Runs a write if the name is not that of a symbol. -/
def writing (name : String) (act : Write α) : Write α := fun store =>
  if store.symbols.declares name then .error (.name ⟨.readOnly, [name.toList]⟩) store else act store

/-- Changes the elements of a variable. -/
def update (name : String) (change : Array Int32 → Array Int32) : Write Unit := fun store =>
  .ok () { store with scratch := store.scratch.update name change }

/-- Reads from the store and leaves it as it is. -/
def reading (get : Store → Except Fault α) : Write α := fun store =>
  match get store with
  | .ok a => .ok a store
  | .error fault => .error fault store

/-- Makes a variable a single number. -/
def assign (name : String) (value : Int32) : Write Unit :=
  writing name (update name fun _ => #[value])

/-- The elements with one of them replaced, after as many zeros as this takes. -/
def place (i : Nat) (value : Int32) (items : Array Int32) : Array Int32 :=
  (items ++ Array.replicate (i + 1 - items.size) 0).setIfInBounds i value

/-- Assigns to an element of a variable, which grows as needed. -/
def assignElement (name : String) (index value : Int32) : Write Unit :=
  writing name do
    let i ← reading fun _ => slot name index maxVariableLength
    update name (place i value)

/-- Copies all elements of a name to a variable and gives the first of them, or else zero. -/
def copy (target source : String) : Write Int32 :=
  writing target do
    let items ← reading (·.elements source)
    update target fun _ => items
    return items.getD 0 0

/-- Adds to a variable that is a single number; gives the number before and after. -/
def increment (name : String) (delta : Int32) : Write (Int32 × Int32) :=
  writing name do
    let items ← reading (·.items name)
    if h : items.size = 1 then
      update name fun _ => #[items[0] + delta]
      return (items[0], items[0] + delta)
    else throw (.shape ⟨.needsIndex, [name.toList]⟩)

/-- Adds to an element of a variable; gives the element before and after. -/
def incrementElement (name : String) (index delta : Int32) : Write (Int32 × Int32) :=
  writing name do
    let items ← reading (·.items name)
    let i ← reading fun _ => slot name index items.size
    let old := items.getD i 0
    update name fun items => items.setIfInBounds i (old + delta)
    return (old, old + delta)

def sorted (items : Array Int32) : Array Int32 :=
  (items.toList.mergeSort fun a b => a ≤ b).toArray

/-- Sorts the elements of a variable in ascending order. -/
def sort (name : String) : Write Unit := fun store =>
  if store.symbols.declares name then .error (.shape ⟨.notSortable, [name.toList]⟩) store
  else
    match store.scratch.find? name with
    | none => .error (.name ⟨.unknownName, [name.toList]⟩) store
    | some _ => update name sorted store

end Store
end RuleLang

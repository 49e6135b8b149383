/-!
JSON values with integers as their only numbers, and what the readers of stored data need: the
fields of an object, numbers within bounds, and tagged values. A tagged value is an object with
the tag as its only field; a tag that carries nothing may also stand alone as a string. A reader
gives `none` for a value of the wrong form.
-/
namespace RuleLang

inductive Json
  | null
  | bool (value : Bool)
  | number (value : Int)
  | string (value : String)
  | array (items : List Json)
  | object (fields : List (String × Json))
  deriving Inhabited

namespace Json

/-- The value of a field. Fields that nobody asks for are ignored. -/
def field? (json : Json) (name : String) : Option Json :=
  match json with
  | object fields => (fields.find? fun field => field.1 == name).map Prod.snd
  | _ => none

def bool? : Json → Option Bool
  | bool value => some value
  | _ => none

def string? : Json → Option String
  | string value => some value
  | _ => none

def array? : Json → Option (List Json)
  | array items => some items
  | _ => none

/-- Reads every item of an array. -/
def list? (item : Json → Option α) (json : Json) : Option (List α) := do
  (← json.array?).mapM item

/-- A value that may be null. -/
def orNull? (value : Json → Option α) : Json → Option (Option α)
  | null => some none
  | json => (value json).map some

/-- A field that may be null or missing. -/
def maybe? (json : Json) (name : String) (value : Json → Option α) : Option (Option α) :=
  match json.field? name with
  | some found => found.orNull? value
  | none => some none

/-- An integer of 32 bits. -/
def int32? : Json → Option Int32
  | number n => if -2147483648 ≤ n ∧ n ≤ 2147483647 then some (Int32.ofInt n) else none
  | _ => none

/-- A number of a node, which has 32 bits. -/
def nodeId? : Json → Option Nat
  | number n => if 0 ≤ n ∧ n < 4294967296 then some n.toNat else none
  | _ => none

/-- The tag of a value and what it carries; a tag alone carries null. -/
def tagged? : Json → Option (String × Json)
  | object [field] => some field
  | _ => none

/-- A tag that carries nothing. -/
def bareTag? : Json → Option String
  | string tag => some tag
  | object [(tag, null)] => some tag
  | _ => none

def ofInt32 (n : Int32) : Json := number n.toInt

def ofNat (n : Nat) : Json := number n

def tag (name : String) (carried : Json) : Json := object [(name, carried)]

end Json
end RuleLang

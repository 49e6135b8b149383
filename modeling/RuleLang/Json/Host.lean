import RuleLang.Json.Basic
import RuleLang.Listing

/-!
The stored forms of what a host hands over and gets back: shapes, values, declarations and the
rows of listings.
-/
namespace RuleLang

open Json

def Shape.toJson : Shape → Json
  | scalar => .string "Scalar"
  | vector => .string "Vector"
  | matrix => .string "Matrix"

def Shape.ofJson? (json : Json) : Option Shape :=
  match json.bareTag? with
  | some "Scalar" => some scalar
  | some "Vector" => some vector
  | some "Matrix" => some matrix
  | _ => none

namespace Value

def itemsToJson (items : Array Int32) : Json := .array (items.toList.map ofInt32)

def items? (json : Json) : Option (Array Int32) := List.toArray <$> json.list? int32?

def toJson : Value → Json
  | scalar n => tag "Scalar" (ofInt32 n)
  | vector items => tag "Vector" (itemsToJson items)
  | matrix rows => tag "Matrix" (.array (rows.toList.map itemsToJson))

def ofJson? (json : Json) : Option Value :=
  match json.tagged? with
  | some ("Scalar", n) => scalar <$> n.int32?
  | some ("Vector", items) => vector <$> items? items
  | some ("Matrix", rows) => (matrix ∘ List.toArray) <$> rows.list? items?
  | _ => none

end Value

def Declaration.toJson (declaration : Declaration) : Json :=
  .object [("name", .string declaration.name), ("description", .string declaration.description),
    ("shape", declaration.shape.toJson)]

def Declaration.ofJson? (json : Json) : Option Declaration := do
  let name ← (← json.field? "name").string?
  let description ← (← json.field? "description").string?
  let shape ← Shape.ofJson? (← json.field? "shape")
  return ⟨name, description, shape⟩

def SymbolInfo.toJson (info : SymbolInfo) : Json :=
  .object [("name", .string info.name), ("description", .string info.description),
    ("is_vector", .bool info.isVector), ("is_matrix", .bool info.isMatrix)]

def SymbolInfo.ofJson? (json : Json) : Option SymbolInfo := do
  let name ← (← json.field? "name").string?
  let description ← (← json.field? "description").string?
  let isVector ← (← json.field? "is_vector").bool?
  let isMatrix ← (← json.field? "is_matrix").bool?
  return ⟨name, description, isVector, isMatrix⟩

def Row.toJson (row : Row) : Json :=
  .object [("name", .string row.name), ("shape", row.shape.toJson),
    ("value", (row.value?.map Json.string).getD .null), ("description", .string row.description)]

def Row.ofJson? (json : Json) : Option Row := do
  let name ← (← json.field? "name").string?
  let shape ← Shape.ofJson? (← json.field? "shape")
  let value? ← json.maybe? "value" string?
  let description ← (← json.field? "description").string?
  return ⟨name, shape, value?, description⟩

end RuleLang

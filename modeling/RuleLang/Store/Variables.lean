/-!
The variables of a run: a table from names to vectors of integers. A variable with one element
also serves as a single number. The table is kept in ascending order of names, so that equal
tables are listed alike.
-/
namespace RuleLang

abbrev Variables := List (String × Array Int32)

namespace Variables

def find? : Variables → String → Option (Array Int32)
  | [], _ => none
  | (x, items) :: others, name => if x = name then some items else find? others name

/-- Changes the elements of a variable; one that is not there begins with none. -/
def update (name : String) (change : Array Int32 → Array Int32) : Variables → Variables
  | [] => [(name, change #[])]
  | (x, items) :: others =>
    if name < x then (name, change #[]) :: (x, items) :: others
    else if x = name then (x, change items) :: others
    else (x, items) :: update name change others

end Variables
end RuleLang

import RuleLang.Text.Blank

/-!
Line comments. A comment begins at the first `//` of a line and ends with the line; there is
no way to write the two slashes otherwise. A line ends at a line feed, and a carriage return
just before the line feed belongs to the line end. A final line end does not begin a new line.
-/
namespace RuleLang.Text

/-- Drops the carriage return of a line end; the line is given backwards. -/
def dropReturn : Text → Text
  | '\r' :: line => line
  | line => line

/-- The lines of a text, of which `begun` (backwards) has already been read. -/
def linesFrom (begun : Text) : Text → List Text
  | [] => if begun.isEmpty then [] else [begun.reverse]
  | '\n' :: rest => (dropReturn begun).reverse :: linesFrom [] rest
  | c :: rest => linesFrom (c :: begun) rest

def lines (text : Text) : List Text := linesFrom [] text

def beforeComment : Text → Text
  | [] => []
  | '/' :: '/' :: _ => []
  | c :: rest => c :: beforeComment rest

def stripComments (text : Text) : Text :=
  ['\n'].intercalate (text.lines.map beforeComment)

end RuleLang.Text

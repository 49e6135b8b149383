import RuleLang.Text.Blank

/-!
A text enclosed in one pair of brackets. Only the two characters of the pair count; all others,
other brackets included, are plain text.
-/
namespace RuleLang.Text

/-- Reads on to the bracket that closes `depth + 1` open ones. Gives the text before it, which
begins with `seen` (backwards), and the text after it. -/
def toClosing (opening closing : Char) (depth : Nat) (seen : Text) : Text → Option (Text × Text)
  | [] => none
  | c :: rest =>
    if c = opening then toClosing opening closing (depth + 1) (c :: seen) rest
    else if c = closing then
      match depth with
      | 0 => some (seen.reverse, rest)
      | depth + 1 => toClosing opening closing depth (c :: seen) rest
    else toClosing opening closing depth (c :: seen) rest

/-- The inside of the bracket pair that a text begins with, and what follows the pair. -/
def enclosed? (opening closing : Char) : Text → Option (Text × Text)
  | [] => none
  | c :: rest => if c = opening then toClosing opening closing 0 [] rest else none

end RuleLang.Text

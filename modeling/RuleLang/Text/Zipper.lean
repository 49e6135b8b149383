import RuleLang.Text.Bracket
import RuleLang.Token.Operator
import RuleLang.Token.Word

/-!
A place in a text: the characters read so far, backwards, and those still to come. Places are
counted in bytes of the UTF-8 encoding. Every move goes forward over whole characters, so a
place is never inside a character.
-/
namespace RuleLang

namespace Text

/-- The length of the UTF-8 encoding. -/
def byteSize : Text → Nat
  | [] => 0
  | c :: text => c.utf8Size + byteSize text

/-- What is left after a number of bytes, if these are whole characters of the text. -/
def dropBytes? : Nat → Text → Option Text
  | 0, text => some text
  | _ + 1, [] => none
  | bytes + 1, c :: text =>
    if c.utf8Size ≤ bytes + 1 then dropBytes? (bytes + 1 - c.utf8Size) text else none

end Text

structure Zipper where
  before : Text
  rest : Text

namespace Zipper

def ofText (text : Text) : Zipper := ⟨[], text⟩

def source (zipper : Zipper) : Text := zipper.before.reverse ++ zipper.rest

def offset (zipper : Zipper) : Nat := zipper.before.byteSize

def atEnd (zipper : Zipper) : Bool := zipper.rest.isEmpty

/-- What has been read since an earlier place. -/
def since? (zipper : Zipper) (start : Nat) : Option Text :=
  Text.dropBytes? start zipper.before.reverse

def peek? (zipper : Zipper) : Option Char := zipper.rest.head?

/-- Moves over a number of characters, or to the end. -/
def advanceBy : Nat → Zipper → Zipper
  | 0, zipper => zipper
  | _ + 1, ⟨before, []⟩ => ⟨before, []⟩
  | n + 1, ⟨before, c :: rest⟩ => advanceBy n ⟨c :: before, rest⟩

def advance (zipper : Zipper) : Option Char × Zipper := (zipper.peek?, zipper.advanceBy 1)

def advanceWhile (holds : Char → Bool) (zipper : Zipper) : Zipper :=
  zipper.advanceBy (zipper.rest.takeWhile holds).length

def skipBlanks (zipper : Zipper) : Zipper := zipper.advanceWhile isBlankChar

/-- Reads a word, and moves over it even if it is no word of the language. -/
def readWord (zipper : Zipper) : Except Fault (Option Word) × Zipper :=
  (Word.atStart? zipper.rest, zipper.advanceWhile inWord)

/-- Reads a pair of brackets with its inside. If the pair is not closed, moves to the end. -/
def readEnclosed (opening closing : Char) (zipper : Zipper) : Except Fault Text × Zipper :=
  match zipper.rest.enclosed? opening closing with
  | some (inside, _) => (.ok inside, zipper.advanceBy (inside.length + 2))
  | none =>
    (.error (.syntactic ⟨.unbalanced, [[opening], zipper.rest]⟩),
      if zipper.peek? = some opening then zipper.advanceBy zipper.rest.length else zipper)

def peekOperator? (zipper : Zipper) : Option Operator :=
  (Operator.atStart? zipper.rest).map Prod.fst

/-- Moves over an operator if it is the given one, and tells whether it is. -/
def takeOperator (op : Operator) (zipper : Zipper) : Bool × Zipper :=
  match Operator.atStart? zipper.rest with
  | some (found, n) => if found = op then (true, zipper.advanceBy n) else (false, zipper)
  | none => (false, zipper)

end Zipper
end RuleLang

import RuleLang.Fault

/-!
Dividing a text into pieces at the separators that stand outside all brackets. Brackets have
to be properly nested over the whole text. A block's statements, a call's arguments and the
clauses of a loop header are the pieces of three such divisions.
-/
namespace RuleLang

structure Division where
  separator : Char
  brackets : List (Char × Char)
  /-- Whether a piece also ends after a closing brace outside all other brackets. -/
  endsAtBrace : Bool
  keepsBlank : Bool

namespace Division

def statements : Division := ⟨';', [('(', ')'), ('[', ']'), ('{', '}')], true, false⟩

def arguments : Division := ⟨',', [('(', ')'), ('[', ']')], false, true⟩

def clauses : Division := ⟨';', [('(', ')'), ('[', ']')], false, true⟩

def closing? (division : Division) (c : Char) : Option Char :=
  (division.brackets.find? fun pair => pair.1 == c).map Prod.snd

def isClosing (division : Division) (c : Char) : Bool :=
  division.brackets.any fun pair => pair.2 == c

/-- Puts a piece (backwards) before the others, unless it is blank and blanks are dropped. -/
def put (division : Division) (piece : Text) (others : List Text) : List Text :=
  if division.keepsBlank || !piece.isBlank then Text.trim piece.reverse :: others else others

/-- The pieces of what is left of `whole`, inside the bracket pairs `pairs` (innermost first)
and after the part `piece` (backwards) of the first piece. -/
def piecesFrom (division : Division) (whole : Text) (pairs : List (Char × Char))
    (piece : Text) : Text → Except Fault (List Text)
  | [] =>
    match pairs.getLast? with
    | some pair => .error (.syntactic ⟨.unbalanced, [[pair.1], whole.trim]⟩)
    | none => .ok (division.put piece [])
  | c :: rest =>
    match division.closing? c with
    | some closing => piecesFrom division whole ((c, closing) :: pairs) (c :: piece) rest
    | none =>
      if division.isClosing c then
        match pairs with
        | [] => .error (.syntactic ⟨.unbalanced, [[c], whole.trim]⟩)
        | pair :: outer =>
          if pair.2 ≠ c then .error (.syntactic ⟨.unbalanced, [[c], whole.trim]⟩)
          else if division.endsAtBrace && c == '}' && outer.isEmpty then
            division.put (c :: piece) <$> piecesFrom division whole [] [] rest
          else piecesFrom division whole outer (c :: piece) rest
      else if c == division.separator && pairs.isEmpty then
        division.put piece <$> piecesFrom division whole [] [] rest
      else piecesFrom division whole pairs (c :: piece) rest

/-- The pieces of a text, trimmed; a blank text has none. -/
def pieces (division : Division) (text : Text) : Except Fault (List Text) :=
  if text.isBlank then .ok [] else division.piecesFrom text [] [] text

end Division
end RuleLang

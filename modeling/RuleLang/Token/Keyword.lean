import RuleLang.Text.Blank

/-!
Words: maximal runs of ASCII letters, digits and underscores. Six of them are keywords, which
begin a statement and stand nowhere else.
-/
namespace RuleLang

/-- Whether a character can be part of a word. -/
def inWord (c : Char) : Bool := c.isAlphanum || c == '_'

namespace Text

def firstWord (text : Text) : Text := text.takeWhile inWord

def afterWord (text : Text) : Text := text.dropWhile inWord

end Text

inductive Keyword
  | ifWord
  | elseWord
  | whileWord
  | forWord
  | breakWord
  | returnWord
  deriving DecidableEq

namespace Keyword

def all : List Keyword := [ifWord, elseWord, whileWord, forWord, breakWord, returnWord]

def spelling : Keyword → Text
  | ifWord => ['i', 'f']
  | elseWord => ['e', 'l', 's', 'e']
  | whileWord => ['w', 'h', 'i', 'l', 'e']
  | forWord => ['f', 'o', 'r']
  | breakWord => ['b', 'r', 'e', 'a', 'k']
  | returnWord => ['r', 'e', 't', 'u', 'r', 'n']

def ofWord? (word : Text) : Option Keyword := all.find? fun keyword => keyword.spelling == word

/-- The keyword that a text begins with, blanks aside, and the text after it. -/
def atStart? (text : Text) : Option (Keyword × Text) :=
  (ofWord? text.trimStart.firstWord).map fun keyword => (keyword, text.trimStart.afterWord)

end Keyword
end RuleLang

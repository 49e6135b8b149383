/-!
Texts as lists of characters, and the blanks that layout may put between their parts.
A blank is a character with the Unicode property White_Space. Trimming removes the
blanks at the two ends of a text and nothing else.
-/
namespace RuleLang

abbrev Text := List Char

namespace Text

/-- The code points with the property White_Space, as closed ranges. -/
def blankRanges : List (Nat × Nat) :=
  [(0x9, 0xD), (0x20, 0x20), (0x85, 0x85), (0xA0, 0xA0), (0x1680, 0x1680), (0x2000, 0x200A),
   (0x2028, 0x2029), (0x202F, 0x202F), (0x205F, 0x205F), (0x3000, 0x3000)]

end Text

def isBlankChar (c : Char) : Bool :=
  Text.blankRanges.any fun range => range.1 ≤ c.toNat && c.toNat ≤ range.2

namespace Text

def isBlank (text : Text) : Bool := text.all isBlankChar

def trimStart (text : Text) : Text := text.dropWhile isBlankChar

def trimEnd (text : Text) : Text := (text.reverse.dropWhile isBlankChar).reverse

def trim (text : Text) : Text := text.trimStart.trimEnd

/-- What stands between the start of `start` and the start of its ending `rest`, trimmed. -/
def upTo (start rest : Text) : Text := trim (start.take (start.length - rest.length))

end Text
end RuleLang

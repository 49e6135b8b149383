import RuleLang.Text.Zipper

/-!
A place in a text as a number of bytes. The text stays whole, and what is read at the place is cut
out of its UTF-8 encoding. A cut has to go between two characters: inside of one it gives nothing,
and then the move that needs it fails. The moves are those of a zipper, step by step, and each step
looks at the text again.
-/
namespace RuleLang

namespace Text

/-- What stands before a number of bytes, if these are whole characters of the text. -/
def takeBytes? : Nat → Text → Option Text
  | 0, _ => some []
  | _ + 1, [] => none
  | bytes + 1, c :: text =>
    if c.utf8Size ≤ bytes + 1 then (takeBytes? (bytes + 1 - c.utf8Size) text).map (c :: ·)
    else none

/-- What stands between two places, each a number of bytes from the start of the text. -/
def slice? (start stop : Nat) (text : Text) : Option Text :=
  (takeBytes? stop text).bind (dropBytes? start)

theorem byteSize_append (front back : Text) :
    byteSize (front ++ back) = byteSize front + byteSize back := by
  induction front with
  | nil => exact (Nat.zero_add _).symm
  | cons c front ih =>
    rw [List.cons_append, byteSize, byteSize, ih, Nat.add_assoc]

theorem byteSize_reverse (text : Text) : byteSize text.reverse = byteSize text := by
  induction text with
  | nil => rfl
  | cons c text ih =>
    rw [List.reverse_cons, byteSize_append, ih, byteSize, byteSize, byteSize]
    omega

/-- The bytes of a first character are counted off before those of the rest. -/
theorem exists_bytes_succ (c : Char) (bytes : Nat) :
    ∃ n, c.utf8Size + bytes = n + 1 ∧ c.utf8Size ≤ n + 1 ∧ n + 1 - c.utf8Size = bytes := by
  have hpos := c.utf8Size_pos
  exact ⟨c.utf8Size + bytes - 1, by omega, by omega, by omega⟩

theorem dropBytes?_cons (c : Char) (bytes : Nat) (text : Text) :
    dropBytes? (c.utf8Size + bytes) (c :: text) = dropBytes? bytes text := by
  obtain ⟨n, hsucc, hle, hrest⟩ := exists_bytes_succ c bytes
  rw [hsucc, dropBytes?, if_pos hle, hrest]

theorem takeBytes?_cons (c : Char) (bytes : Nat) (text : Text) :
    takeBytes? (c.utf8Size + bytes) (c :: text) = (takeBytes? bytes text).map (c :: ·) := by
  obtain ⟨n, hsucc, hle, hrest⟩ := exists_bytes_succ c bytes
  rw [hsucc, takeBytes?, if_pos hle, hrest]

theorem dropBytes?_append (front rest : Text) :
    dropBytes? (byteSize front) (front ++ rest) = some rest := by
  induction front with
  | nil => rw [byteSize, List.nil_append, dropBytes?]
  | cons c front ih => rw [byteSize, List.cons_append, dropBytes?_cons, ih]

theorem takeBytes?_append (front rest : Text) :
    takeBytes? (byteSize front) (front ++ rest) = some front := by
  induction front with
  | nil => rw [byteSize, takeBytes?]
  | cons c front ih => rw [byteSize, List.cons_append, takeBytes?_cons, ih, Option.map_some]

/-- A text can be cut after just the counts of bytes that some of its first characters have. -/
theorem dropBytes?_eq_some_iff {bytes : Nat} {text rest : Text} :
    dropBytes? bytes text = some rest ↔ ∃ front, text = front ++ rest ∧ byteSize front = bytes := by
  constructor
  · intro h
    fun_induction dropBytes? bytes text with
    | case1 text => exact ⟨[], Option.some.inj h, rfl⟩
    | case2 bytes => cases h
    | case3 bytes c text hle ih =>
      obtain ⟨front, rfl, hfront⟩ := ih h
      refine ⟨c :: front, rfl, ?_⟩
      rw [byteSize]
      omega
    | case4 bytes c text hlt => cases h
  · rintro ⟨front, rfl, rfl⟩
    exact dropBytes?_append front rest

theorem byteSize_dropBytes? {bytes : Nat} {text rest : Text}
    (h : dropBytes? bytes text = some rest) : bytes + byteSize rest = byteSize text := by
  obtain ⟨front, rfl, rfl⟩ := dropBytes?_eq_some_iff.mp h
  exact (byteSize_append front rest).symm

end Text

structure BytePlace where
  source : Text
  byte : Nat

namespace BytePlace

def ofText (text : Text) : BytePlace := ⟨text, 0⟩

def atEnd (place : BytePlace) : Bool := place.source.byteSize ≤ place.byte

def rest? (place : BytePlace) : Option Text := place.source.dropBytes? place.byte

/-- What has been read since an earlier place. -/
def since? (place : BytePlace) (start : Nat) : Option Text :=
  place.source.slice? start place.byte

def peek? (place : BytePlace) : Option (Option Char) := place.rest?.map List.head?

/-- The place behind a character that stands at the place. -/
def past (place : BytePlace) (c : Char) : BytePlace := { place with byte := place.byte + c.utf8Size }

theorem byte_past_le {place : BytePlace} {c : Char} (h : place.peek? = some (some c)) :
    (place.past c).byte ≤ place.source.byteSize := by
  obtain ⟨rest, hrest, hhead⟩ := Option.map_eq_some_iff.mp h
  obtain ⟨text, rfl⟩ := List.head?_eq_some_iff.mp hhead
  have hsize := Text.byteSize_dropBytes? hrest
  rw [Text.byteSize] at hsize
  show place.byte + c.utf8Size ≤ place.source.byteSize
  omega

/-- Behind a character less of the text is left, so a loop over characters ends. -/
theorem left_past_lt {place : BytePlace} {c : Char} (h : place.peek? = some (some c)) :
    (place.past c).source.byteSize - (place.past c).byte < place.source.byteSize - place.byte := by
  have hle := byte_past_le h
  have hpos := c.utf8Size_pos
  have hbyte : (place.past c).byte = place.byte + c.utf8Size := rfl
  have hsource : (place.past c).source = place.source := rfl
  rw [hsource]
  omega

def advance (place : BytePlace) : Option (Option Char × BytePlace) := do
  match ← place.peek? with
  | none => return (none, place)
  | some c => return (some c, place.past c)

/-- Moves over a number of characters, or to the end. -/
def advanceBy : Nat → BytePlace → Option BytePlace
  | 0, place => some place
  | n + 1, place => do
    match ← place.advance with
    | (none, place) => return place
    | (some _, place) => advanceBy n place

def advanceWhile (holds : Char → Bool) (place : BytePlace) : Option BytePlace :=
  match _hpeek : place.peek? with
  | none => none
  | some none => some place
  | some (some c) => if holds c then advanceWhile holds (place.past c) else some place
termination_by place.source.byteSize - place.byte
decreasing_by exact left_past_lt _hpeek

theorem advanceWhile_end {holds : Char → Bool} {place : BytePlace}
    (h : place.peek? = some none) : place.advanceWhile holds = some place := by
  rw [advanceWhile]
  split <;> simp_all

theorem advanceWhile_char {holds : Char → Bool} {place : BytePlace} {c : Char}
    (h : place.peek? = some (some c)) :
    place.advanceWhile holds =
      if holds c then (place.past c).advanceWhile holds else some place := by
  rw [advanceWhile]
  split <;> simp_all

def skipBlanks (place : BytePlace) : Option BytePlace := place.advanceWhile isBlankChar

def readWord (place : BytePlace) : Option (Except Fault (Option Word) × BytePlace) := do
  let later ← place.advanceWhile inWord
  let letters ← later.since? place.byte
  return (Word.ofLetters? letters, later)

/-- Moves to the bracket that closes `depth + 1` open ones, or to the end; tells whether there is
such a bracket. -/
def toClosing (opening closing : Char) (depth : Nat) (place : BytePlace) :
    Option (Bool × BytePlace) :=
  match _hpeek : place.peek? with
  | none => none
  | some none => some (false, place)
  | some (some c) =>
    if c = opening then toClosing opening closing (depth + 1) (place.past c)
    else if c = closing then
      match depth with
      | 0 => some (true, place)
      | depth + 1 => toClosing opening closing depth (place.past c)
    else toClosing opening closing depth (place.past c)
termination_by place.source.byteSize - place.byte
decreasing_by all_goals exact left_past_lt _hpeek

theorem toClosing_end {opening closing : Char} {depth : Nat} {place : BytePlace}
    (h : place.peek? = some none) :
    place.toClosing opening closing depth = some (false, place) := by
  rw [toClosing]
  split <;> simp_all

theorem toClosing_char {opening closing c : Char} {depth : Nat} {place : BytePlace}
    (h : place.peek? = some (some c)) :
    place.toClosing opening closing depth =
      if c = opening then (place.past c).toClosing opening closing (depth + 1)
      else if c = closing then
        match depth with
        | 0 => some (true, place)
        | depth + 1 => (place.past c).toClosing opening closing depth
      else (place.past c).toClosing opening closing depth := by
  rw [toClosing]
  split <;> simp_all

/-- Reads a pair of brackets with its inside. If the pair is not closed, moves to the end. -/
def readEnclosed (opening closing : Char) (place : BytePlace) :
    Option (Except Fault Text × BytePlace) := do
  let rest ← place.rest?
  if rest.head? = some opening then
    let (_, inner) ← place.advance
    match ← inner.toClosing opening closing 0 with
    | (true, last) =>
      let inside ← last.since? inner.byte
      let (_, later) ← last.advance
      return (.ok inside, later)
    | (false, last) => return (.error (.syntactic ⟨.unbalanced, [[opening], rest]⟩), last)
  else return (.error (.syntactic ⟨.unbalanced, [[opening], rest]⟩), place)

def peekOperator? (place : BytePlace) : Option (Option Operator) :=
  place.rest?.map fun rest => (Operator.atStart? rest).map Prod.fst

/-- Moves over an operator if it is the given one, and tells whether it is. The length of the
operator is in bytes, the move over it goes by characters. -/
def takeOperator (op : Operator) (place : BytePlace) : Option (Bool × BytePlace) := do
  let rest ← place.rest?
  match Operator.atStart? rest with
  | some (found, bytes) =>
    if found = op then
      let spelled ← rest.takeBytes? bytes
      return (true, ← place.advanceBy spelled.length)
    else return (false, place)
  | none => return (false, place)

end BytePlace
end RuleLang

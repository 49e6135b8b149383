import RuleLang.Proofs.BytePlaces

/-!
Walks through a text. A walk is any sequence of moves, also of such as fail. Every move goes over
some characters of what is still to come, or over none, and so does a walk; from this it is known
what can be read between any two of its places. The same walk on a number of bytes makes no cut
inside of a character, and gives the same answers.
-/
namespace RuleLang

/-- What can be asked for at a place. -/
inductive Move
  | advance
  | advanceBy (n : Nat)
  | advanceWhile (holds : Char → Bool)
  | skipBlanks
  | readWord
  | readEnclosed (opening closing : Char)
  | peekOperator
  | takeOperator (op : Operator)

/-- What a move gives, apart from the place that it leaves. -/
inductive Answer
  | nothing
  | char (c : Option Char)
  | word (result : Except Fault (Option Word))
  | inside (result : Except Fault Text)
  | operator (op : Option Operator)
  | taken (whether : Bool)

namespace Zipper

def step : Move → Zipper → Answer × Zipper
  | .advance, zipper => (.char zipper.advance.1, zipper.advance.2)
  | .advanceBy n, zipper => (.nothing, zipper.advanceBy n)
  | .advanceWhile holds, zipper => (.nothing, zipper.advanceWhile holds)
  | .skipBlanks, zipper => (.nothing, zipper.skipBlanks)
  | .readWord, zipper => (.word zipper.readWord.1, zipper.readWord.2)
  | .readEnclosed opening closing, zipper =>
    (.inside (zipper.readEnclosed opening closing).1, (zipper.readEnclosed opening closing).2)
  | .peekOperator, zipper => (.operator zipper.peekOperator?, zipper)
  | .takeOperator op, zipper => (.taken (zipper.takeOperator op).1, (zipper.takeOperator op).2)

/-- The answers to some moves, one after the other, and the last place. -/
def walk : List Move → Zipper → List Answer × Zipper
  | [], zipper => ([], zipper)
  | move :: moves, zipper =>
    let (answer, next) := zipper.step move
    let (answers, last) := next.walk moves
    (answer :: answers, last)

end Zipper

namespace BytePlace

def step? : Move → BytePlace → Option (Answer × BytePlace)
  | .advance, place => place.advance.map fun (c, later) => (.char c, later)
  | .advanceBy n, place => (place.advanceBy n).map fun later => (.nothing, later)
  | .advanceWhile holds, place => (place.advanceWhile holds).map fun later => (.nothing, later)
  | .skipBlanks, place => place.skipBlanks.map fun later => (.nothing, later)
  | .readWord, place => place.readWord.map fun (result, later) => (.word result, later)
  | .readEnclosed opening closing, place =>
    (place.readEnclosed opening closing).map fun (result, later) => (.inside result, later)
  | .peekOperator, place => place.peekOperator?.map fun op => (.operator op, place)
  | .takeOperator op, place =>
    (place.takeOperator op).map fun (whether, later) => (.taken whether, later)

def walk? : List Move → BytePlace → Option (List Answer × BytePlace)
  | [], place => some ([], place)
  | move :: moves, place => do
    let (answer, next) ← place.step? move
    let (answers, last) ← next.walk? moves
    return (answer :: answers, last)

/-- All that can be seen at a place is seen at its number of bytes. -/
structure Shows (place : BytePlace) (zipper : Zipper) : Prop where
  source_eq : place.source = zipper.source
  byte_eq : place.byte = zipper.offset
  rest_eq : place.rest? = some zipper.rest
  peek_eq : place.peek? = some zipper.peek?
  since_eq : ∀ start, place.since? start = zipper.since? start
  atEnd_eq : place.atEnd = zipper.atEnd
  operator_eq : place.peekOperator? = some zipper.peekOperator?

end BytePlace

namespace Zipper

variable {zipper later last : Zipper} {read more : Text}

theorem shows_inBytes (zipper : Zipper) : zipper.inBytes.Shows zipper where
  source_eq := rfl
  byte_eq := rfl
  rest_eq := zipper.rest?_inBytes
  peek_eq := zipper.peek?_inBytes
  since_eq := zipper.since?_inBytes
  atEnd_eq := zipper.atEnd_inBytes
  operator_eq := zipper.peekOperator?_inBytes

theorem step?_inBytes (move : Move) (zipper : Zipper) :
    zipper.inBytes.step? move = some ((zipper.step move).1, (zipper.step move).2.inBytes) := by
  cases move with
  | advance =>
    rw [BytePlace.step?, advance_inBytes]
    rfl
  | advanceBy n =>
    rw [BytePlace.step?, advanceBy_inBytes]
    rfl
  | advanceWhile holds =>
    rw [BytePlace.step?, advanceWhile_inBytes]
    rfl
  | skipBlanks =>
    rw [BytePlace.step?, BytePlace.skipBlanks, advanceWhile_inBytes]
    rfl
  | readWord =>
    rw [BytePlace.step?, readWord_inBytes]
    rfl
  | readEnclosed opening closing =>
    rw [BytePlace.step?, readEnclosed_inBytes]
    rfl
  | peekOperator =>
    rw [BytePlace.step?, peekOperator?_inBytes]
    rfl
  | takeOperator op =>
    rw [BytePlace.step?, takeOperator_inBytes]
    rfl

theorem walk?_inBytes (moves : List Move) (zipper : Zipper) :
    zipper.inBytes.walk? moves = some ((zipper.walk moves).1, (zipper.walk moves).2.inBytes) := by
  induction moves generalizing zipper with
  | nil => rfl
  | cons move moves ih =>
    simp only [BytePlace.walk?, step?_inBytes, ih, Option.bind_eq_bind, Option.bind_some]
    rfl

theorem walk_append (earlier later : List Move) (zipper : Zipper) :
    zipper.walk (earlier ++ later) =
      ((zipper.walk earlier).1 ++ ((zipper.walk earlier).2.walk later).1,
        ((zipper.walk earlier).2.walk later).2) := by
  induction earlier generalizing zipper with
  | nil => rfl
  | cons move earlier ih =>
    simp only [List.cons_append, walk, ih]

/-- A later place is reached by going over a text. -/
structure GoesOver (zipper : Zipper) (read : Text) (later : Zipper) : Prop where
  rest_eq : zipper.rest = read ++ later.rest
  before_eq : later.before = read.reverse ++ zipper.before

theorem goesOver_nil (zipper : Zipper) : zipper.GoesOver [] zipper := ⟨rfl, rfl⟩

theorem GoesOver.append (h : zipper.GoesOver read later) (h' : later.GoesOver more last) :
    zipper.GoesOver (read ++ more) last := by
  refine ⟨?_, ?_⟩
  · rw [h.rest_eq, h'.rest_eq, List.append_assoc]
  · rw [h'.before_eq, h.before_eq, List.reverse_append, List.append_assoc]

theorem GoesOver.source_eq (h : zipper.GoesOver read later) : later.source = zipper.source := by
  rw [source, source, h.before_eq, h.rest_eq]
  simp

theorem GoesOver.offset_eq (h : zipper.GoesOver read later) :
    later.offset = zipper.offset + Text.byteSize read := by
  rw [offset, offset, h.before_eq, Text.byteSize_append, Text.byteSize_reverse, Nat.add_comm]

theorem GoesOver.since?_eq (h : zipper.GoesOver read later) :
    later.since? zipper.offset = some read := by
  have hsince := since?_append zipper.before read later.rest
  rwa [← h.before_eq] at hsince

theorem goesOver_advanceBy (n : Nat) (zipper : Zipper) :
    ∃ read, zipper.GoesOver read (zipper.advanceBy n) := by
  induction n generalizing zipper with
  | zero => exact ⟨[], goesOver_nil zipper⟩
  | succ n ih =>
    obtain ⟨before, rest⟩ := zipper
    cases rest with
    | nil => exact ⟨[], goesOver_nil _⟩
    | cons c rest =>
      obtain ⟨read, hread⟩ := ih ⟨c :: before, rest⟩
      have hc : GoesOver ⟨before, c :: rest⟩ [c] ⟨c :: before, rest⟩ := ⟨rfl, rfl⟩
      exact ⟨[c] ++ read, hc.append hread⟩

theorem goesOver_readEnclosed (opening closing : Char) (zipper : Zipper) :
    ∃ read, zipper.GoesOver read (zipper.readEnclosed opening closing).2 := by
  unfold readEnclosed
  split
  · exact goesOver_advanceBy _ zipper
  · dsimp only
    split
    · exact goesOver_advanceBy _ zipper
    · exact ⟨[], goesOver_nil zipper⟩

theorem goesOver_takeOperator (op : Operator) (zipper : Zipper) :
    ∃ read, zipper.GoesOver read (zipper.takeOperator op).2 := by
  unfold takeOperator
  split
  · split
    · exact goesOver_advanceBy _ zipper
    · exact ⟨[], goesOver_nil zipper⟩
  · exact ⟨[], goesOver_nil zipper⟩

/-- A move goes over characters or leaves the place. -/
theorem goesOver_step (move : Move) (zipper : Zipper) :
    ∃ read, zipper.GoesOver read (zipper.step move).2 := by
  cases move with
  | advance => exact goesOver_advanceBy 1 zipper
  | advanceBy n => exact goesOver_advanceBy n zipper
  | advanceWhile holds => exact goesOver_advanceBy _ zipper
  | skipBlanks => exact goesOver_advanceBy _ zipper
  | readWord => exact goesOver_advanceBy _ zipper
  | readEnclosed opening closing => exact goesOver_readEnclosed opening closing zipper
  | peekOperator => exact ⟨[], goesOver_nil zipper⟩
  | takeOperator op => exact goesOver_takeOperator op zipper

theorem goesOver_walk (moves : List Move) (zipper : Zipper) :
    ∃ read, zipper.GoesOver read (zipper.walk moves).2 := by
  induction moves generalizing zipper with
  | nil => exact ⟨[], goesOver_nil zipper⟩
  | cons move moves ih =>
    obtain ⟨read, hread⟩ := goesOver_step move zipper
    obtain ⟨more, hmore⟩ := ih (zipper.step move).2
    exact ⟨read ++ more, hread.append hmore⟩

/-- A place between two characters of a text, or at one of its ends. -/
structure StandsIn (zipper : Zipper) (text : Text) : Prop where
  offset_le : zipper.offset ≤ Text.byteSize text
  isValid : (String.Pos.Raw.mk zipper.offset).IsValid (String.ofList text)
  since_start : ∃ front, zipper.since? 0 = some front ∧ front ++ zipper.rest = text
  atEnd_iff : zipper.atEnd ↔ zipper.peek? = none

theorem standsIn_source (zipper : Zipper) : zipper.StandsIn zipper.source where
  offset_le := by
    rw [byteSize_source]
    exact Nat.le_add_right _ _
  isValid := by
    rw [← Text.isSome_dropBytes?_iff]
    exact Option.isSome_iff_exists.mpr ⟨_, zipper.rest?_inBytes⟩
  since_start := by
    refine ⟨zipper.before.reverse, ?_, rfl⟩
    rw [since?, Text.dropBytes?]
  atEnd_iff := by
    rw [atEnd, peek?, List.isEmpty_iff, List.head?_eq_none_iff]

/-- An operator is gone over just if the rest begins with it, and then as far as it is spelled. -/
structure Takes (zipper : Zipper) (op : Operator) : Prop where
  of_peek : zipper.peekOperator? = some op → ∃ spelled later,
    zipper.takeOperator op = (true, later) ∧ op.Spells spelled ∧
      Operator.atStart? zipper.rest = some (op, Text.byteSize spelled) ∧
      zipper.GoesOver spelled later ∧ later.offset = zipper.offset + Text.byteSize spelled
  of_not_peek : zipper.peekOperator? ≠ some op → zipper.takeOperator op = (false, zipper)

theorem takes_operator (zipper : Zipper) (op : Operator) : zipper.Takes op where
  of_peek hpeek := by
    obtain ⟨⟨found, k⟩, hstart, rfl⟩ := Option.map_eq_some_iff.mp hpeek
    obtain ⟨spelled, rest, hrest, hspells, rfl⟩ := Operator.exists_spelled hstart
    have hmove := advanceBy_append zipper.before spelled rest
    rw [← hrest] at hmove
    have hover : zipper.GoesOver spelled ⟨spelled.reverse ++ zipper.before, rest⟩ := ⟨hrest, rfl⟩
    refine ⟨spelled, _, ?_, hspells, ?_, hover, hover.offset_eq⟩
    · rw [takeOperator, hstart, ← hmove]
      exact if_pos rfl
    · rw [hstart, hspells.byteSize_eq]
  of_not_peek hpeek := by
    unfold takeOperator
    split
    case h_1 found k hstart =>
      refine if_neg fun hfound => hpeek ?_
      rw [peekOperator?, hstart, Option.map_some, hfound]
    case h_2 => rfl

/-- However a text is walked through, every place lies between two characters of it: what stands
before and after the place is the text, and what has been read since any earlier place is known.
An operator is looked at without a move, and taken with just the move over it. On the number of
bytes the walk makes no cut inside of a character, sees the same and has the same answers. -/
theorem walk_between_chars (text : Text) (earlier moves : List Move) :
    let start := ((ofText text).walk earlier).2
    let place := (start.walk moves).2
    (BytePlace.ofText text).walk? (earlier ++ moves) =
        some (((ofText text).walk (earlier ++ moves)).1, place.inBytes) ∧
      place.inBytes.Shows place ∧ place.StandsIn text ∧ start.offset ≤ place.offset ∧
      (∃ read, place.since? start.offset = some read ∧ start.rest = read ++ place.rest) ∧
      place.step .peekOperator = (.operator place.peekOperator?, place) ∧
      ∀ op, place.Takes op := by
  intro start place
  have hplace : ((ofText text).walk (earlier ++ moves)).2 = place := by
    rw [walk_append]
  obtain ⟨front, hfront⟩ := goesOver_walk (earlier ++ moves) (ofText text)
  obtain ⟨read, hread⟩ := goesOver_walk moves start
  have hsource : place.source = text := by
    rw [← hplace, hfront.source_eq]
    rfl
  have hstands := place.standsIn_source
  rw [hsource] at hstands
  refine ⟨?_, place.shows_inBytes, hstands, ?_, ⟨read, hread.since?_eq, hread.rest_eq⟩, rfl,
    place.takes_operator⟩
  · rw [← inBytes_ofText, walk?_inBytes, hplace]
  · rw [hread.offset_eq]
    exact Nat.le_add_right _ _

/-- The letter with an accent takes two bytes, and the word behind it three. -/
theorem walk_over_word_operator :
    let text : Text := ['é', ' ', 'a', 'n', 'd', '≥', '1']
    let place := (((ofText text).walk [.advance]).2.walk [.takeOperator .or, .skipBlanks]).2
    (String.Pos.Raw.mk 3).IsValid (String.ofList text) ∧ place.since? 2 = some [' '] ∧
      ∃ later, place.takeOperator .and = (true, later) ∧ later.offset = 6 := by
  intro text place
  obtain ⟨-, -, hstands, -, ⟨read, hsince, hread⟩, -, htakes⟩ :=
    walk_between_chars text [.advance] [.takeOperator .or, .skipBlanks]
  obtain ⟨spelled, later, htake, -, hstart, -, hoffset⟩ := (htakes .and).of_peek rfl
  have hspaces : read = [' '] := List.append_cancel_right hread.symm
  obtain ⟨-, hsize⟩ := Prod.mk.inj (Option.some.inj hstart)
  rw [← hsize] at hoffset
  exact ⟨hstands.isValid, hsince.trans (congrArg some hspaces), later, htake, hoffset⟩

end Zipper
end RuleLang

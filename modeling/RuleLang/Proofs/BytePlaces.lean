import RuleLang.Proofs.Enclosed
import RuleLang.Text.BytePlace

/-!
A zipper seen as a number of bytes. Counts of bytes that fall between two characters are those that
the text cut there gives back, and a zipper always stands at such a count. So no cut at its place
fails, and every move on the number of bytes arrives where the zipper arrives, with the same answer.
The moves on bytes are loops that look at one character after the other; each is followed through
the characters that are still to come.
-/
namespace RuleLang

namespace Text

theorem byteSize_eq (text : Text) : byteSize text = (String.ofList text).utf8ByteSize := by
  induction text with
  | nil => rfl
  | cons c text ih =>
    have hcons : String.ofList (c :: text) = String.singleton c ++ String.ofList text := by
      rw [String.singleton_eq_ofList, ← String.ofList_append, List.singleton_append]
    rw [hcons, String.utf8ByteSize_append, String.utf8ByteSize_singleton, ← ih, byteSize]

/-- A text can be cut just at the positions of its encoding that are not inside of a character. -/
theorem isSome_dropBytes?_iff {bytes : Nat} {text : Text} :
    (dropBytes? bytes text).isSome ↔ (String.Pos.Raw.mk bytes).IsValid (String.ofList text) := by
  rw [Option.isSome_iff_exists, String.Pos.Raw.isValid_ofList]
  simp only [dropBytes?_eq_some_iff, ← byteSize_eq]
  constructor
  · rintro ⟨rest, front, rfl, rfl⟩
    refine ⟨front.length, ?_⟩
    rw [List.take_left]
  · rintro ⟨k, hk⟩
    exact ⟨text.drop k, text.take k, (List.take_append_drop k text).symm, hk.symm⟩

example : dropBytes? 1 ['é', 'a'] = none ∧ dropBytes? 2 ['é', 'a'] = some ['a'] := by decide

/-- What stands before the closing bracket, the bracket itself and what follows it are the text. -/
theorem toClosing_eq {opening closing : Char} {depth : Nat} {seen text inside rest : Text}
    (h : toClosing opening closing depth seen text = some (inside, rest)) :
    seen.reverse ++ text = inside ++ closing :: rest := by
  induction text generalizing depth seen with
  | nil => cases h
  | cons c text ih =>
    have hmove : seen.reverse ++ c :: text = (c :: seen).reverse ++ text := by simp
    unfold toClosing at h
    split at h
    · exact hmove.trans (ih h)
    · split at h
      case isTrue hclosing =>
        cases depth with
        | zero =>
          obtain ⟨rfl, rfl⟩ := Prod.mk.inj (Option.some.inj h)
          rw [hclosing]
        | succ depth => exact hmove.trans (ih h)
      · exact hmove.trans (ih h)

end Text

namespace Operator

/-- The ways to write an operator: its symbol, and a word for some. -/
def Spells (op : Operator) (spelled : Text) : Prop :=
  spelled = op.spelling.toList ∨ ofWord? spelled = some op

/-- An operator is written with as many bytes as characters. -/
theorem Spells.byteSize_eq {op : Operator} {spelled : Text} (h : op.Spells spelled) :
    Text.byteSize spelled = spelled.length := by
  rcases h with rfl | hword
  · cases op <;> rfl
  · unfold ofWord? at hword
    split at hword
    · rfl
    · rfl
    · cases hword

theorem exists_spelled {text : Text} {op : Operator} {k : Nat}
    (h : atStart? text = some (op, k)) :
    ∃ spelled rest, text = spelled ++ rest ∧ op.Spells spelled ∧ spelled.length = k := by
  have hcut {spelled : Text} (hfront : spelled <+: text) (hspells : op.Spells spelled)
      (hk : spelled.length = k) :
      ∃ spelled rest, text = spelled ++ rest ∧ op.Spells spelled ∧ spelled.length = k := by
    obtain ⟨rest, rfl⟩ := hfront
    exact ⟨spelled, rest, rfl, hspells, hk⟩
  unfold atStart? at h
  split at h
  case h_18 =>
    obtain ⟨word, hword, hk⟩ := Option.map_eq_some_iff.mp h
    obtain ⟨rfl, rfl⟩ := Prod.mk.inj hk
    exact hcut (List.takeWhile_prefix _) (.inr hword) rfl
  all_goals
    obtain ⟨rfl, rfl⟩ := Prod.mk.inj (Option.some.inj h)
    exact ⟨_, _, rfl, .inl rfl, rfl⟩

end Operator

namespace Zipper

variable {opening closing c : Char} {before rest : Text}

/-- The place of a zipper as a number of bytes. -/
def inBytes (zipper : Zipper) : BytePlace := ⟨zipper.source, zipper.offset⟩

theorem inBytes_ofText (text : Text) : (ofText text).inBytes = BytePlace.ofText text := rfl

theorem byteSize_source (zipper : Zipper) :
    zipper.source.byteSize = zipper.offset + zipper.rest.byteSize := by
  rw [source, Text.byteSize_append, Text.byteSize_reverse, offset]

theorem rest?_inBytes (zipper : Zipper) : zipper.inBytes.rest? = some zipper.rest := by
  rw [BytePlace.rest?, inBytes, offset, ← Text.byteSize_reverse]
  exact Text.dropBytes?_append _ _

theorem peek?_inBytes (zipper : Zipper) : zipper.inBytes.peek? = some zipper.peek? := by
  rw [BytePlace.peek?, rest?_inBytes, Option.map_some, peek?]

theorem since?_inBytes (zipper : Zipper) (start : Nat) :
    zipper.inBytes.since? start = zipper.since? start := by
  have htake := Text.takeBytes?_append zipper.before.reverse zipper.rest
  rw [Text.byteSize_reverse] at htake
  rw [BytePlace.since?, Text.slice?, since?]
  exact congrArg (·.bind (Text.dropBytes? start)) htake

theorem atEnd_inBytes (zipper : Zipper) : zipper.inBytes.atEnd = zipper.atEnd := by
  have hsize := zipper.byteSize_source
  have hend : zipper.inBytes.atEnd = decide (zipper.source.byteSize ≤ zipper.offset) := rfl
  rw [hend, atEnd, hsize]
  cases zipper.rest with
  | nil => exact decide_eq_true (Nat.le_refl _)
  | cons c rest =>
    have hpos := c.utf8Size_pos
    refine decide_eq_false ?_
    rw [Text.byteSize]
    omega

theorem peekOperator?_inBytes (zipper : Zipper) :
    zipper.inBytes.peekOperator? = some zipper.peekOperator? := by
  rw [BytePlace.peekOperator?, rest?_inBytes, Option.map_some, peekOperator?]

theorem past_inBytes (before : Text) (c : Char) (rest : Text) :
    (inBytes ⟨before, c :: rest⟩).past c = inBytes ⟨c :: before, rest⟩ := by
  simp [BytePlace.past, inBytes, source, offset, Text.byteSize, Nat.add_comm]

theorem advance_inBytes (zipper : Zipper) :
    zipper.inBytes.advance = some (zipper.advance.1, zipper.advance.2.inBytes) := by
  obtain ⟨before, rest⟩ := zipper
  rw [BytePlace.advance, peek?_inBytes]
  cases rest with
  | nil => rfl
  | cons c rest => exact congrArg (fun place => some (some c, place)) (past_inBytes before c rest)

theorem advanceBy_inBytes (n : Nat) (zipper : Zipper) :
    zipper.inBytes.advanceBy n = some (zipper.advanceBy n).inBytes := by
  induction n generalizing zipper with
  | zero => rfl
  | succ n ih =>
    obtain ⟨before, rest⟩ := zipper
    rw [BytePlace.advanceBy, advance_inBytes]
    cases rest with
    | nil => rfl
    | cons c rest => exact ih ⟨c :: before, rest⟩

theorem advanceWhile_cons (holds : Char → Bool) :
    advanceWhile holds ⟨before, c :: rest⟩ =
      if holds c then advanceWhile holds ⟨c :: before, rest⟩ else ⟨before, c :: rest⟩ := by
  rw [advanceWhile, List.takeWhile_cons]
  split
  · rfl
  · rfl

theorem advanceWhile_inBytes (holds : Char → Bool) (zipper : Zipper) :
    zipper.inBytes.advanceWhile holds = some (zipper.advanceWhile holds).inBytes := by
  obtain ⟨before, rest⟩ := zipper
  induction rest generalizing before with
  | nil => exact BytePlace.advanceWhile_end (peek?_inBytes _)
  | cons c rest ih =>
    rw [BytePlace.advanceWhile_char (peek?_inBytes _), past_inBytes, ih, advanceWhile_cons]
    split
    · rfl
    · rfl

theorem advanceWhile_eq (holds : Char → Bool) (zipper : Zipper) :
    zipper.advanceWhile holds =
      ⟨(zipper.rest.takeWhile holds).reverse ++ zipper.before, zipper.rest.dropWhile holds⟩ := by
  have hmove := advanceBy_append zipper.before (zipper.rest.takeWhile holds)
    (zipper.rest.dropWhile holds)
  rw [List.takeWhile_append_dropWhile] at hmove
  exact hmove

/-- What has been read since an earlier place is what the text has there. -/
theorem since?_append (before middle rest : Text) :
    since? ⟨middle.reverse ++ before, rest⟩ before.byteSize = some middle := by
  rw [since?, List.reverse_append, List.reverse_reverse, ← Text.byteSize_reverse]
  exact Text.dropBytes?_append _ _

theorem readWord_inBytes (zipper : Zipper) :
    zipper.inBytes.readWord = some (zipper.readWord.1, zipper.readWord.2.inBytes) := by
  have hletters := since?_append zipper.before (zipper.rest.takeWhile inWord)
    (zipper.rest.dropWhile inWord)
  rw [← advanceWhile_eq, ← since?_inBytes] at hletters
  have hstart : zipper.inBytes.byte = zipper.before.byteSize := rfl
  simp only [BytePlace.readWord, advanceWhile_inBytes, Option.bind_eq_bind, Option.bind_some]
  rw [hstart, hletters]
  rfl

theorem toClosing_inBytes (depth : Nat) (seen before rest : Text) :
    (inBytes ⟨seen ++ before, rest⟩).toClosing opening closing depth =
      some (match Text.toClosing opening closing depth seen rest with
        | some (inside, after) => (true, inBytes ⟨inside.reverse ++ before, closing :: after⟩)
        | none => (false, inBytes ⟨rest.reverse ++ (seen ++ before), []⟩)) := by
  induction rest generalizing depth seen with
  | nil => exact BytePlace.toClosing_end (peek?_inBytes _)
  | cons c rest ih =>
    have hnext (depth : Nat) := ih depth (c :: seen)
    rw [List.cons_append] at hnext
    have hlater : rest.reverse ++ (c :: (seen ++ before)) =
      (c :: rest).reverse ++ (seen ++ before) := by simp
    rw [hlater] at hnext
    rw [BytePlace.toClosing_char (peek?_inBytes _), past_inBytes]
    by_cases hopening : c = opening
    · subst hopening
      rw [if_pos rfl, Text.toClosing_opening, hnext]
    · rw [if_neg hopening]
      by_cases hclosing : c = closing
      · subst hclosing
        rw [if_pos rfl]
        cases depth with
        | zero => simp [Text.toClosing, hopening]
        | succ depth => simp [Text.toClosing, hopening, hnext]
      · rw [if_neg hclosing, Text.toClosing_other hopening hclosing, hnext]

theorem readEnclosed_found {inside after : Text}
    (h : Text.toClosing opening closing 0 [] rest = some (inside, after)) :
    readEnclosed opening closing ⟨before, opening :: rest⟩ =
      (.ok inside, ⟨closing :: (inside.reverse ++ opening :: before), after⟩) := by
  have hfound : Text.enclosed? opening closing (opening :: rest) = some (inside, after) :=
    (if_pos rfl).trans h
  have hrest : rest = inside ++ closing :: after := Text.toClosing_eq h
  have hmove := advanceBy_append before (opening :: (inside ++ [closing])) after
  simp only [readEnclosed, hfound]
  rw [hrest]
  simpa using hmove

theorem readEnclosed_not_found (h : Text.toClosing opening closing 0 [] rest = none) :
    readEnclosed opening closing ⟨before, opening :: rest⟩ =
      (.error (.syntactic ⟨.unbalanced, [[opening], opening :: rest]⟩),
        ⟨rest.reverse ++ opening :: before, []⟩) := by
  have hfound : Text.enclosed? opening closing (opening :: rest) = none := (if_pos rfl).trans h
  have hpeek : peek? ⟨before, opening :: rest⟩ = some opening := rfl
  have hmove := advanceBy_append before (opening :: rest) []
  simp only [readEnclosed, hfound, if_pos hpeek]
  simpa using hmove

theorem readEnclosed_inBytes (zipper : Zipper) :
    zipper.inBytes.readEnclosed opening closing =
      some ((zipper.readEnclosed opening closing).1,
        (zipper.readEnclosed opening closing).2.inBytes) := by
  obtain ⟨before, rest⟩ := zipper
  simp only [BytePlace.readEnclosed, rest?_inBytes, Option.bind_eq_bind, Option.bind_some]
  cases rest with
  | nil => rfl
  | cons c rest =>
    by_cases hopening : c = opening
    · subst hopening
      have hinner : (advance ⟨before, c :: rest⟩).2.inBytes = inBytes ⟨c :: before, rest⟩ := rfl
      have hclosing := @toClosing_inBytes c closing 0 [] (c :: before) rest
      rw [List.nil_append] at hclosing
      rw [List.head?_cons, if_pos rfl, advance_inBytes, Option.bind_some, hinner, hclosing]
      cases hfound : Text.toClosing c closing 0 [] rest with
      | none =>
        rw [readEnclosed_not_found hfound]
        rfl
      | some parts =>
        obtain ⟨inside, after⟩ := parts
        have hinside := since?_append (c :: before) inside (closing :: after)
        rw [← since?_inBytes] at hinside
        have hread : (inBytes ⟨c :: before, rest⟩).byte = Text.byteSize (c :: before) := rfl
        simp only [Option.bind_some, hread, hinside, advance_inBytes, readEnclosed_found hfound]
        rfl
    · have hhead : (c :: rest).head? ≠ some opening := by simpa using hopening
      rw [if_neg hhead]
      simp [readEnclosed, Text.enclosed?, hopening, peek?]

theorem takeOperator_inBytes (op : Operator) (zipper : Zipper) :
    zipper.inBytes.takeOperator op =
      some ((zipper.takeOperator op).1, (zipper.takeOperator op).2.inBytes) := by
  simp only [BytePlace.takeOperator, takeOperator, rest?_inBytes, Option.bind_eq_bind,
    Option.bind_some]
  cases hstart : Operator.atStart? zipper.rest with
  | none => rfl
  | some start =>
    obtain ⟨found, k⟩ := start
    obtain ⟨spelled, rest, hrest, hspells, rfl⟩ := Operator.exists_spelled hstart
    have hcut := Text.takeBytes?_append spelled rest
    rw [hspells.byteSize_eq, ← hrest] at hcut
    by_cases hop : found = op
    · simp only [if_pos hop, hcut, Option.bind_some, advanceBy_inBytes]
      rfl
    · simp only [if_neg hop]
      rfl

end Zipper
end RuleLang

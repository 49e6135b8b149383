import RuleLang.Proofs.Blanks

/-!
Blanks at the ends. Trimming forgets the blanks at the two ends of a text, and so does a division:
no blank is a separator or a bracket, so these blanks go into the first and the last piece, where
they are trimmed.
-/
namespace RuleLang

namespace Text

variable {text blanks : Text}

theorem trimStart_append_of_isBlank (h : blanks.isBlank) (text : Text) :
    trimStart (blanks ++ text) = trimStart text :=
  List.dropWhile_append_of_pos (isBlank_iff.mp h)

theorem trimEnd_append_of_isBlank (h : blanks.isBlank) (text : Text) :
    trimEnd (text ++ blanks) = trimEnd text := by
  rw [← isBlank_reverse] at h
  have hstart := trimStart_append_of_isBlank h text.reverse
  rw [trimEnd, List.reverse_append]
  exact congrArg List.reverse hstart

theorem isBlank_append (text rest : Text) :
    isBlank (text ++ rest) = (text.isBlank && rest.isBlank) :=
  List.all_append

theorem trim_append_of_isBlank (h : blanks.isBlank) (text : Text) :
    trim (text ++ blanks) = trim text := by
  by_cases htext : text.isBlank
  · have hboth : isBlank (text ++ blanks) := by rw [isBlank_append, htext, h]; rfl
    rw [trim_eq_nil_iff.mpr hboth, trim_eq_nil_iff.mpr htext]
  · have hne : ¬ (trimStart text).isEmpty := by
      intro hempty
      rw [← isBlank_trimStart, List.isEmpty_iff.mp hempty] at htext
      exact htext rfl
    have hstart : trimStart (text ++ blanks) = trimStart text ++ blanks := by
      exact List.dropWhile_append.trans (if_neg hne)
    rw [trim, hstart, trimEnd_append_of_isBlank h, trim]

theorem trim_of_isBlank_append (h : blanks.isBlank) (text : Text) :
    trim (blanks ++ text) = trim text := by
  rw [trim, trimStart_append_of_isBlank h, trim]

theorem exists_blanks_trim (text : Text) :
    ∃ before after, before.isBlank ∧ after.isBlank ∧ text = before ++ (text.trim ++ after) := by
  refine ⟨text.takeWhile isBlankChar, ((trimStart text).reverse.takeWhile isBlankChar).reverse, ?_⟩
  refine ⟨?_, ?_, ?_⟩
  · exact isBlank_iff.mpr fun c hc => List.mem_takeWhile_imp hc
  · exact (isBlank_reverse _).trans (isBlank_iff.mpr fun c hc => List.mem_takeWhile_imp hc)
  · rw [trim, trimEnd_append_blanks]
    exact List.takeWhile_append_dropWhile.symm

theorem trim_trim (text : Text) : text.trim.trim = text.trim := by
  obtain ⟨before, after, hbefore, hafter, htext⟩ := text.exists_blanks_trim
  conv_rhs => rw [htext, trim_of_isBlank_append hbefore, trim_append_of_isBlank hafter]

end Text

namespace Division

variable {division : Division} {pairs : List (Char × Char)} {piece blanks : Text}

/-- No blank is a separator or a bracket. -/
def IgnoresBlanks (division : Division) : Prop :=
  ¬ isBlankChar division.separator ∧
    ∀ pair ∈ division.brackets, ¬ isBlankChar pair.1 ∧ ¬ isBlankChar pair.2

instance : DecidablePred IgnoresBlanks := fun _ => inferInstanceAs (Decidable (_ ∧ _))

theorem piecesFrom_blank (h : division.IgnoresBlanks) {c : Char} (hc : isBlankChar c)
    (whole : Text) (pairs : List (Char × Char)) (piece rest : Text) :
    division.piecesFrom whole pairs piece (c :: rest) =
      division.piecesFrom whole pairs (c :: piece) rest := by
  have hne {special : Char} (hspecial : ¬ isBlankChar special) : special ≠ c := by
    rintro rfl
    exact hspecial hc
  have hopening : division.closing? c = none := by
    rw [closing?, Option.map_eq_none_iff, List.find?_eq_none]
    intro pair hpair
    simpa using hne (h.2 pair hpair).1
  have hclosing : ¬ division.isClosing c := by
    rw [isClosing, List.any_eq_true]
    rintro ⟨pair, hpair, heq⟩
    exact hne (h.2 pair hpair).2 (beq_iff_eq.mp heq)
  have hseparator : ¬ (c == division.separator && pairs.isEmpty) := by
    simp [(hne h.1).symm]
  rw [piecesFrom.eq_def]
  dsimp only
  rw [hopening]
  dsimp only
  rw [if_neg hclosing, if_neg hseparator]

/-- Blanks are put into the piece, a blank piece remaining blank. -/
theorem piecesFrom_isBlank_append (h : division.IgnoresBlanks) (hblanks : blanks.isBlank)
    (whole : Text) (pairs : List (Char × Char)) (piece rest : Text) :
    division.piecesFrom whole pairs piece (blanks ++ rest) =
      division.piecesFrom whole pairs (blanks.reverse ++ piece) rest := by
  induction blanks generalizing piece with
  | nil => rfl
  | cons c blanks ih =>
    rw [Text.isBlank_cons, Bool.and_eq_true] at hblanks
    rw [List.cons_append, piecesFrom_blank h hblanks.1, ih hblanks.2, List.reverse_cons,
      List.append_assoc]
    rfl

theorem put_append_isBlank (hblanks : blanks.isBlank) (division : Division) (piece : Text)
    (others : List Text) : division.put (piece ++ blanks) others = division.put piece others := by
  unfold put
  rw [Text.isBlank_append, hblanks, Bool.and_true, List.reverse_append,
    Text.trim_of_isBlank_append ((Text.isBlank_reverse blanks).trans hblanks)]

theorem put_isBlank_append (hblanks : blanks.isBlank) (division : Division) (piece : Text)
    (others : List Text) : division.put (blanks ++ piece) others = division.put piece others := by
  unfold put
  rw [Text.isBlank_append, hblanks, Bool.true_and, List.reverse_append,
    Text.trim_append_of_isBlank ((Text.isBlank_reverse blanks).trans hblanks)]

/-- It makes no difference whether a piece begins with blanks. -/
theorem piecesFrom_append_isBlank (hblanks : blanks.isBlank) (division : Division) (whole : Text)
    (pairs : List (Char × Char)) (piece rest : Text) :
    division.piecesFrom whole pairs (piece ++ blanks) rest =
      division.piecesFrom whole pairs piece rest := by
  induction rest generalizing pairs piece with
  | nil =>
    rw [piecesFrom, piecesFrom, put_append_isBlank hblanks]
  | cons c rest ih =>
    rcases division.piecesFrom_cons_cases pairs c with
      ⟨other, -, hpieces⟩ | ⟨opened, -, -, hpieces⟩ | ⟨-, keeps, -, hpieces⟩
    · rw [hpieces, hpieces]
    · rw [hpieces, hpieces, ← ih opened (c :: piece)]
      rfl
    · have hput : division.put (if keeps then c :: (piece ++ blanks) else piece ++ blanks) =
          division.put (if keeps then c :: piece else piece) := by
        funext others
        cases keeps with
        | true => exact put_append_isBlank hblanks division (c :: piece) others
        | false => exact put_append_isBlank hblanks division piece others
      rw [hpieces, hpieces, hput]

/-- It makes no difference whether the text ends with blanks. -/
theorem piecesFrom_rest_isBlank (h : division.IgnoresBlanks) (hblanks : blanks.isBlank)
    (whole : Text) (pairs : List (Char × Char)) (piece rest : Text) :
    division.piecesFrom whole pairs piece (rest ++ blanks) =
      division.piecesFrom whole pairs piece rest := by
  induction rest generalizing pairs piece with
  | nil =>
    have hend := piecesFrom_isBlank_append h hblanks whole pairs piece []
    rw [List.append_nil] at hend
    rw [List.nil_append, hend, piecesFrom, piecesFrom,
      put_isBlank_append ((Text.isBlank_reverse blanks).trans hblanks)]
  | cons c rest ih =>
    rw [List.cons_append]
    rcases division.piecesFrom_cons_cases pairs c with
      ⟨other, -, hpieces⟩ | ⟨opened, -, -, hpieces⟩ | ⟨-, keeps, -, hpieces⟩
    · rw [hpieces, hpieces]
    · rw [hpieces, hpieces, ih]
    · rw [hpieces, hpieces, ih]

theorem piecesFrom_whole {whole whole' : Text} (h : whole.trim = whole'.trim)
    (division : Division) (pairs : List (Char × Char)) (piece rest : Text) :
    division.piecesFrom whole pairs piece rest = division.piecesFrom whole' pairs piece rest := by
  induction rest generalizing pairs piece with
  | nil => rw [piecesFrom, piecesFrom, h]
  | cons c rest ih =>
    rcases division.piecesFrom_cons_cases pairs c with
      ⟨other, -, hpieces⟩ | ⟨opened, -, -, hpieces⟩ | ⟨-, keeps, -, hpieces⟩
    · rw [hpieces, hpieces, h]
    · rw [hpieces, hpieces, ih]
    · rw [hpieces, hpieces, ih]

/-- A division does not see the blanks at the two ends of a text. -/
theorem pieces_trim (h : division.IgnoresBlanks) (text : Text) :
    division.pieces text.trim = division.pieces text := by
  obtain ⟨before, after, hbefore, hafter, htext⟩ := text.exists_blanks_trim
  have hrest : division.piecesFrom text [] [] text = division.piecesFrom text [] [] text.trim := by
    calc division.piecesFrom text [] [] text
      _ = division.piecesFrom text [] [] (before ++ (text.trim ++ after)) := by rw [← htext]
      _ = division.piecesFrom text [] ([] ++ before.reverse) (text.trim ++ after) := by
        rw [piecesFrom_isBlank_append h hbefore, List.append_nil, List.nil_append]
      _ = division.piecesFrom text [] [] (text.trim ++ after) :=
        piecesFrom_append_isBlank ((Text.isBlank_reverse before).trans hbefore) _ _ _ _ _
      _ = division.piecesFrom text [] [] text.trim :=
        piecesFrom_rest_isBlank h hafter text [] [] text.trim
  unfold pieces
  rw [Text.isBlank_trim, hrest, piecesFrom_whole text.trim_trim]

end Division

end RuleLang

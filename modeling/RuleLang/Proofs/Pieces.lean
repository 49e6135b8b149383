import RuleLang.Proofs.Margins

/-!
Dividing what was joined. A piece of a division is indivisible: its brackets are matched, outside of
them it has no separator, and if pieces end at braces it has a closing one there at its end at most.
While such a text is read no piece ends before its end, so texts of this kind that are joined by
separators fall apart into just these texts again. A division gives no other pieces, since what has
been read of a piece has never been at a place where it would have ended.
-/
namespace RuleLang

namespace Text

/-- A character in a text with one more at its end is the last or stands before it. -/
theorem concat_eq_cases {text front back : Text} {c d : Char}
    (h : text ++ [c] = front ++ d :: back) :
    (text = front ∧ c = d ∧ back = []) ∨
      ∃ others, text = front ++ d :: others ∧ back = others ++ [c] := by
  cases back using List.reverseRecOn with
  | nil =>
    obtain ⟨hfront, hc⟩ := List.append_inj' h rfl
    exact .inl ⟨hfront, by simpa using hc, rfl⟩
  | append_singleton others last =>
    rw [← List.cons_append, ← List.append_assoc] at h
    obtain ⟨htext, hlast⟩ := List.append_inj' h rfl
    obtain rfl : c = last := by simpa using hlast
    exact .inr ⟨others, htext, rfl⟩

variable {pairs opened : List (Char × Char)} {text : Text}

/-- A text is balanced if nothing in it is left open. -/
theorem Pending.balanced_iff (h : Pending pairs text opened) (hpairs : pairs ⊆ bracketPairs) :
    Balanced pairs text ↔ opened = [] := by
  constructor
  · intro hbalanced
    exact Except.ok.inj ((h.unclosed hpairs).symm.trans (hbalanced.unclosed hpairs))
  · rintro rfl
    exact pending_nil.mp h

end Text

namespace Division

variable {division : Division} {pairs opened : List (Char × Char)} {text piece rest : Text}
  {texts : List Text} {c : Char}

/-- A text that ends as a piece at its end and nowhere before. -/
structure Uncut (division : Division) (text : Text) : Prop where
  balanced : text.Balanced division.brackets
  no_separator : ∀ front back, text = front ++ division.separator :: back →
    ¬ front.Balanced division.brackets
  brace_last : division.endsAtBrace → ∀ front back, text = front ++ '}' :: back →
    Text.Balanced division.brackets (front ++ ['}']) → back = []

/-- An uncut text without blanks at its ends, and not blank unless blank pieces are kept. -/
structure Indivisible (division : Division) (text : Text) : Prop extends Uncut division text where
  trimmed : text.trim = text
  kept : division.keepsBlank ∨ ¬ text.isBlank

/-- Indivisible texts that are told apart by the separators between them. A division that keeps
blank pieces takes no text for no pieces, although it could be a single empty one. -/
structure Joinable (division : Division) (texts : List Text) : Prop where
  indivisible : ∀ text ∈ texts, division.Indivisible text
  kept : division.keepsBlank → texts ≠ [] ∧ texts ≠ [[]]

theorem brackets_subset : ∀ division ∈ all, division.brackets ⊆ Text.bracketPairs := by decide

theorem ignoresBlanks : ∀ division ∈ all, division.IgnoresBlanks := by decide

theorem ordinary_separator : ∀ division ∈ all, ∀ pair ∈ division.brackets,
    division.separator ≠ pair.1 ∧ division.separator ≠ pair.2 := by decide

theorem brace_mem : ∀ division ∈ all, division.endsAtBrace → ('{', '}') ∈ division.brackets := by
  decide

theorem drops_blank : ∀ division ∈ all, division.endsAtBrace → division.keepsBlank = false := by
  decide

/-- Reading on in an uncut text ends the piece at the end of the text or not at all. -/
theorem Uncut.scan (h : division.Uncut text) (hpairs : division.brackets ⊆ Text.bracketPairs)
    (whole : Text) {front back : Text} (htext : text = front ++ back)
    (hpending : front.Pending division.brackets opened) :
    (∀ tail, division.piecesFrom whole opened front.reverse (back ++ tail) =
      division.piecesFrom whole [] text.reverse tail) ∨
    (division.endsAtBrace ∧ ∀ tail,
      division.piecesFrom whole opened front.reverse (back ++ tail) =
        division.put text.reverse <$> division.piecesFrom whole [] [] tail) := by
  induction back generalizing front opened with
  | nil =>
    rw [List.append_nil] at htext
    subst htext
    obtain rfl := (hpending.balanced_iff hpairs).mp h.balanced
    exact .inl fun tail => rfl
  | cons c back ih =>
    rcases division.piecesFrom_cons_cases opened c with
      ⟨bracket, htrack, -⟩ | ⟨next, htrack, -, hpieces⟩ | ⟨htrack, keeps, hends, hpieces⟩
    · have hunclosed : Text.unclosed division.brackets [] text = .ok [] :=
        h.balanced.unclosed hpairs
      rw [htext, Text.unclosed_append_ok (hpending.unclosed hpairs),
        Text.unclosed_cons_error htrack] at hunclosed
      cases hunclosed
    · have hscan := ih (htext.trans (List.append_cons front c back)) (hpending.track hpairs htrack)
      simpa [hpieces] using hscan
    · have hnext := hpending.track hpairs htrack
      cases keeps with
      | true =>
        obtain ⟨-, hbrace, rfl⟩ := hends
        obtain rfl := h.brace_last hbrace front back htext (Text.pending_nil.mp hnext)
        exact .inr ⟨hbrace, fun tail => by simp [hpieces, htext]⟩
      | false =>
        obtain ⟨rfl, rfl⟩ := hends
        exact absurd (Text.pending_nil.mp hpending) (h.no_separator front back htext)

theorem put_nil (h : division.keepsBlank = false) (others : List Text) :
    division.put [] others = others := by
  simp [put, h, Text.isBlank]

theorem Uncut.isPiece (h : division.Uncut text) (hdivision : division ∈ all) :
    division.IsPiece text := by
  have hscan (whole : Text) := h.scan (brackets_subset division hdivision) whole
    (List.nil_append text).symm (.balanced .nil)
  refine ⟨fun whole => ?_, fun whole rest => ?_⟩
  · rcases hscan whole with hscan | ⟨hbrace, hscan⟩
    · simpa [piecesFrom] using hscan []
    · have hdrops := drops_blank division hdivision hbrace
      simpa [piecesFrom, put_nil hdrops] using hscan []
  · rcases hscan whole with hscan | ⟨hbrace, hscan⟩
    · exact (hscan _).trans (piecesFrom_separator hdivision whole text.reverse rest)
    · have hdrops := drops_blank division hdivision hbrace
      have hput : division.put [] = id := funext (put_nil hdrops)
      refine (hscan _).trans ?_
      rw [piecesFrom_separator hdivision, hput, id_map]

theorem not_isBlank_intercalate (h : ¬ isBlankChar division.separator) (hne : texts ≠ [])
    (hsingle : ∀ text, texts = [text] → ¬ text.isBlank) :
    ¬ Text.isBlank ([division.separator].intercalate texts) := by
  match texts with
  | [] => contradiction
  | [text] =>
    rw [List.intercalate_singleton]
    exact hsingle text rfl
  | text :: next :: others =>
    intro hblank
    rw [List.intercalate_cons_cons] at hblank
    exact h (Text.isBlank_iff.mp hblank division.separator (by simp))

theorem Joinable.pieces_intercalate (h : division.Joinable texts) (hdivision : division ∈ all) :
    division.pieces ([division.separator].intercalate texts) = .ok texts := by
  have htrimmed : texts.map Text.trim = texts :=
    (List.map_congr_left fun text htext => (h.indivisible text htext).trimmed).trans
      (List.map_id texts)
  by_cases hne : texts = []
  · subst hne
    rfl
  · have hsingle (text : Text) (htexts : texts = [text]) : ¬ text.isBlank := by
      subst htexts
      have htext := h.indivisible text List.mem_cons_self
      intro hblank
      rcases htext.kept with hkeeps | hkept
      · have hnil := htext.trimmed.symm.trans (Text.trim_eq_nil_iff.mpr hblank)
        exact (h.kept hkeeps).2 (congrArg (fun text => [text]) hnil)
      · exact hkept hblank
    have hwhole := not_isBlank_intercalate (ignoresBlanks division hdivision).1 hne hsingle
    have hpieces := Division.pieces_intercalate hne
      (fun text htext => (h.indivisible text htext).isPiece hdivision)
      (fun text htext => (h.indivisible text htext).kept) hwhole
    rwa [htrimmed] at hpieces

/-- What has been read of a piece, at no place of which the piece would have ended. -/
structure Begun (division : Division) (opened : List (Char × Char)) (text : Text) : Prop where
  pending : text.Pending division.brackets opened
  no_separator : ∀ front back, text = front ++ division.separator :: back →
    ¬ front.Balanced division.brackets
  no_brace : division.endsAtBrace → ∀ front back, text = front ++ '}' :: back →
    ¬ Text.Balanced division.brackets (front ++ ['}'])

theorem begun_nil : division.Begun [] [] :=
  ⟨.balanced .nil, fun front back h => by simp at h, fun _ front back h => by simp at h⟩

namespace Begun

variable (h : division.Begun opened text) (hdivision : division ∈ all)

include h in
/-- The end of the whole text ends the last piece. -/
theorem uncut (hopened : opened = []) : division.Uncut text where
  balanced := Text.pending_nil.mp (hopened ▸ h.pending)
  no_separator := h.no_separator
  brace_last hbrace front back htext hbalanced :=
    absurd hbalanced (h.no_brace hbrace front back htext)

include h hdivision

theorem concat {next : List (Char × Char)}
    (htrack : Text.track division.brackets opened c = .ok next)
    (hgoes : next = [] → ∀ keeps, ¬ division.EndsAt opened c keeps) :
    division.Begun next (text ++ [c]) := by
  have hpairs := brackets_subset division hdivision
  have hpending := h.pending.track hpairs htrack
  refine ⟨hpending, fun front back htext hbalanced => ?_,
    fun hbrace front back htext hbalanced => ?_⟩
  · rcases Text.concat_eq_cases htext with ⟨rfl, rfl, -⟩ | ⟨others, hothers, -⟩
    · obtain rfl := (h.pending.balanced_iff hpairs).mp hbalanced
      have hordinary : Text.Ordinary division.brackets division.separator :=
        ordinary_separator division hdivision
      obtain rfl : [] = next := Except.ok.inj (hordinary.track.symm.trans htrack)
      exact hgoes rfl false ⟨rfl, rfl⟩
    · exact h.no_separator front others hothers hbalanced
  · rcases Text.concat_eq_cases htext with ⟨rfl, rfl, -⟩ | ⟨others, hothers, -⟩
    · have hnext := (hpending.balanced_iff hpairs).mp hbalanced
      refine hgoes hnext true ⟨?_, hbrace, rfl⟩
      rintro rfl
      have hstray : Text.track division.brackets [] '}' = .error '}' :=
        Text.track_stray hpairs (brace_mem division hdivision hbrace) nofun
      cases hstray.symm.trans htrack
    · exact h.no_brace hbrace front others hothers hbalanced

theorem uncut_of_endsAt {keeps : Bool} (htrack : Text.track division.brackets opened c = .ok [])
    (hends : division.EndsAt opened c keeps) :
    division.Uncut (if keeps then text ++ [c] else text) := by
  cases keeps with
  | false => exact h.uncut hends.1
  | true =>
    obtain ⟨-, hbrace, rfl⟩ := hends
    have hpending := h.pending.track (brackets_subset division hdivision) htrack
    have hmem := brace_mem division hdivision hbrace
    refine ⟨Text.pending_nil.mp hpending, fun front back htext => ?_,
      fun _ front back htext hbalanced => ?_⟩
    · rcases Text.concat_eq_cases htext with ⟨-, hc, -⟩ | ⟨others, hothers, -⟩
      · exact absurd hc.symm (ordinary_separator division hdivision _ hmem).2
      · exact h.no_separator front others hothers
    · rcases Text.concat_eq_cases htext with ⟨-, -, hback⟩ | ⟨others, hothers, -⟩
      · exact hback
      · exact absurd hbalanced (h.no_brace hbrace front others hothers)

end Begun

/-- What stands outside of the brackets of a trimmed text stands there in the whole text too. -/
theorem Uncut.trim (h : division.Uncut text) (hpairs : division.brackets ⊆ Text.bracketPairs) :
    division.Uncut text.trim := by
  obtain ⟨before, after, hbefore, -, htext⟩ := text.exists_blanks_trim
  have hblanks : before.Balanced division.brackets := Text.balanced_of_forall fun c hc =>
    Text.ordinary_of_isBlank hpairs (Text.isBlank_iff.mp hbefore c hc)
  refine ⟨h.balanced.trim hpairs, fun front back hsplit hfront => ?_,
    fun hbrace front back hsplit hfront => ?_⟩
  · refine h.no_separator (before ++ front) (back ++ after) ?_ (hblanks.append hfront)
    rw [htext, hsplit]
    simp
  · have hwhole : text = (before ++ front) ++ '}' :: (back ++ after) := by
      rw [htext, hsplit]
      simp
    have hbalanced := hblanks.append hfront
    rw [← List.append_assoc] at hbalanced
    exact (List.append_eq_nil_iff.mp (h.brace_last hbrace _ _ hwhole hbalanced)).1

theorem indivisible_put (hdivision : division ∈ all) (hpiece : division.Uncut piece.reverse)
    (hothers : ∀ text ∈ texts, division.Indivisible text) :
    ∀ text ∈ division.put piece texts, division.Indivisible text := by
  rw [put]
  split
  case isFalse => exact hothers
  case isTrue hkept =>
    refine List.forall_mem_cons.mpr ⟨⟨hpiece.trim (brackets_subset division hdivision),
      Text.trim_trim _, ?_⟩, hothers⟩
    rw [Text.isBlank_trim, Text.isBlank_reverse]
    simpa using hkept

theorem exists_others {result : Except Fault (List Text)}
    (h : division.put piece <$> result = .ok texts) :
    ∃ others, result = .ok others ∧ texts = division.put piece others := by
  cases result with
  | error fault => cases h
  | ok others => exact ⟨others, rfl, (Except.ok.inj h).symm⟩

theorem indivisible_piecesFrom (hdivision : division ∈ all) {whole : Text}
    (hbegun : division.Begun pairs piece.reverse)
    (h : division.piecesFrom whole pairs piece rest = .ok texts) :
    ∀ text ∈ texts, division.Indivisible text := by
  induction rest generalizing pairs piece texts with
  | nil =>
    rw [piecesFrom] at h
    split at h
    case h_1 => cases h
    case h_2 hlast =>
      obtain rfl := Except.ok.inj h
      have hpairs := List.getLast?_eq_none_iff.mp hlast
      exact indivisible_put hdivision (hbegun.uncut hpairs) (List.forall_mem_nil _)
  | cons c rest ih =>
    rcases division.piecesFrom_cons_cases pairs c with
      ⟨bracket, -, hpieces⟩ | ⟨next, htrack, hgoes, hpieces⟩ | ⟨htrack, keeps, hends, hpieces⟩
    · rw [hpieces] at h
      cases h
    · rw [hpieces] at h
      have hnext := hbegun.concat hdivision htrack hgoes
      rw [← List.reverse_cons] at hnext
      exact ih hnext h
    · rw [hpieces] at h
      have hended := hbegun.uncut_of_endsAt hdivision htrack hends
      obtain ⟨others, hothers, rfl⟩ := exists_others h
      refine indivisible_put hdivision ?_ (ih begun_nil hothers)
      cases keeps with
      | true => simpa using hended
      | false => exact hended

/-- If blank pieces are kept there is always a piece, and a single one is the whole text. -/
theorem piecesFrom_keepsBlank (hkeeps : division.keepsBlank) {whole : Text}
    (h : division.piecesFrom whole pairs piece rest = .ok texts) :
    texts ≠ [] ∧ ∀ text, texts = [text] → text = Text.trim (piece.reverse ++ rest) := by
  have hput (piece : Text) (others : List Text) :
      division.put piece others = Text.trim piece.reverse :: others := by simp [put, hkeeps]
  induction rest generalizing pairs piece texts with
  | nil =>
    rw [piecesFrom] at h
    split at h
    case h_1 => cases h
    case h_2 =>
      obtain rfl := Except.ok.inj h
      rw [hput, List.append_nil]
      exact ⟨List.cons_ne_nil _ _, fun text htext => (List.cons.inj htext).1.symm⟩
  | cons c rest ih =>
    rcases division.piecesFrom_cons_cases pairs c with
      ⟨bracket, -, hpieces⟩ | ⟨next, -, -, hpieces⟩ | ⟨-, keeps, -, hpieces⟩
    · rw [hpieces] at h
      cases h
    · rw [hpieces] at h
      simpa using ih h
    · rw [hpieces] at h
      obtain ⟨others, hothers, rfl⟩ := exists_others h
      rw [hput]
      exact ⟨List.cons_ne_nil _ _, fun text htext => absurd (List.cons.inj htext).2 (ih hothers).1⟩

/-- The pieces of a text could be joined. -/
theorem joinable_of_pieces (hdivision : division ∈ all) (hblank : ¬ text.isBlank)
    (h : division.pieces text = .ok texts) : division.Joinable texts := by
  rw [pieces, if_neg hblank] at h
  refine ⟨indivisible_piecesFrom hdivision begun_nil h, fun hkeeps => ?_⟩
  obtain ⟨hne, hsingle⟩ := piecesFrom_keepsBlank hkeeps h
  refine ⟨hne, fun htexts => hblank (Text.trim_eq_nil_iff.mp ?_)⟩
  exact (hsingle [] htexts).symm

theorem Indivisible.pieces_eq (h : division.Indivisible text) (hdivision : division ∈ all)
    (hblank : ¬ text.isBlank) : division.pieces text = .ok [text] := by
  have hjoinable : division.Joinable [text] := by
    refine ⟨List.forall_mem_singleton.mpr h, fun _ => ⟨List.cons_ne_nil _ _, fun hnil => hblank ?_⟩⟩
    rw [(List.cons.inj hnil).1]
    rfl
  have hpieces := hjoinable.pieces_intercalate hdivision
  rwa [List.intercalate_singleton] at hpieces

/-- A division is the inverse of joining with its separator. It takes joined texts apart into just
these texts, if each of them is indivisible; and of a text that it can divide it gives no pieces if
the text is blank, and otherwise pieces that could be joined. A piece of a block is not divided any
further. -/
theorem pieces_inverse :
    (∀ division ∈ all,
      (∀ texts, division.Joinable texts →
        division.pieces ([division.separator].intercalate texts) = .ok texts) ∧
      ∀ text texts, division.pieces text = .ok texts →
        (text.isBlank → texts = []) ∧ (¬ text.isBlank → division.Joinable texts)) ∧
    ∀ text texts, statements.pieces text = .ok texts →
      ∀ piece ∈ texts, statements.pieces piece = .ok [piece] := by
  have hblank (division : Division) {text : Text} {texts : List Text} (hblank : text.isBlank)
      (h : division.pieces text = .ok texts) : texts = [] := by
    rw [pieces, if_pos hblank] at h
    exact (Except.ok.inj h).symm
  refine ⟨fun division hdivision => ⟨fun texts h => h.pieces_intercalate hdivision,
    fun text texts h => ⟨fun htext => hblank division htext h, fun htext => ?_⟩⟩, ?_⟩
  · exact joinable_of_pieces hdivision htext h
  · intro text texts h piece hpiece
    have htext : ¬ text.isBlank := by
      intro htext
      rw [hblank statements htext h] at hpiece
      cases hpiece
    have hindivisible := (joinable_of_pieces statements_mem htext h).indivisible piece hpiece
    exact hindivisible.pieces_eq statements_mem (hindivisible.kept.resolve_left Bool.false_ne_true)

/-- Separators inside of brackets stay, and a separator after braces gives no blank piece. -/
theorem pieces_braces_and_separators :
    let texts : List Text := [['{', ';', '}'], ['a'], ['b', '(', ';', ')']]
    statements.pieces ['{', ';', '}', 'a', ';', 'b', '(', ';', ')'] = .ok texts ∧
      statements.Joinable texts ∧
      statements.pieces ['{', ';', '}', ';', 'a', ';', 'b', '(', ';', ')'] = .ok texts := by
  intro texts
  have hpieces : statements.pieces ['{', ';', '}', 'a', ';', 'b', '(', ';', ')'] = .ok texts := rfl
  obtain ⟨hjoined, hdivided⟩ := pieces_inverse.1 statements statements_mem
  have hjoinable := (hdivided _ texts hpieces).2 (by decide)
  exact ⟨hpieces, hjoinable, hjoined texts hjoinable⟩

end Division
end RuleLang

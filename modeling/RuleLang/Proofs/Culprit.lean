import RuleLang.Proofs.Balance

/-!
Why a text is not balanced. A text that is not balanced has one culprit: the first closing bracket
that does not close the innermost open one or, if there is none, the first opening bracket that is
never closed. A division into pieces that reads the bracket pairs finds just this bracket, and it
gives balanced pieces of a balanced text.
-/
namespace RuleLang

namespace Text

variable {pairs opened : List (Char × Char)} {pair : Char × Char} {c bracket : Char}
  {front back text : Text}

/-- The brackets that are still open at the end of a text, innermost first, if every closing
bracket in it closes the innermost open one. -/
inductive Pending (pairs : List (Char × Char)) : Text → List (Char × Char) → Prop
  | balanced {text : Text} (h : Balanced pairs text) : Pending pairs text []
  | opened {text inside : Text} {pair : Char × Char} {opened : List (Char × Char)}
      (h : Pending pairs text opened) (hpair : pair ∈ pairs) (hinside : Balanced pairs inside) :
      Pending pairs (text ++ pair.1 :: inside) (pair :: opened)

/-- The bracket that a text is not balanced for: the first closing one that does not close the
innermost open bracket, or else the first of the open brackets that are never closed. -/
inductive Culprit (pairs : List (Char × Char)) : Text → Char → Prop
  | closing {before after : Text} {pair : Char × Char} {opened : List (Char × Char)}
      (h : Pending pairs before opened) (hpair : pair ∈ pairs)
      (hstray : ∀ innermost ∈ opened.head?, innermost.2 ≠ pair.2) :
      Culprit pairs (before ++ pair.2 :: after) pair.2
  | opening {text : Text} {pair : Char × Char} {inner : List (Char × Char)}
      (h : Pending pairs text (inner ++ [pair])) : Culprit pairs text pair.1

theorem pending_nil : Pending pairs text [] ↔ Balanced pairs text := by
  refine ⟨fun h => ?_, .balanced⟩
  cases h with
  | balanced h => exact h

theorem Pending.append (h : Pending pairs text opened) (hback : Balanced pairs back) :
    Pending pairs (text ++ back) opened := by
  cases h with
  | balanced h => exact .balanced (h.append hback)
  | opened h hpair hinside =>
    rw [List.append_assoc]
    exact .opened h hpair (hinside.append hback)

theorem Pending.close (h : Pending pairs text (pair :: opened)) :
    Pending pairs (text ++ [pair.2]) opened := by
  cases h with
  | opened h hpair hinside =>
    rw [List.append_assoc]
    exact h.append (.pair hpair hinside .nil)

/-- The open brackets after one more character. Fails with a closing bracket that does not close
the innermost open one. -/
def track (pairs opened : List (Char × Char)) (c : Char) : Except Char (List (Char × Char)) :=
  match pairs.find? fun pair => pair.1 == c with
  | some pair => .ok (pair :: opened)
  | none =>
    if pairs.any fun pair => pair.2 == c then
      match opened with
      | [] => .error c
      | innermost :: outer => if innermost.2 = c then .ok outer else .error c
    else .ok opened

/-- The open brackets after a text. -/
def unclosed (pairs opened : List (Char × Char)) : Text → Except Char (List (Char × Char))
  | [] => .ok opened
  | c :: text =>
    match track pairs opened c with
    | .ok opened => unclosed pairs opened text
    | .error bracket => .error bracket

theorem unclosed_cons_ok {opened' : List (Char × Char)} (h : track pairs opened c = .ok opened')
    (text : Text) : unclosed pairs opened (c :: text) = unclosed pairs opened' text := by
  simp only [unclosed, h]

theorem unclosed_cons_error (h : track pairs opened c = .error bracket) (text : Text) :
    unclosed pairs opened (c :: text) = .error bracket := by
  simp only [unclosed, h]

theorem unclosed_append_ok {opened' : List (Char × Char)}
    (h : unclosed pairs opened front = .ok opened') (back : Text) :
    unclosed pairs opened (front ++ back) = unclosed pairs opened' back := by
  induction front generalizing opened with
  | nil =>
    cases h
    rfl
  | cons c front ih =>
    cases hc : track pairs opened c with
    | ok next =>
      rw [unclosed_cons_ok hc] at h
      rw [List.cons_append, unclosed_cons_ok hc, ih h]
    | error bracket =>
      rw [unclosed_cons_error hc] at h
      cases h

theorem unclosed_append_error (h : unclosed pairs opened front = .error bracket) (back : Text) :
    unclosed pairs opened (front ++ back) = .error bracket := by
  induction front generalizing opened with
  | nil => cases h
  | cons c front ih =>
    cases hc : track pairs opened c with
    | ok next =>
      rw [unclosed_cons_ok hc] at h
      rw [List.cons_append, unclosed_cons_ok hc, ih h]
    | error other =>
      rw [unclosed_cons_error hc] at h
      rw [List.cons_append, unclosed_cons_error hc, h]

theorem find?_opening (hpairs : pairs ⊆ bracketPairs) (hpair : pair ∈ pairs) :
    pairs.find? (fun other => other.1 == pair.1) = some pair := by
  have hsome : (pairs.find? fun other => other.1 == pair.1).isSome :=
    List.find?_isSome.mpr ⟨pair, hpair, beq_self_eq_true _⟩
  obtain ⟨found, hfound⟩ := Option.isSome_iff_exists.mp hsome
  have hmem := List.mem_of_find?_eq_some hfound
  have heq : found.1 = pair.1 := by simpa using List.find?_some hfound
  by_cases hne : found = pair
  · rw [hfound, hne]
  · exact absurd heq (bracketPairs_disjoint _ (hpairs hmem) _ (hpairs hpair) hne).1.1

theorem find?_closing (hpairs : pairs ⊆ bracketPairs) (hpair : pair ∈ pairs) :
    pairs.find? (fun other => other.1 == pair.2) = none := by
  refine List.find?_eq_none.mpr fun other hother => ?_
  rw [beq_iff_eq]
  intro heq
  by_cases hne : pair = other
  · subst hne
    exact closing_ne_opening _ (hpairs hpair) heq.symm
  · exact (bracketPairs_disjoint _ (hpairs hpair) _ (hpairs hother) hne).2.1 heq.symm

theorem track_opening (hpairs : pairs ⊆ bracketPairs) (hpair : pair ∈ pairs) :
    track pairs opened pair.1 = .ok (pair :: opened) := by
  simp only [track, find?_opening hpairs hpair]

theorem any_closing (hpair : pair ∈ pairs) : pairs.any (fun other => other.2 == pair.2) :=
  List.any_eq_true.mpr ⟨pair, hpair, beq_self_eq_true _⟩

theorem track_closing {innermost : Char × Char} (hpairs : pairs ⊆ bracketPairs)
    (hpair : pair ∈ pairs) (heq : innermost.2 = pair.2) :
    track pairs (innermost :: opened) pair.2 = .ok opened := by
  simp only [track, find?_closing hpairs hpair, any_closing hpair, heq, if_true]

theorem track_stray (hpairs : pairs ⊆ bracketPairs) (hpair : pair ∈ pairs)
    (hstray : ∀ innermost ∈ opened.head?, innermost.2 ≠ pair.2) :
    track pairs opened pair.2 = .error pair.2 := by
  simp only [track, find?_closing hpairs hpair, any_closing hpair, if_true]
  cases opened with
  | nil => rfl
  | cons innermost outer => exact if_neg (hstray innermost rfl)

theorem Ordinary.track (hc : Ordinary pairs c) : track pairs opened c = .ok opened := by
  have hfind : pairs.find? (fun pair => pair.1 == c) = none :=
    List.find?_eq_none.mpr fun pair hpair => by simpa using (hc pair hpair).1.symm
  have hany : (pairs.any fun pair => pair.2 == c) = false :=
    List.any_eq_false.mpr fun pair hpair => by simpa using (hc pair hpair).2.symm
  simp [Text.track, hfind, hany]

/-- A character opens a pair, closes the innermost open one, strays or is ordinary. -/
theorem bracket_cases (pairs opened : List (Char × Char)) (c : Char) :
    (∃ pair ∈ pairs, c = pair.1) ∨
    (∃ pair ∈ pairs, c = pair.2 ∧ (∀ innermost ∈ opened.head?, innermost.2 ≠ pair.2)) ∨
    (∃ pair ∈ pairs, c = pair.2 ∧ ∃ innermost outer,
      opened = innermost :: outer ∧ innermost.2 = pair.2) ∨
    Ordinary pairs c := by
  by_cases ho : ∃ pair ∈ pairs, c = pair.1
  · exact .inl ho
  by_cases hc : ∃ pair ∈ pairs, c = pair.2
  · obtain ⟨pair, hpair, rfl⟩ := hc
    by_cases hstray : ∀ innermost ∈ opened.head?, innermost.2 ≠ pair.2
    · exact .inr (.inl ⟨pair, hpair, rfl, hstray⟩)
    · push Not at hstray
      obtain ⟨innermost, hmem, heq⟩ := hstray
      obtain ⟨outer, rfl⟩ := List.head?_eq_some_iff.mp hmem
      exact .inr (.inr (.inl ⟨pair, hpair, rfl, innermost, outer, rfl, heq⟩))
  · push Not at ho hc
    exact .inr (.inr (.inr fun pair hpair => ⟨ho pair hpair, hc pair hpair⟩))

theorem Balanced.unclosed (h : Balanced pairs text) (hpairs : pairs ⊆ bracketPairs) :
    unclosed pairs opened text = .ok opened := by
  induction h generalizing opened with
  | nil => rfl
  | cons hc _ ih => rw [unclosed_cons_ok hc.track, ih]
  | @pair opening closing inside rest hpair _ _ ihinside ihrest =>
    rw [unclosed_cons_ok (track_opening hpairs hpair), unclosed_append_ok ihinside,
      unclosed_cons_ok (track_closing hpairs hpair rfl), ihrest]

theorem Pending.unclosed (h : Pending pairs text opened) (hpairs : pairs ⊆ bracketPairs) :
    unclosed pairs [] text = .ok opened := by
  induction h with
  | balanced h => exact h.unclosed hpairs
  | opened _ hpair hinside ih =>
    rw [unclosed_append_ok ih, unclosed_cons_ok (track_opening hpairs hpair),
      hinside.unclosed hpairs]

/-- One more character either keeps the brackets in order or is a stray closing bracket. -/
theorem Pending.step (h : Pending pairs text opened) (hpairs : pairs ⊆ bracketPairs) (c : Char) :
    (∃ opened', track pairs opened c = .ok opened' ∧ Pending pairs (text ++ [c]) opened') ∨
    (track pairs opened c = .error c ∧
      ∃ pair ∈ pairs, c = pair.2 ∧ ∀ innermost ∈ opened.head?, innermost.2 ≠ pair.2) := by
  rcases bracket_cases pairs opened c with ⟨pair, hpair, rfl⟩ | ⟨pair, hpair, rfl, hstray⟩ |
    ⟨pair, hpair, rfl, innermost, outer, rfl, heq⟩ | hc
  · exact .inl ⟨_, track_opening hpairs hpair, h.opened hpair .nil⟩
  · exact .inr ⟨track_stray hpairs hpair hstray, pair, hpair, rfl, hstray⟩
  · exact .inl ⟨_, track_closing hpairs hpair heq, heq ▸ h.close⟩
  · exact .inl ⟨_, hc.track, h.append (.cons hc .nil)⟩

theorem Pending.track (h : Pending pairs text opened) (hpairs : pairs ⊆ bracketPairs)
    {opened' : List (Char × Char)} (htrack : track pairs opened c = .ok opened') :
    Pending pairs (text ++ [c]) opened' := by
  rcases h.step hpairs c with ⟨next, hnext, hpending⟩ | ⟨herror, -⟩
  · obtain rfl := Except.ok.inj (hnext.symm.trans htrack)
    exact hpending
  · cases herror.symm.trans htrack

/-- Reading a text from the left either leaves some brackets open or stops at a stray one. -/
theorem pending_or_stray (hpairs : pairs ⊆ bracketPairs) (text : Text) :
    (∃ opened, Pending pairs text opened) ∨
    ∃ before pair after opened, text = before ++ pair.2 :: after ∧ Pending pairs before opened ∧
      pair ∈ pairs ∧ ∀ innermost ∈ opened.head?, innermost.2 ≠ pair.2 := by
  induction text using List.reverseRecOn with
  | nil => exact .inl ⟨[], .balanced .nil⟩
  | append_singleton text c ih =>
    rcases ih with ⟨opened, h⟩ | ⟨before, pair, after, opened, rfl, h, hpair, hstray⟩
    · rcases h.step hpairs c with ⟨opened', -, h'⟩ | ⟨-, pair, hpair, rfl, hstray⟩
      · exact .inl ⟨opened', h'⟩
      · exact .inr ⟨text, pair, [], opened, rfl, h, hpair, hstray⟩
    · exact .inr ⟨before, pair, after ++ [c], opened, by simp, h, hpair, hstray⟩

/-- The culprit of a text that follows open brackets, if there is one. -/
def culprit? (pairs opened : List (Char × Char)) (text : Text) : Option Char :=
  match unclosed pairs opened text with
  | .ok opened => opened.getLast?.map Prod.fst
  | .error bracket => some bracket

theorem culprit?_cons_ok {opened' : List (Char × Char)} (h : track pairs opened c = .ok opened')
    (text : Text) : culprit? pairs opened (c :: text) = culprit? pairs opened' text := by
  simp only [culprit?, unclosed_cons_ok h]

theorem culprit?_cons_error (h : track pairs opened c = .error bracket) (text : Text) :
    culprit? pairs opened (c :: text) = some bracket := by
  simp only [culprit?, unclosed_cons_error h]

theorem Culprit.culprit? (h : Culprit pairs text bracket) (hpairs : pairs ⊆ bracketPairs) :
    culprit? pairs [] text = some bracket := by
  cases h with
  | closing h hpair hstray =>
    rw [Text.culprit?, unclosed_append_ok (h.unclosed hpairs),
      unclosed_cons_error (track_stray hpairs hpair hstray)]
  | opening h =>
    rw [Text.culprit?, h.unclosed hpairs]
    simp

theorem exists_culprit (hpairs : pairs ⊆ bracketPairs) (h : ¬ Balanced pairs text) :
    ∃ bracket, Culprit pairs text bracket := by
  rcases pending_or_stray hpairs text with
    ⟨opened, hpending⟩ | ⟨before, pair, after, opened, rfl, hbefore, hpair, hstray⟩
  · cases opened using List.reverseRecOn with
    | nil => exact absurd (pending_nil.mp hpending) h
    | append_singleton inner pair => exact ⟨pair.1, .opening hpending⟩
  · exact ⟨pair.2, .closing hbefore hpair hstray⟩

theorem Balanced.culprit? (h : Balanced pairs text) (hpairs : pairs ⊆ bracketPairs) :
    culprit? pairs [] text = none := by
  rw [Text.culprit?, h.unclosed hpairs]
  rfl

theorem balanced_iff (hpairs : pairs ⊆ bracketPairs) :
    Balanced pairs text ↔ culprit? pairs [] text = none := by
  refine ⟨fun h => h.culprit? hpairs, fun h => ?_⟩
  by_contra hnot
  obtain ⟨bracket, hculprit⟩ := exists_culprit hpairs hnot
  rw [hculprit.culprit? hpairs] at h
  cases h

theorem culprit_iff (hpairs : pairs ⊆ bracketPairs) :
    Culprit pairs text bracket ↔ culprit? pairs [] text = some bracket := by
  refine ⟨fun h => h.culprit? hpairs, fun h => ?_⟩
  have hnot : ¬ Balanced pairs text := by
    rw [balanced_iff hpairs, h]
    exact Option.some_ne_none bracket
  obtain ⟨other, hother⟩ := exists_culprit hpairs hnot
  rw [hother.culprit? hpairs] at h
  exact Option.some.inj h ▸ hother

/-- A text has one culprit at most. -/
theorem Culprit.unique {other : Char} (h : Culprit pairs text bracket)
    (hother : Culprit pairs text other) (hpairs : pairs ⊆ bracketPairs) : bracket = other :=
  Option.some.inj ((h.culprit? hpairs).symm.trans (hother.culprit? hpairs))

instance : Decidable (Balanced bracketPairs text) :=
  decidable_of_iff _ (balanced_iff (List.Subset.refl bracketPairs)).symm

instance : Decidable (Culprit bracketPairs text bracket) :=
  decidable_of_iff _ (culprit_iff (List.Subset.refl bracketPairs)).symm

example : Culprit bracketPairs "a[(b] + (c".toList ']' := by decide

/-- Balanced text at the end of a text plays no part in whether it is balanced. -/
theorem Balanced.of_append (h : Balanced pairs (front ++ back)) (hback : Balanced pairs back)
    (hpairs : pairs ⊆ bracketPairs) : Balanced pairs front := by
  rw [balanced_iff hpairs] at h ⊢
  cases hfront : Text.unclosed pairs [] front with
  | ok opened =>
    rw [Text.culprit?, unclosed_append_ok hfront, hback.unclosed hpairs] at h
    rwa [Text.culprit?, hfront]
  | error bracket =>
    rw [Text.culprit?, unclosed_append_error hfront] at h
    cases h

theorem balanced_of_forall (h : ∀ c ∈ text, Ordinary pairs c) : Balanced pairs text := by
  induction text with
  | nil => exact .nil
  | cons c text ih =>
    obtain ⟨hc, htext⟩ := List.forall_mem_cons.mp h
    exact .cons hc (ih htext)

theorem Balanced.trimEnd (h : Balanced pairs text) (hpairs : pairs ⊆ bracketPairs) :
    Balanced pairs text.trimEnd := by
  rw [← Text.trimEnd_append_blanks text] at h
  refine h.of_append (balanced_of_forall fun c hc => ?_) hpairs
  exact ordinary_of_isBlank hpairs (List.mem_takeWhile_imp (List.mem_reverse.mp hc))

theorem Balanced.trim (h : Balanced pairs text) (hpairs : pairs ⊆ bracketPairs) :
    Balanced pairs text.trim := (h.trimStart hpairs).trimEnd hpairs

theorem length_trim_le (text : Text) : text.trim.length ≤ text.length := by
  have hstart : text.trimStart.length ≤ text.length := List.length_dropWhile_le _ _
  have hend := List.length_dropWhile_le isBlankChar (Text.trimStart text).reverse
  rw [List.length_reverse] at hend
  rw [Text.trim, Text.trimEnd, List.length_reverse]
  exact hend.trans hstart

theorem Fits.trim {n : Nat} (h : Fits pairs n text) (hpairs : pairs ⊆ bracketPairs) :
    Fits pairs n text.trim :=
  ⟨h.balanced.trim hpairs, (length_trim_le text).trans_lt h.length_lt⟩

end Text

namespace Division

variable {division : Division} {pairs : List (Char × Char)} {piece rest : Text} {bracket : Char}
  {texts : List Text}

/-- Whether a character after which no brackets are open ends a piece: a closing brace, which the
piece keeps, or a separator, which it does not. -/
def EndsAt (division : Division) (pairs : List (Char × Char)) (c : Char) : Bool → Prop
  | true => pairs ≠ [] ∧ division.endsAtBrace ∧ c = '}'
  | false => pairs = [] ∧ c = division.separator

/-- One step of a division, whatever the piece and what is left. The piece goes on with a character
that keeps the brackets in order, or else it ends where no brackets are open, with the character or
before it. -/
theorem piecesFrom_cons_cases (division : Division) (pairs : List (Char × Char)) (c : Char) :
    (∃ bracket, Text.track division.brackets pairs c = .error bracket ∧
      ∀ whole piece rest, division.piecesFrom whole pairs piece (c :: rest) =
        .error (.syntactic ⟨.unbalanced, [[bracket], whole.trim]⟩)) ∨
    (∃ opened, Text.track division.brackets pairs c = .ok opened ∧
      (opened = [] → ∀ keeps, ¬ division.EndsAt pairs c keeps) ∧
      ∀ whole piece rest, division.piecesFrom whole pairs piece (c :: rest) =
        division.piecesFrom whole opened (c :: piece) rest) ∨
    (Text.track division.brackets pairs c = .ok [] ∧ ∃ keeps : Bool,
      division.EndsAt pairs c keeps ∧
      ∀ whole piece rest, division.piecesFrom whole pairs piece (c :: rest) =
        division.put (if keeps then c :: piece else piece) <$>
          division.piecesFrom whole [] [] rest) := by
  simp only [piecesFrom, closing?, Text.track]
  cases hfind : division.brackets.find? fun pair => pair.1 == c with
  | some pair =>
    obtain rfl : pair.1 = c := by simpa using List.find?_some hfind
    have hopened : pair :: pairs ≠ [] := List.cons_ne_nil _ _
    exact .inr (.inl ⟨_, rfl, fun hnil => absurd hnil hopened, fun _ _ _ => rfl⟩)
  | none =>
    by_cases hclosing : division.isClosing c
    · have hany : division.brackets.any fun pair => pair.2 == c := hclosing
      simp only [Option.map_none, if_pos hclosing, if_pos hany]
      cases pairs with
      | nil => exact .inl ⟨_, rfl, fun _ _ _ => rfl⟩
      | cons innermost outer =>
        by_cases hcloses : innermost.2 = c
        · simp only [if_neg (not_not_intro hcloses), if_pos hcloses]
          split
          · case isTrue hends =>
            obtain ⟨hbrace, houter⟩ := Bool.and_eq_true_iff.mp hends
            obtain rfl : outer = [] := by simpa using houter
            have hbrace : division.endsAtBrace ∧ c = '}' := by simpa using hbrace
            exact .inr (.inr ⟨rfl, true, ⟨List.cons_ne_nil _ _, hbrace⟩, fun _ _ _ => rfl⟩)
          · case isFalse hgoes =>
            refine .inr (.inl ⟨_, rfl, ?_, fun _ _ _ => rfl⟩)
            rintro rfl (_ | _) hends
            · exact absurd hends.1 (List.cons_ne_nil _ _)
            · exact hgoes (by simpa using hends.2)
        · simp only [if_pos hcloses, if_neg hcloses]
          exact .inl ⟨_, rfl, fun _ _ _ => rfl⟩
    · have hany : ¬ division.brackets.any fun pair => pair.2 == c := hclosing
      simp only [Option.map_none, if_neg hclosing, if_neg hany]
      split
      · case isTrue hcut =>
        obtain ⟨hseparator, hpairs⟩ := Bool.and_eq_true_iff.mp hcut
        obtain rfl : pairs = [] := by simpa using hpairs
        exact .inr (.inr ⟨rfl, false, ⟨rfl, by simpa using hseparator⟩, fun _ _ _ => rfl⟩)
      · case isFalse hgoes =>
        refine .inr (.inl ⟨_, rfl, ?_, fun _ _ _ => rfl⟩)
        rintro rfl (_ | _) hends
        · exact hgoes (by simpa using hends.2)
        · exact hends.1 rfl

/-- A division stops at the culprit, if there is one. -/
theorem piecesFrom_of_culprit? (whole : Text)
    (h : Text.culprit? division.brackets pairs rest = some bracket) :
    division.piecesFrom whole pairs piece rest =
      .error (.syntactic ⟨.unbalanced, [[bracket], whole.trim]⟩) := by
  induction rest generalizing pairs piece with
  | nil =>
    obtain ⟨pair, hlast, rfl⟩ := Option.map_eq_some_iff.mp h
    rw [piecesFrom, hlast]
  | cons c rest ih =>
    rcases division.piecesFrom_cons_cases pairs c with
      ⟨other, htrack, hpieces⟩ | ⟨opened, htrack, -, hpieces⟩ | ⟨htrack, keeps, -, hpieces⟩
    · rw [Text.culprit?_cons_error htrack] at h
      rw [hpieces, Option.some.inj h]
    · rw [Text.culprit?_cons_ok htrack] at h
      rw [hpieces, ih h]
    · rw [Text.culprit?_cons_ok htrack] at h
      rw [hpieces, ih h]
      rfl

theorem fits_put {n : Nat} (hpairs : division.brackets ⊆ Text.bracketPairs)
    (hpiece : Text.Fits division.brackets n piece.reverse)
    (hothers : ∀ text ∈ texts, Text.Fits division.brackets n text) :
    ∀ text ∈ division.put piece texts, Text.Fits division.brackets n text := by
  rw [put]
  split
  · exact List.forall_mem_cons.mpr ⟨hpiece.trim hpairs, hothers⟩
  · exact hothers

/-- Without culprit the division goes through, and its pieces are balanced. -/
theorem fits_piecesFrom {n : Nat} (whole : Text) (hpairs : division.brackets ⊆ Text.bracketPairs)
    (hpending : Text.Pending division.brackets piece.reverse pairs)
    (hlength : piece.length + rest.length < n)
    (h : Text.culprit? division.brackets pairs rest = none) :
    ∃ texts, division.piecesFrom whole pairs piece rest = .ok texts ∧
      ∀ text ∈ texts, Text.Fits division.brackets n text := by
  induction rest generalizing pairs piece with
  | nil =>
    have hlast : pairs.getLast? = none := Option.map_eq_none_iff.mp h
    obtain rfl := List.getLast?_eq_none_iff.mp hlast
    have hlength : piece.reverse.length < n := by simpa using hlength
    exact ⟨_, rfl, fits_put hpairs ⟨Text.pending_nil.mp hpending, hlength⟩ (List.forall_mem_nil _)⟩
  | cons c rest ih =>
    rw [List.length_cons] at hlength
    rcases division.piecesFrom_cons_cases pairs c with
      ⟨other, htrack, hpieces⟩ | ⟨opened, htrack, -, hpieces⟩ | ⟨htrack, keeps, hends, hpieces⟩
    · rw [Text.culprit?_cons_error htrack] at h
      cases h
    · have hnext := hpending.track hpairs htrack
      rw [← List.reverse_cons] at hnext
      rw [Text.culprit?_cons_ok htrack] at h
      rw [hpieces]
      exact ih hnext (by rw [List.length_cons]; omega) h
    · have hended : Text.Fits division.brackets n
          (if keeps then c :: piece else piece).reverse := by
        cases keeps with
        | true =>
          have hnext := hpending.track hpairs htrack
          rw [← List.reverse_cons] at hnext
          exact ⟨Text.pending_nil.mp hnext, by simp; omega⟩
        | false =>
          obtain rfl : pairs = [] := hends.1
          exact ⟨Text.pending_nil.mp hpending, by simp; omega⟩
      rw [Text.culprit?_cons_ok htrack] at h
      obtain ⟨others, hothers, hfits⟩ := @ih [] [] (.balanced .nil) (by simp; omega) h
      rw [hpieces, hothers]
      exact ⟨_, rfl, fits_put hpairs hended hfits⟩

/-- The pieces of a balanced text are balanced. -/
theorem fits_pieces (division : Division) {n : Nat} {text : Text}
    (hpairs : division.brackets ⊆ Text.bracketPairs) (h : Text.Fits division.brackets n text) :
    ∃ texts, division.pieces text = .ok texts ∧
      ∀ piece ∈ texts, Text.Fits division.brackets n piece := by
  rw [pieces]
  split
  · exact ⟨[], rfl, List.forall_mem_nil _⟩
  · have hlength : ([] : Text).length + text.length < n := by simpa using h.length_lt
    exact fits_piecesFrom text hpairs (.balanced .nil) hlength (h.balanced.culprit? hpairs)

theorem pieces_of_culprit (division : Division) {text : Text}
    (hpairs : division.brackets ⊆ Text.bracketPairs)
    (h : text.Culprit division.brackets bracket) :
    division.pieces text = .error (.syntactic ⟨.unbalanced, [[bracket], text.trim]⟩) := by
  have hculprit := h.culprit? hpairs
  have hblank : ¬ text.isBlank := by
    intro hblank
    have hbalanced : Text.Balanced division.brackets text := Text.balanced_of_forall fun c hc =>
      Text.ordinary_of_isBlank hpairs (Text.isBlank_iff.mp hblank c hc)
    rw [hbalanced.culprit? hpairs] at hculprit
    cases hculprit
  rw [pieces, if_neg hblank, piecesFrom_of_culprit? text hculprit]

end Division
end RuleLang

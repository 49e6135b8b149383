import RuleLang.Proofs.Margins
import RuleLang.Proofs.Reading

/-!
Expressions and their spacing. A reader is run on a text and on the squeezed text: it reads the same
tree from both and leaves as much, or it fails on both for the same cause. Only the fragments that a
fault shows can be different. What a reader is told for the sake of such fragments, that is where a
text begins or what stands before it, is therefore arbitrary on both sides.
-/
namespace RuleLang

open Text

namespace Grammar

variable {α β : Type}

/-- Both readings succeed with related results, or both fail with the same template. -/
inductive Matches (related : α → α → Prop) : Except Fault α → Except Fault α → Prop
  | ok {a a' : α} (h : related a a') : Matches related (.ok a) (.ok a')
  | error {fault fault' : Fault} (h : fault.template = fault'.template) :
      Matches related (.error fault) (.error fault')

section Matches

variable {related : α → α → Prop} {related' : β → β → Prop} {reading reading' : Except Fault α}

theorem matches_return {a a' : α} (h : related a a') : Matches related (pure a) (pure a') := .ok h

theorem matches_throw {fault fault' : Fault} (h : fault.template = fault'.template) :
    Matches related (throw fault) (throw fault') := .error h

theorem matches_refl (reading : Except Fault α) : Matches Eq reading reading := by
  cases reading with
  | ok a => exact .ok rfl
  | error fault => exact .error rfl

theorem Matches.mono {wider : α → α → Prop} (h : Matches related reading reading')
    (himp : ∀ a a', related a a' → wider a a') : Matches wider reading reading' := by
  cases h with
  | ok h => exact .ok (himp _ _ h)
  | error h => exact .error h

theorem Matches.bind {next next' : α → Except Fault β} (h : Matches related reading reading')
    (hnext : ∀ a a', related a a' → Matches related' (next a) (next' a')) :
    Matches related' (reading >>= next) (reading' >>= next') := by
  cases h with
  | ok h => exact hnext _ _ h
  | error h => exact .error h

theorem Matches.map {f f' : α → β} (h : Matches related reading reading')
    (himp : ∀ a a', related a a' → related' (f a) (f' a')) :
    Matches related' (f <$> reading) (f' <$> reading') := by
  cases h with
  | ok h => exact .ok (himp _ _ h)
  | error h => exact .error h

/-- Two readings that both match a third one match each other. -/
theorem Matches.of_common {common : Except Fault α} (h : Matches Eq reading common)
    (h' : Matches Eq reading' common) : Matches Eq reading reading' := by
  cases h with
  | ok heq =>
    cases h' with
    | ok heq' => exact .ok (heq.trans heq'.symm)
  | error htemplate =>
    cases h' with
    | error htemplate' => exact .error (htemplate.trans htemplate'.symm)

end Matches

theorem put_squeeze {division : Division} {piece piece' : Text}
    (h : piece'.reverse = squeeze piece.reverse) (others : List Text) :
    division.put piece' (others.map squeeze) = (division.put piece others).map squeeze := by
  have hblank : piece'.isBlank = piece.isBlank := by
    rw [← isBlank_reverse, h, isBlank_squeeze, isBlank_reverse]
  unfold Division.put
  rw [h, hblank, trim_squeeze]
  split <;> rfl

theorem matches_piecesFrom {division : Division} (hdivision : division.IgnoresBlanks)
    (whole whole' : Text) (pairs : List (Char × Char)) {piece piece' rest : Text}
    (h : Beside piece piece' rest) :
    Matches (fun pieces pieces' => pieces' = pieces.map squeeze)
      (division.piecesFrom whole pairs piece rest)
      (division.piecesFrom whole' pairs piece' (squeeze rest)) := by
  induction rest generalizing pairs piece piece' with
  | nil =>
    unfold Division.piecesFrom
    split
    · exact matches_throw rfl
    · exact matches_return (put_squeeze h.reverse_eq_of_end [])
  | cons c rest ih =>
    by_cases hc : isBlankChar c
    · rw [Division.piecesFrom_blank hdivision hc]
      rcases h.blank hc with ⟨heq, hbeside⟩ | ⟨heq, hbeside⟩
      · rw [heq]
        exact ih pairs hbeside
      · rw [heq, Division.piecesFrom_blank hdivision isBlankChar_space]
        exact ih pairs hbeside
    · rw [squeeze_cons_of_not_blank hc]
      rcases division.piecesFrom_cons_cases pairs c with
        ⟨other, -, hpieces⟩ | ⟨opened, -, -, hpieces⟩ | ⟨-, keeps, -, hpieces⟩
      · rw [hpieces, hpieces]
        exact matches_throw rfl
      · rw [hpieces, hpieces]
        exact ih opened (h.char hc)
      · have hended : (if keeps then c :: piece' else piece').reverse =
            squeeze (if keeps then c :: piece else piece).reverse := by
          cases keeps with
          | true => exact h.reverse_cons_eq hc
          | false => exact h.reverse_eq hc
        rw [hpieces, hpieces]
        apply (ih [] (.start rest)).map
        rintro others _ rfl
        exact put_squeeze hended others

theorem matches_pieces {division : Division} (h : division.IgnoresBlanks) (text : Text) :
    Matches (fun pieces pieces' => pieces' = pieces.map squeeze) (division.pieces text)
      (division.pieces (squeeze text)) := by
  unfold Division.pieces
  rw [isBlank_squeeze]
  split
  · exact matches_return rfl
  · exact matches_piecesFrom h _ _ [] (.start text)

/-- What has been read from a text is read from the squeezed text too, and as much is left. -/
def Leaves (text : Text) (found found' : α × Text) : Prop :=
  found' = (found.1, squeeze found.2) ∧ found.2 <:+ text

theorem Leaves.mono {text text' : Text} {found found' : α × Text} (h : Leaves text found found')
    (hsuffix : text <:+ text') : Leaves text' found found' :=
  ⟨h.1, h.2.trans hsuffix⟩

theorem matches_enclosed {opening closing : Char} (hopening : ¬ isBlankChar opening)
    (hclosing : ¬ isBlankChar closing) (text : Text) :
    Matches (fun parts parts' => parts' = (squeeze parts.1, squeeze parts.2) ∧ parts.2 <:+ text)
      (enclosed opening closing text) (enclosed opening closing (squeeze text)) := by
  unfold enclosed
  rw [enclosed?_squeeze hopening hclosing]
  cases henclosed : text.enclosed? opening closing with
  | none => exact matches_throw rfl
  | some parts => exact matches_return ⟨rfl, enclosed?_suffix henclosed⟩

def MatchesInner (inner inner' : Inner) : Prop :=
  ∀ text after after', Matches Eq (inner text after) (inner' (squeeze text) after')

def MatchesRead (reader reader' : Text → Read) : Prop :=
  ∀ text, Matches (Leaves text) (reader text) (reader' (squeeze text))

section Readers

variable {inner inner' : Inner} {below below' operand₁ operand₂ : Text → Read}

theorem matches_index? (hinner : MatchesInner inner inner') (name name' text : Text) :
    Matches (fun found found' => found' = found.map (fun parts => (parts.1, squeeze parts.2)) ∧
        ∀ parts ∈ found, parts.2 <:+ text)
      (index? inner name text) (index? inner' name' (squeeze text)) := by
  have hstart : trimStart (squeeze text) = squeeze text.trimStart := trimStart_squeeze text
  unfold index?
  split
  · case _ rest htext =>
    have hsuffix : '[' :: rest <:+ text := htext ▸ trimStart_suffix text
    rw [hstart, htext, squeeze_cons_of_not_blank (by decide)]
    dsimp only
    rw [← squeeze_cons_of_not_blank (by decide)]
    apply (matches_enclosed (by decide) (by decide) _).bind
    rintro ⟨inside, left⟩ _ ⟨rfl, hleft⟩
    apply (hinner _ _ _).bind
    rintro index _ rfl
    refine matches_return ⟨rfl, ?_⟩
    rintro _ ⟨⟩
    exact hleft.trans hsuffix
  · case _ hnot =>
    have hnot' := squeeze_ne_cons (by decide) hnot
    split
    · case _ rest htext => exact absurd (hstart.symm.trans htext) (hnot' rest)
    · exact matches_return ⟨rfl, nofun⟩

theorem matches_methodOp (method : Text) (target : Tree) (source source' : Text) :
    Matches Eq (methodOp method target source) (methodOp method target source') := by
  unfold methodOp
  split
  · split
    · exact matches_return rfl
    · exact matches_return rfl
    · exact matches_throw rfl
  · split
    · split
      · exact matches_return rfl
      · exact matches_throw rfl
    · exact matches_throw rfl

theorem matches_call (start start' : Text) (target : Tree) (text : Text) :
    Matches (Leaves text) (call start target text) (call start' target (squeeze text)) := by
  have hsuffix := trimStart_suffix text
  rw [call, call, trimStart_squeeze]
  split
  · case _ rest htext =>
    simp only [htext, squeeze_cons_of_not_blank (by decide : ¬ isBlankChar '.'),
      trimStart_squeeze, afterWord_squeeze, Word.atStart?_squeeze]
    apply (matches_refl _).bind
    rintro word _ rfl
    split
    · split
      · case _ arguments harguments =>
        have hleft : '(' :: arguments <:+ text := by
          rw [← harguments]
          rw [htext] at hsuffix
          have hcalled := (trimStart_suffix rest).trans ((List.suffix_cons _ _).trans hsuffix)
          exact (trimStart_suffix _).trans ((afterWord_suffix _).trans hcalled)
        simp only [harguments, squeeze_cons_of_not_blank (by decide : ¬ isBlankChar '(')]
        rw [← squeeze_cons_of_not_blank (by decide)]
        apply (matches_enclosed (by decide) (by decide) _).bind
        rintro ⟨inside, rest⟩ _ ⟨rfl, hrest⟩
        dsimp only
        rw [isBlank_squeeze]
        split
        · apply (matches_methodOp _ _ _ _).bind
          rintro op _ rfl
          exact matches_return ⟨rfl, hrest.trans hleft⟩
        · exact matches_throw rfl
      · case _ hnot =>
        have hnot' := squeeze_ne_cons (by decide) hnot
        split
        · case _ arguments harguments => exact absurd harguments (hnot' arguments)
        · exact matches_throw rfl
    · exact matches_throw rfl
  · case _ hnot =>
    have hnot' := squeeze_ne_cons (by decide) hnot
    split
    · case _ rest htext => exact absurd htext (hnot' rest)
    · exact matches_return ⟨rfl, hsuffix⟩

theorem matches_reference (hinner : MatchesInner inner inner') (name start start' text : Text) :
    Matches (Leaves text) (reference inner name start text)
      (reference inner' name start' (squeeze text)) := by
  unfold reference
  apply (matches_index? hinner _ _ _).bind
  rintro row _ ⟨rfl, hrow⟩
  cases row with
  | none => exact matches_call _ _ _ _
  | some row =>
    have hrow := hrow row rfl
    apply (matches_index? hinner _ _ _).bind
    rintro column _ ⟨rfl, hcolumn⟩
    cases column with
    | none => exact (matches_call _ _ _ _).mono fun _ _ h => h.mono hrow
    | some column =>
      have hcolumn := (hcolumn column rfl).trans hrow
      exact (matches_call _ _ _ _).mono fun _ _ h => h.mono hcolumn

theorem matches_extremum (hinner : MatchesInner inner inner') (op : BinaryOp) (word text : Text) :
    Matches (Leaves text) (extremum inner op word text)
      (extremum inner' op word (squeeze text)) := by
  unfold extremum
  apply (matches_enclosed (by decide) (by decide) _).bind
  rintro ⟨inside, rest⟩ _ ⟨rfl, hrest⟩
  apply (matches_pieces (by decide) _).bind
  rintro pieces _ rfl
  rcases pieces with _ | ⟨left, _ | ⟨right, _ | ⟨third, others⟩⟩⟩
  · exact matches_throw rfl
  · exact matches_throw rfl
  · apply (hinner _ _ _).bind
    rintro left _ rfl
    apply (hinner _ _ _).bind
    rintro right _ rfl
    exact matches_return ⟨rfl, hrest⟩
  · exact matches_throw rfl

theorem matches_atom (hinner : MatchesInner inner inner') (source source' text : Text) :
    Matches (Leaves text) (atom inner source text) (atom inner' source' (squeeze text)) := by
  have hsuffix := trimStart_suffix text
  rw [atom, atom, trimStart_squeeze]
  generalize text.trimStart = start at hsuffix ⊢
  dsimp only
  split
  · exact matches_throw rfl
  · case _ rest =>
    simp only [squeeze_cons_of_not_blank (by decide : ¬ isBlankChar '(')]
    rw [← squeeze_cons_of_not_blank (by decide)]
    apply (matches_enclosed (by decide) (by decide) _).bind
    rintro ⟨inside, left⟩ _ ⟨rfl, hleft⟩
    apply (hinner _ _ _).bind
    rintro tree _ rfl
    exact matches_return ⟨rfl, hleft.trans hsuffix⟩
  · case _ rest =>
    simp only [squeeze_cons_of_not_blank (by decide : ¬ isBlankChar '{')]
    exact matches_throw rfl
  · case _ hnil hparen hbrace =>
    have hparen' := squeeze_ne_cons (by decide) hparen
    have hbrace' := squeeze_ne_cons (by decide) hbrace
    split
    · case _ heq => exact absurd (squeeze_eq_nil_iff.mp heq) hnil
    · case _ rest heq => exact absurd heq (hparen' rest)
    · case _ rest heq => exact absurd heq (hbrace' rest)
    · have hafter : start.afterWord <:+ text := (afterWord_suffix start).trans hsuffix
      have hnext : trimStart start.afterWord <:+ text := (trimStart_suffix _).trans hafter
      rw [Word.atStart?_squeeze, afterWord_squeeze, trimStart_squeeze]
      apply (matches_refl _).bind
      rintro word _ rfl
      split
      · exact matches_throw rfl
      · exact matches_return ⟨rfl, hafter⟩
      · split
        · exact matches_throw rfl
        · generalize trimStart start.afterWord = next at hnext ⊢
          split
          · case _ op arguments hop =>
            simp only [hop, squeeze_cons_of_not_blank (by decide : ¬ isBlankChar '(')]
            rw [← squeeze_cons_of_not_blank (by decide)]
            exact (matches_extremum hinner _ _ _).mono fun _ _ h => h.mono hnext
          · case _ hnot =>
            split
            · case _ op arguments hop hopen =>
              obtain ⟨after, heq, -⟩ := squeeze_eq_cons (by decide) hopen
              exact (hnot op after hop heq).elim
            · exact (matches_reference hinner _ _ _ _).mono fun _ _ h => h.mono hnext

/-- A step operator is applied, and `left` is left. -/
theorem matches_step (op : UnaryOp) (target : Tree) (start start' rest rest' : Text)
    {left text : Text} (h : left <:+ text) :
    Matches (Leaves text) (do return (← step op target start rest, left))
      (do return (← step op target start' rest', squeeze left)) := by
  unfold step
  split
  · exact matches_return ⟨rfl, h⟩
  · exact matches_throw rfl

theorem matches_stepped (hinner : MatchesInner inner inner') (source source' text : Text) :
    Matches (Leaves text) (stepped inner source text) (stepped inner' source' (squeeze text)) := by
  have hsuffix := trimStart_suffix text
  unfold stepped
  dsimp only
  rw [trimStart_squeeze]
  apply (matches_atom hinner _ _ _).bind
  rintro ⟨target, rest⟩ _ ⟨rfl, hrest⟩
  have hrest : rest.trimStart <:+ text := ((trimStart_suffix rest).trans hrest).trans hsuffix
  dsimp only
  rw [trimStart_squeeze, Operator.atStart?_squeeze]
  split
  · case _ k hop =>
    rw [Operator.drop_squeeze hop]
    exact matches_step _ _ _ _ _ _ ((List.drop_suffix _ _).trans hrest)
  · case _ k hop =>
    rw [Operator.drop_squeeze hop]
    exact matches_step _ _ _ _ _ _ ((List.drop_suffix _ _).trans hrest)
  · exact matches_return ⟨rfl, hrest⟩

theorem afterLeast?_squeeze (text : Text) :
    afterLeast? (squeeze text) = (afterLeast? text).map squeeze := by
  unfold afterLeast?
  rw [trimStart_squeeze, firstWord_squeeze, afterWord_squeeze]
  split <;> rfl

theorem afterLeast?_suffix {text rest : Text} (h : afterLeast? text = some rest) :
    rest <:+ text := by
  unfold afterLeast? at h
  split at h
  · cases h
    exact (afterWord_suffix _).trans (trimStart_suffix text)
  · cases h

theorem matches_operand (hinner : MatchesInner inner inner') (hbelow : MatchesRead below below')
    (source source' : Text) :
    MatchesRead (operand inner below source) (operand inner' below' source') := by
  intro text
  have hsuffix := trimStart_suffix text
  unfold operand
  dsimp only
  rw [trimStart_squeeze, Operator.atStart?_squeeze]
  generalize text.trimStart = start at hsuffix ⊢
  have hdrop (k : Nat) : start.drop k <:+ text := (List.drop_suffix k start).trans hsuffix
  split
  · case _ k hop =>
    rw [Operator.drop_squeeze hop]
    apply (matches_stepped hinner _ _ _).bind
    rintro ⟨target, rest⟩ _ ⟨rfl, hrest⟩
    exact matches_step _ _ _ _ _ _ (hrest.trans (hdrop k))
  · case _ k hop =>
    rw [Operator.drop_squeeze hop]
    apply (matches_stepped hinner _ _ _).bind
    rintro ⟨target, rest⟩ _ ⟨rfl, hrest⟩
    exact matches_step _ _ _ _ _ _ (hrest.trans (hdrop k))
  · case _ k hop =>
    rw [Operator.drop_squeeze hop, afterLeast?_squeeze]
    cases hleast : afterLeast? (start.drop k) with
    | some rest => exact matches_return ⟨rfl, (afterLeast?_suffix hleast).trans (hdrop k)⟩
    | none =>
      apply (hbelow _).bind
      rintro ⟨target, rest⟩ _ ⟨rfl, hrest⟩
      exact matches_return ⟨rfl, hrest.trans (hdrop k)⟩
  · case _ k hop =>
    rw [Operator.drop_squeeze hop]
    apply (hbelow _).bind
    rintro ⟨target, rest⟩ _ ⟨rfl, hrest⟩
    exact matches_return ⟨rfl, hrest.trans (hdrop k)⟩
  · case _ k hop =>
    rw [Operator.drop_squeeze hop]
    exact (hbelow _).mono fun _ _ h => h.mono (hdrop k)
  · exact (matches_stepped hinner _ _ _).mono fun _ _ h => h.mono hsuffix

theorem linkAt?_squeeze (text : Text) : linkAt? (squeeze text) = linkAt? text := by
  rw [linkAt?, Operator.atStart?_squeeze, linkAt?]

/-- Each side has enough rounds for its own text. -/
theorem matches_links (hoperand : MatchesRead operand₁ operand₂) {bound bound' : Nat}
    (start start' : Text) (first : Tree) (read : List (BinaryOp × Tree)) {text : Text}
    (hbound : text.length ≤ bound) (hbound' : (squeeze text).length ≤ bound') :
    Matches (Leaves text) (links operand₁ bound start first read text)
      (links operand₂ bound' start' first read (squeeze text)) := by
  induction bound generalizing bound' start start' first read text with
  | zero =>
    obtain rfl : text = [] := List.length_eq_zero_iff.mp (Nat.le_zero.mp hbound)
    rw [links_end (.inl rfl), links_end (.inr rfl)]
    exact matches_return ⟨rfl, trimStart_suffix _⟩
  | succ bound ih =>
    have hsuffix := trimStart_suffix text
    have hlink' : linkAt? (trimStart (squeeze text)) = linkAt? text.trimStart := by
      rw [trimStart_squeeze, linkAt?_squeeze]
    cases hlink : linkAt? text.trimStart with
    | none =>
      rw [links_end (.inr hlink), links_end (.inr (hlink'.trans hlink)), trimStart_squeeze]
      exact matches_return ⟨rfl, hsuffix⟩
    | some link =>
      obtain ⟨op, k⟩ := link
      rw [hlink] at hlink'
      obtain ⟨operator, hoperator⟩ := operator_of_linkAt? hlink
      obtain ⟨operator', hoperator'⟩ := operator_of_linkAt? hlink'
      have hdrop : (trimStart (squeeze text)).drop k = squeeze (text.trimStart.drop k) := by
        rw [trimStart_squeeze, Operator.drop_squeeze hoperator]
      have hnext : text.trimStart.drop k <:+ text := (List.drop_suffix _ _).trans hsuffix
      have hlt := Operator.length_drop_lt hoperator
      have hlt' := Operator.length_drop_lt hoperator'
      rw [hdrop] at hlt'
      obtain ⟨bound', rfl⟩ : ∃ n, bound' = n + 1 := ⟨bound' - 1, by omega⟩
      have hlater {rest : Text} (hrest : rest <:+ text.trimStart.drop k) :
          rest.length ≤ bound ∧ (squeeze rest).length ≤ bound' := by
        have hle := hrest.length_le
        have hle' := (squeeze_suffix hrest).length_le
        omega
      by_cases hop : op = .assign
      · subst hop
        rw [links_assign hlink, links_assign hlink', hdrop, trimStart_squeeze]
        split
        · apply (hoperand _).bind
          rintro ⟨value, rest⟩ _ ⟨rfl, hrest⟩
          have hrest : rest <:+ text.trimStart.drop k := hrest.trans (trimStart_suffix _)
          apply (ih _ _ _ _ (hlater hrest).1 (hlater hrest).2).bind
          rintro ⟨source, left⟩ _ ⟨rfl, hleft⟩
          exact matches_return ⟨rfl, (hleft.trans hrest).trans hnext⟩
        · exact matches_throw rfl
      · rw [links_operator hop hlink, links_operator hop hlink', hdrop]
        apply (hoperand _).bind
        rintro ⟨operand, rest⟩ _ ⟨rfl, hrest⟩
        exact (ih _ _ _ _ (hlater hrest).1 (hlater hrest).2).mono fun _ _ h =>
          h.mono (hrest.trans hnext)

theorem matches_chain (hoperand : MatchesRead operand₁ operand₂) :
    MatchesRead (chain operand₁) (chain operand₂) := by
  intro text
  have hsuffix := trimStart_suffix text
  unfold chain
  dsimp only
  rw [trimStart_squeeze]
  apply (hoperand _).bind
  rintro ⟨first, rest⟩ _ ⟨rfl, hrest⟩
  have hlength := hrest.length_le
  have hlength' := (squeeze_suffix hrest).length_le
  exact (matches_links hoperand _ _ _ _ hlength hlength').mono fun _ _ h =>
    h.mono (hrest.trans hsuffix)

end Readers

theorem matches_expression_prefixed (limit room : Nat) :
    MatchesInner (expression limit room) (expression limit room) ∧
      ∀ source source', MatchesRead (prefixed limit room source) (prefixed limit room source') := by
  induction room with
  | zero =>
    refine ⟨fun text after after' => ?_, fun source source' text => ?_⟩
    · unfold expression
      rw [isBlank_squeeze]
      split
      · exact matches_throw rfl
      · exact matches_throw rfl
    · unfold prefixed
      exact matches_throw rfl
  | succ room ih =>
    obtain ⟨hinner, hbelow⟩ := ih
    refine ⟨fun text after after' => ?_, fun source source' text => ?_⟩
    · unfold expression
      rw [isBlank_squeeze]
      split
      · exact matches_throw rfl
      · have hoperand := matches_operand hinner (hbelow text (squeeze text)) text (squeeze text)
        apply (matches_chain hoperand text).bind
        rintro ⟨tree, rest⟩ _ ⟨rfl, -⟩
        dsimp only
        rw [trimStart_squeeze]
        generalize rest.trimStart = left
        cases left with
        | nil => exact matches_return rfl
        | cons c left =>
          obtain ⟨d, left', heq⟩ := exists_squeeze_cons c left
          simp only [heq]
          exact matches_throw rfl
    · unfold prefixed
      exact matches_operand hinner (hbelow source source') source source' text

theorem matches_inner (limit room : Nat) :
    MatchesInner (expression limit room) (expression limit room) :=
  (matches_expression_prefixed limit room).1

end Grammar

end RuleLang

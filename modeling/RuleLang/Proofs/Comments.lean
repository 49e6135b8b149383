import RuleLang.Proofs.Spelling
import RuleLang.Text.Comment
import RuleLang.Text.Zipper

/-!
Texts without comments. Stripping comments leaves a text as it is that has a single line and no
two slashes in a row. The spelling of a statement is such a text: the one slash in it is the sign
for division, and an operand comes after it. Any text gets no longer when comments are stripped.
-/
namespace RuleLang

namespace Text

/-- A text of a single line in which no comment begins, nor at its end. -/
structure IsCode (text : Text) : Prop where
  single_line : '\n' ∉ text
  no_comment : ∀ rest, beforeComment (text ++ rest) = text ++ beforeComment rest

theorem isCode_nil : IsCode [] := ⟨nofun, fun _ => rfl⟩

theorem IsCode.append {front back : Text} (hfront : IsCode front) (hback : IsCode back) :
    IsCode (front ++ back) where
  single_line hmem :=
    (List.mem_append.mp hmem).elim hfront.single_line hback.single_line
  no_comment rest := by
    rw [List.append_assoc, hfront.no_comment, hback.no_comment, List.append_assoc]

theorem isCode_char {c : Char} (hline : c ≠ '\n') (hslash : c ≠ '/') : IsCode [c] where
  single_line hmem := hline (List.mem_singleton.mp hmem).symm
  no_comment rest := beforeComment.eq_3 c rest (fun _ h => absurd h hslash)

theorem isCode_of_forall {text : Text} (h : ∀ c ∈ text, c ≠ '\n' ∧ c ≠ '/') : IsCode text := by
  induction text with
  | nil => exact isCode_nil
  | cons c text ih =>
    obtain ⟨hc, htext⟩ := List.forall_mem_cons.mp h
    exact (isCode_char hc.1 hc.2).append (ih htext)

/-- A slash begins no comment if something else comes after it. -/
theorem IsCode.slash {c : Char} {text : Text} (h : IsCode (c :: text)) (hc : c ≠ '/') :
    IsCode ('/' :: c :: text) where
  single_line hmem := by
    rcases List.mem_cons.mp hmem with heq | hmem
    · exact absurd heq (by decide)
    · exact h.single_line hmem
  no_comment rest := by
    have hrest := h.no_comment rest
    rw [List.cons_append] at hrest
    rw [List.cons_append, List.cons_append, beforeComment.eq_3, hrest]
    · rfl
    · intro tail _ htail
      exact hc (List.cons.inj htail).1

theorem IsCode.within {opening closing : Char} {text : Text} (h : IsCode text)
    (hpair : (opening, closing) ∈ bracketPairs) : IsCode (Text.within opening closing text) := by
  have hpairs : ∀ pair ∈ bracketPairs,
      (pair.1 ≠ '\n' ∧ pair.1 ≠ '/') ∧ pair.2 ≠ '\n' ∧ pair.2 ≠ '/' := by decide
  obtain ⟨ho, hc⟩ := hpairs _ hpair
  exact (isCode_char ho.1 ho.2).append (h.append (isCode_char hc.1 hc.2))

theorem linesFrom_of_single_line {text : Text} (h : '\n' ∉ text) (begun : Text)
    (hne : begun ++ text ≠ []) : linesFrom begun text = [begun.reverse ++ text] := by
  induction text generalizing begun with
  | nil =>
    rw [List.append_nil] at hne
    rw [linesFrom, if_neg (by simpa using hne), List.append_nil]
  | cons c text ih =>
    obtain ⟨hc, htext⟩ := not_or.mp (List.mem_cons.not.mp h)
    rw [linesFrom.eq_3 begun c text fun heq => hc heq.symm, ih htext (c :: begun) nofun]
    simp

/-- Stripping comments leaves a text without comments as it is. -/
theorem IsCode.stripComments {text : Text} (h : IsCode text) : text.stripComments = text := by
  by_cases hnil : text = []
  · subst hnil
    rfl
  · have hcomment := h.no_comment []
    rw [List.append_nil, beforeComment, List.append_nil] at hcomment
    rw [Text.stripComments, lines, linesFrom_of_single_line h.single_line [] (by simpa using hnil),
      List.map_singleton, List.intercalate_singleton]
    exact hcomment

theorem length_le_byteSize (text : Text) : text.length ≤ Text.byteSize text := by
  induction text with
  | nil => exact Nat.le_refl 0
  | cons c text ih =>
    have hpos := c.utf8Size_pos
    simp only [Text.byteSize, List.length_cons]
    omega

theorem length_beforeComment_le (line : Text) : (beforeComment line).length ≤ line.length := by
  fun_induction beforeComment line with
  | case1 => exact Nat.le_refl 0
  | case2 => exact Nat.zero_le _
  | case3 c rest _ ih => exact Nat.succ_le_succ ih

theorem length_dropReturn_le (line : Text) : (dropReturn line).length ≤ line.length := by
  unfold dropReturn
  split
  · exact Nat.le_succ _
  · exact Nat.le_refl _

/-- The length of lines with a line end after each. -/
def lengthOfLines (lines : List Text) : Nat := (lines.map fun line => line.length + 1).sum

theorem lengthOfLines_linesFrom_le (begun text : Text) :
    lengthOfLines (linesFrom begun text) ≤ begun.length + text.length + 1 := by
  fun_induction linesFrom begun text with
  | case1 => exact Nat.zero_le _
  | case2 begun _ => simp [lengthOfLines]
  | case3 begun rest ih =>
    have hline := length_dropReturn_le begun
    simp only [lengthOfLines, List.map_cons, List.sum_cons, List.length_reverse, List.length_cons,
      List.length_nil] at ih ⊢
    omega
  | case4 begun c rest _ ih =>
    simp only [List.length_cons] at ih ⊢
    omega

theorem length_intercalate_le (lines : List Text) :
    (['\n'].intercalate lines).length ≤ lengthOfLines lines - 1 := by
  induction lines with
  | nil => exact Nat.zero_le _
  | cons line lines ih =>
    by_cases hlast : lines = []
    · subst hlast
      simp [lengthOfLines]
    · obtain ⟨next, others, rfl⟩ := List.exists_cons_of_ne_nil hlast
      rw [List.intercalate_cons_of_ne_nil hlast]
      simp only [lengthOfLines, List.map_cons, List.sum_cons, List.length_append,
        List.length_singleton] at ih ⊢
      omega

theorem length_stripComments_le (text : Text) : text.stripComments.length ≤ text.length := by
  have hlines := lengthOfLines_linesFrom_le [] text
  have hstripped : lengthOfLines (text.lines.map beforeComment) ≤ lengthOfLines text.lines := by
    unfold lengthOfLines
    rw [List.map_map]
    exact List.sum_le_sum fun line _ => Nat.succ_le_succ (length_beforeComment_le line)
  have hjoined := length_intercalate_le (text.lines.map beforeComment)
  rw [List.length_nil, ← lines] at hlines
  rw [stripComments]
  omega

end Text

theorem isCode_of_inWord {word : Text} (h : ∀ c ∈ word, inWord c) : word.IsCode := by
  refine Text.isCode_of_forall fun c hc => ⟨?_, ?_⟩
  · rintro rfl
    exact absurd (h _ hc) (by decide)
  · rintro rfl
    exact absurd (h _ hc) (by decide)

theorem isCode_spellNumber {n : Int32} (hn : IsLiteral n) : (spellNumber n).IsCode := by
  rcases hn with hn | rfl
  · rw [spellNumber_of_nonneg hn]
    exact isCode_of_inWord (inWord_ofNat _)
  · exact Text.isCode_of_forall (by decide)

theorem UnaryOp.isCode_spell (op : UnaryOp) {operand : Text} (h : operand.IsCode) :
    Text.IsCode (op.spell operand) := by
  have hbefore (sign : Text) (hsign : ∀ c ∈ sign, c ≠ '\n' ∧ c ≠ '/') :
      Text.IsCode (Text.within '(' ')' (sign ++ operand)) :=
    ((Text.isCode_of_forall hsign).append h).within (by decide)
  have hafter (sign : Text) (hsign : ∀ c ∈ sign, c ≠ '\n' ∧ c ≠ '/') :
      Text.IsCode (operand ++ sign) := h.append (Text.isCode_of_forall hsign)
  cases op with
  | negate => exact hbefore ['-'] (by decide)
  | not => exact hbefore ['!'] (by decide)
  | preIncrement => exact hbefore ['+', '+'] (by decide)
  | preDecrement => exact hbefore ['-', '-'] (by decide)
  | postIncrement => exact (hafter ['+', '+'] (by decide)).within (by decide)
  | postDecrement => exact (hafter ['-', '-'] (by decide)).within (by decide)
  | size | rowSize => exact hafter ".size()".toList (by decide)
  | sort => exact hafter ".sort()".toList (by decide)
  | returning => exact (Text.isCode_of_forall (by decide)).append h

theorem BinaryOp.isCode_spell (op : BinaryOp) {left right : Text} (hl : left.IsCode)
    (hr : right.IsCode) (hright : IsOperand right) : Text.IsCode (op.spell left right) := by
  have hcomma : Text.IsCode (Text.within '(' ')' (left ++ ',' :: right)) :=
    (hl.append ((Text.isCode_char (by decide) (by decide)).append hr)).within (by decide)
  have hslash : Text.IsCode ('/' :: right) := by
    cases right with
    | nil => exact absurd rfl hright.nonempty
    | cons c right =>
      refine hr.slash ?_
      rintro rfl
      exact absurd (hright.head '/' rfl) (by decide)
  cases op with
  | divide => exact (hl.append hslash).within (by decide)
  | max | min => exact (Text.isCode_of_forall (by decide)).append hcomma
  | _ => exact (hl.append ((Text.isCode_of_forall (by decide)).append hr)).within (by decide)

namespace Tree

theorem IsExpression.isCode {tree : Tree} (h : tree.IsExpression) : tree.spell.IsCode := by
  induction h with
  | number hn => exact isCode_spellNumber hn
  | name hx => exact isCode_of_inWord hx.inWord
  | element hx _ ih => exact (isCode_of_inWord hx.inWord).append (ih.within (by decide))
  | cell hx _ _ ihrow ihcolumn =>
    exact (isCode_of_inWord hx.inWord).append
      ((ihrow.within (by decide)).append (ihcolumn.within (by decide)))
  | negate _ ih | not _ ih | step _ _ _ ih => exact UnaryOp.isCode_spell _ ih
  | size hx | sort hx => exact UnaryOp.isCode_spell _ (isCode_of_inWord hx.inWord)
  | rowSize hx _ ih =>
    exact UnaryOp.isCode_spell _ ((isCode_of_inWord hx.inWord).append (ih.within (by decide)))
  | binary _ _ hr ihl ihr => exact BinaryOp.isCode_spell _ ihl ihr hr.isOperand
  | assign _ _ hv iht ihv => exact BinaryOp.isCode_spell _ iht ihv hv.isOperand

theorem IsClause.isCode {tree : Tree} (h : tree.IsClause) : tree.spell.IsCode := by
  rcases h with rfl | h
  · exact Text.isCode_nil
  · exact h.isCode

theorem isCode_spellAll {statements : List Tree} (h : ∀ s ∈ statements, s.spell.IsCode) :
    (spellAll statements).IsCode := by
  induction statements with
  | nil => exact Text.isCode_nil
  | cons tree trees ih =>
    obtain ⟨htree, htrees⟩ := List.forall_mem_cons.mp h
    cases trees with
    | nil => exact htree
    | cons next trees =>
      exact htree.append ((Text.isCode_char (by decide) (by decide)).append (ih htrees))

theorem IsStatement.isCode {loops : Nat} {tree : Tree} (h : tree.IsStatement loops) :
    tree.spell.IsCode := by
  have hword (word : Text) (hword : ∀ c ∈ word, c ≠ '\n' ∧ c ≠ '/') {text : Text}
      (htext : text.IsCode) : Text.IsCode (word ++ text) :=
    (Text.isCode_of_forall hword).append htext
  induction h with
  | empty => exact Text.isCode_nil
  | expression h => exact h.isCode
  | returning h => exact UnaryOp.isCode_spell _ h.isCode
  | breakLoop => exact Text.isCode_of_forall (by decide)
  | ifThen hc _ ih => exact hword "if".toList (by decide) ((hc.isCode.within (by decide)).append ih)
  | ifElse hc _ _ ihyes ihno =>
    exact hword "if".toList (by decide) ((hc.isCode.within (by decide)).append
      (ihyes.append (hword ";else ".toList (by decide) ihno)))
  | whileLoop hc _ ih =>
    exact hword "while".toList (by decide) ((hc.isCode.within (by decide)).append ih)
  | forLoop hs hc hu _ ih =>
    have hclauses := hs.isCode.append (hword [';'] (by decide)
      (hc.isCode.append (hword [';'] (by decide) hu.isCode)))
    exact hword "for".toList (by decide) ((hclauses.within (by decide)).append ih)
  | block _ _ ih => exact (isCode_spellAll ih).within (by decide)

end Tree
end RuleLang

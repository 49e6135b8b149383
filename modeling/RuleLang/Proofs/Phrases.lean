import RuleLang.Proofs.Comments
import RuleLang.Proofs.Refinement
import RuleLang.Proofs.Statements

/-!
Sources that are a single expression. Blanks may stand after an operand, and the reader of
operands passes over them. A source that is one piece and begins like an expression is a rule of
one statement, and whatever the reader of expressions makes of it, be it a tree or a fault, is
what is made of the source.
-/
namespace RuleLang

namespace Text

theorem head_trimStart (text : Text) : ∀ c ∈ text.trimStart.head?, ¬ isBlankChar c := by
  intro c hc
  have hhead := List.head?_dropWhile_not isBlankChar text
  rw [show (text.dropWhile isBlankChar).head? = some c from hc] at hhead
  simpa using hhead

theorem trimStart_trimStart (text : Text) : text.trimStart.trimStart = text.trimStart :=
  trimStart_of_head text.head_trimStart

end Text

namespace Grammar

variable {inner : Inner} {below : Text → Read} {limit room : Nat} {source text rest : Text}

/-- What can stand after an operand: no more of a word and, blanks aside, no argument list, index,
method or step operator. -/
structure Closes (rest : Text) : Prop where
  word : ∀ c ∈ rest.head?, ¬ inWord c
  brackets : ∀ c ∈ rest.trimStart.head?, c ∉ ['(', '[', '.']
  step : ∀ op n, Operator.atStart? rest.trimStart = some (op, n) →
    op ≠ .increment ∧ op ≠ .decrement

theorem closes_blank (h : rest.isBlank) : Closes rest := by
  have htrim := Text.trimStart_of_isBlank h
  refine ⟨fun c hc hword => ?_, ?_, ?_⟩
  · exact not_blank_of_inWord hword (Text.isBlank_iff.mp h c (List.mem_of_mem_head? hc))
  · rw [htrim]
    exact nofun
  · rw [htrim]
    exact nofun

theorem closes_nil : Closes [] := closes_blank rfl

theorem Closes.stops_at (h : Closes rest) (c : Char) (hc : c ∈ ['(', '[', '.']) :
    ∀ d ∈ rest.trimStart.head?, ¬ isBlankChar d ∧ d ≠ c := by
  intro d hd
  refine ⟨rest.head_trimStart d hd, ?_⟩
  rintro rfl
  exact h.brackets d hd hc

theorem atom_name_closes {x : String} (hx : IsIdentifier x) (h : Closes rest) :
    atom inner source (x.toList ++ rest) = .ok (.name x, rest.trimStart) := by
  rw [atom_of_word (Word.atStart?_name hx h.word), Text.afterWord_append hx.inWord h.word]
  dsimp only
  rw [hx.no_keyword]
  dsimp only
  split
  · case _ heq => exact absurd rfl (h.stops_at '(' (by decide) '(' (by rw [heq]; rfl)).2
  · rw [reference_name (h.stops_at '[' (by decide)), call_none (h.stops_at '.' (by decide))]

/-- An operand after which no step operator stands. -/
theorem stepped_closes {result : Except Fault Tree} {left : Text} (htext : text.trimStart = text)
    (hatom : atom inner source text = (·, left) <$> result) (hleft : left.trimStart = rest.trimStart)
    (h : Closes rest) : stepped inner source text = (·, rest.trimStart) <$> result := by
  cases result with
  | error fault =>
    simp only [stepped, htext, hatom]
    rfl
  | ok tree =>
    have hatom : atom inner source text = .ok (tree, left) := hatom
    have hstep := h.step
    simp only [stepped, htext, hatom, ok_bind, hleft]
    split
    · case _ heq => exact absurd rfl (hstep _ _ heq).1
    · case _ heq => exact absurd rfl (hstep _ _ heq).2
    · rfl

/-- The reader of operands begins by passing over blanks. -/
theorem operand_trimStart (below : Text → Read) (source text : Text) :
    operand inner below source text.trimStart = operand inner below source text := by
  simp only [operand, Text.trimStart_trimStart]

theorem operand_closes {front left : Text} {result : Except Fault Tree} (hfront : IsOperand front)
    (hatom : atom inner source (front ++ rest) = (·, left) <$> result)
    (hleft : left.trimStart = rest.trimStart) (h : Closes rest) :
    operand inner below source (front ++ rest) = (·, rest.trimStart) <$> result := by
  rw [operand_eq_stepped hfront]
  exact stepped_closes (hfront.trimStart_append rest) hatom hleft h

theorem operand_minus (h : Operator.atStart? ('-' :: text) = some (.minus, 1))
    (hleast : afterLeast? text = none) (below : Text → Read) (source : Text) :
    operand inner below source ('-' :: text) =
      (fun found => (.unary .negate found.1, found.2)) <$> below text := by
  have htrim : Text.trimStart ('-' :: text) = '-' :: text :=
    Text.trimStart_cons_of_not_blank (by decide) text
  simp only [operand, htrim, h, List.drop_succ_cons, List.drop_zero, hleast]
  cases below text <;> rfl

theorem operand_bang (h : Operator.atStart? ('!' :: text) = some (.bang, 1))
    (below : Text → Read) (source : Text) :
    operand inner below source ('!' :: text) =
      (fun found => (.unary .not found.1, found.2)) <$> below text := by
  have htrim : Text.trimStart ('!' :: text) = '!' :: text :=
    Text.trimStart_cons_of_not_blank (by decide) text
  simp only [operand, htrim, h, List.drop_succ_cons, List.drop_zero]
  cases below text <;> rfl

/-- An expression of one operand. -/
theorem expression_operand {result : Except Fault Tree} (hblank : ¬ text.isBlank)
    (h : operand (expression limit room) (prefixed limit room text) text text =
      (·, []) <$> result) (after : Text) : expression limit (room + 1) text after = result := by
  rw [← operand_trimStart] at h
  cases result with
  | ok tree => exact expression_of_chain hblank (chain_of_operand h) after
  | error fault =>
    rw [expression, if_neg hblank]
    simp only [chain, h]
    rfl

/-- A source that is one piece and begins like an expression. -/
structure IsPhrase (text : Text) : Prop where
  nested : text.Nested false
  isCode : text.IsCode
  nonempty : text ≠ []
  head : ∀ c ∈ text.head?, ¬ isBlankChar c ∧ c ≠ '{'
  last : ∀ c ∈ text.getLast?, ¬ isBlankChar c
  no_keyword : Keyword.atStart? text = none

namespace IsPhrase

variable (h : IsPhrase text)

include h

theorem trim : text.trim = text := Text.trim_of_ends (fun c hc => (h.head c hc).1) h.last

theorem trimStart_append (rest : Text) : Text.trimStart (text ++ rest) = text ++ rest := by
  apply Text.trimStart_of_head
  intro c hc
  rw [List.head?_append_of_ne_nil _ h.nonempty] at hc
  exact (h.head c hc).1

theorem not_isBlank : ¬ text.isBlank := by
  intro hblank
  have htrim := Text.trim_eq_nil_iff.mpr hblank
  exact h.nonempty (h.trim.symm.trans htrim)

theorem pieces : Division.statements.pieces text = .ok [text] := by
  have hpieces := Division.pieces_intercalate (List.cons_ne_nil text [])
    (List.forall_mem_singleton.mpr
      (Division.isPiece_of_nested Division.statements_mem h.nested))
    (List.forall_mem_singleton.mpr (.inr h.not_isBlank))
    (by rw [List.intercalate_singleton]; exact h.not_isBlank)
  rwa [List.intercalate_singleton, List.map_singleton, h.trim] at hpieces

theorem statement_eq (limit room loops : Nat) :
    statement limit (room + 1) loops text = expression limit room text text := by
  have hhead := h.head
  rw [statement]
  dsimp only
  rw [h.trim, h.no_keyword]
  split
  · exact absurd rfl h.nonempty
  · exact absurd rfl (hhead '{' rfl).2
  · rfl

/-- The rule is that of one statement, and faults of the expression are those of the rule. -/
theorem rule_eq (room : Nat) :
    rule (room + 1) text = (fun tree => .block [tree]) <$> expression (room + 1) room text text := by
  rw [rule, h.isCode.stripComments]
  simp only [block, h.pieces, ok_bind, arrange, h.no_keyword, h.statement_eq]
  cases expression (room + 1) room text text <;> rfl

end IsPhrase

/-- A word that is no keyword is a source of its own. -/
theorem isPhrase_word {word : Text} (hword : ∀ c ∈ word, inWord c) (hne : word ≠ [])
    (hkeyword : Keyword.ofWord? word = none) : IsPhrase word where
  nested := nested_of_inWord hword
  isCode := isCode_of_inWord hword
  nonempty := hne
  head c hc := by
    have hc := hword c (List.mem_of_mem_head? hc)
    refine ⟨not_blank_of_inWord hc, ?_⟩
    rintro rfl
    exact absurd hc (by decide)
  last c hc := not_blank_of_inWord (hword c (List.mem_of_getLast? hc))
  no_keyword := by
    have htrim : word.trimStart = word := Text.trimStart_of_head fun c hc =>
      not_blank_of_inWord (hword c (List.mem_of_mem_head? hc))
    have hfirst : word.firstWord = word := List.takeWhile_eq_self_iff.mpr hword
    rw [Keyword.atStart?, htrim, hfirst, hkeyword]
    rfl

theorem isPhrase_name {x : String} (hx : IsIdentifier x) : IsPhrase x.toList :=
  isPhrase_word hx.inWord hx.nonempty hx.no_keyword

end Grammar

namespace Tree

theorem exec_block_expression (ceiling : Nat) {tree : Tree} (h : tree.IsExpression) :
    (block [tree]).exec ceiling = (do return .normal ((Yield.silent 0).orElse (← tree.eval))) := by
  simp only [exec, execAll, exec_expression ceiling h, bind_assoc, pure_bind]

end Tree

namespace RuleSet

open Grammar

/-- The rule set in which an evaluation begins. -/
def cleared (set : RuleSet) : RuleSet := { set with store := { set.store with scratch := [] } }

/-- An expression that stands alone gives its own value, if this counts. -/
theorem evaluate_expression {tree : Tree} (h : tree.IsExpression) (set : RuleSet) :
    evaluate (.ofTree (.block [tree])) set =
      match tree.eval set.cleared.store with
      | .ok yielded store =>
        .ok (if yielded.counts then yielded.value else 0) ⟨set.limits, store⟩
      | .error fault store => .error fault ⟨set.limits, store⟩ := by
  have hrule : (Tree.block [tree]).IsRule := by
    refine ⟨⟨[tree], rfl⟩, .block ?_ ?_⟩
    · rintro _ hmem rfl
      rw [List.mem_singleton] at hmem
      subst hmem
      cases h
    · exact List.forall_mem_singleton.mpr (.expression h)
  obtain ⟨limits, store⟩ := set
  rw [evaluate_ofTree hrule, execute, Tree.exec_block_expression limits.loopCeiling h]
  simp only [cleared, bind, EStateM.bind]
  cases tree.eval { store with scratch := [] } with
  | ok yielded later =>
    obtain ⟨value, counts⟩ := yielded
    cases counts <;> rfl
  | error fault later => rfl

/-- A source that is one expression has the value of what is read from it. -/
theorem evaluateSource_phrase {source : Text} (h : IsPhrase source) (set : RuleSet) {depth : Nat}
    (hdepth : set.limits.nestingDepth = depth + 1) :
    evaluateSource (.ofList source) set =
      match expression (depth + 1) depth source source with
      | .ok tree =>
        match tree.eval set.cleared.store with
        | .ok yielded store =>
          .ok (if yielded.counts then yielded.value else 0) ⟨set.limits, store⟩
        | .error fault store => .error fault ⟨set.limits, store⟩
      | .error fault => .error fault set := by
  have hreads := reads_expression (depth + 1) depth source source
  rw [evaluateSource, parse, Program.parse_eq, String.toList_ofList, hdepth, h.rule_eq]
  cases hread : expression (depth + 1) depth source source with
  | ok tree =>
    rw [hread] at hreads
    exact evaluate_expression hreads set
  | error fault => rfl

end RuleSet
end RuleLang

import RuleLang.Proofs.Building
import RuleLang.Proofs.Comments
import RuleLang.Proofs.Spanning
import RuleLang.Proofs.Statements
import RuleLang.Text.Zipper

/-!
Reading back what is spelled: whole rules. A block of statements is spelled, read and laid out,
and the program is the block again.
-/
namespace RuleLang

namespace Grammar

variable {limit loops : Nat} {tree : Tree} {statements : List Tree}

theorem rule_spellAll
    (hstatements : ∀ s ∈ statements, s.IsStatement 0 ∧ s ≠ .empty ∧ s.settled)
    (hlength : (Tree.spellAll statements).length ≤ limit) (hlimit : 2 ≤ limit ∨ statements = []) :
    rule limit (Tree.spellAll statements) = .ok (.block statements) := by
  have hcode := Tree.isCode_spellAll fun s hs => (hstatements s hs).1.isCode
  rw [rule, hcode.stripComments]
  exact block_spellAll (fun s hs => readsPieces_statement limit (hstatements s hs).1
    (hstatements s hs).2.2) (fun s hs => (hstatements s hs).1) (fun s hs => (hstatements s hs).2.1)
    (fun hne => hlimit.resolve_right hne) hlength

theorem isExpression_of_length (h : tree.IsStatement loops) (hne : tree ≠ .empty)
    (hlength : tree.spell.length ≤ 1) : tree.IsExpression := by
  have hlong (word : Text) (hword : 2 ≤ word.length) (rest : Text) :
      ¬ (word ++ rest).length ≤ 1 := by
    rw [List.length_append]
    omega
  cases h with
  | empty => contradiction
  | expression h => exact h
  | returning => exact absurd hlength (hlong "return ".toList (by decide) _)
  | breakLoop => exact absurd hlength (by decide)
  | ifThen | ifElse => exact absurd hlength (hlong "if".toList (by decide) _)
  | whileLoop => exact absurd hlength (hlong "while".toList (by decide) _)
  | forLoop => exact absurd hlength (hlong "for".toList (by decide) _)
  | block => simp [Tree.spell, Text.within] at hlength

/-- With a single character there is an expression and nothing else. -/
theorem single_of_length (hstatements : ∀ s ∈ statements, s.IsStatement 0 ∧ s ≠ .empty)
    (hne : statements ≠ []) (hlength : (Tree.spellAll statements).length ≤ 1) :
    ∃ tree, tree.IsExpression ∧ statements = [tree] := by
  match statements with
  | [] => contradiction
  | [tree] =>
    obtain ⟨htree, hempty⟩ := hstatements tree List.mem_cons_self
    exact ⟨tree, isExpression_of_length htree hempty hlength, rfl⟩
  | tree :: next :: trees =>
    obtain ⟨htree, hempty⟩ := hstatements tree List.mem_cons_self
    have hpos := List.length_pos_iff.mpr (htree.spell_ne_nil hempty)
    have hnil : Tree.spellAll (next :: trees) ≠ [] := Tree.spellAll_ne_nil
      (fun s hs => (hstatements s (List.mem_cons_of_mem _ hs)).1)
      (fun s hs => (hstatements s (List.mem_cons_of_mem _ hs)).2) nofun
    have hpos' := List.length_pos_iff.mpr hnil
    have hsum : (Tree.spellAll (tree :: next :: trees)).length =
        tree.spell.length + ((Tree.spellAll (next :: trees)).length + 1) := List.length_append
    omega

theorem rule_tooDeep
    (hstatements : ∀ s ∈ statements, s.IsStatement 0 ∧ s ≠ .empty) (hne : statements ≠ [])
    (hlength : (Tree.spellAll statements).length ≤ 1) :
    rule 1 (Tree.spellAll statements) =
      .error (.syntactic ⟨.tooDeep, [.ofNat 1, Tree.spellAll statements]⟩) := by
  obtain ⟨tree, htree, rfl⟩ := single_of_length hstatements hne hlength
  have hblank : ¬ tree.spell.isBlank := by simpa using htree.isOperand.not_isBlank_append []
  have hpieces := Tree.pieces_spellAll (fun s hs => (hstatements s hs).1) fun s hs =>
    (hstatements s hs).2
  rw [Tree.spellAll] at hpieces hlength ⊢
  have hatom := (readsBack_expression 0 htree).atom_end (by omega : _ ≤ 0 + 2) []
  have hkeyword := keyword_of_atom (Text.trimStart_of_head htree.isOperand.head_not_blank) hatom
  have htooDeep : statement 1 1 0 tree.spell =
      .error (.syntactic ⟨.tooDeep, [.ofNat 1, tree.spell]⟩) := by
    rw [statement_expression htree.isOperand.trim htree.isOperand hkeyword, expression,
      if_neg hblank, htree.isOperand.trim]
    rfl
  rw [List.flatMap_singleton, Tree.pieces, htree.stem_eq.1, htree.stem_eq.2, List.map_nil,
    List.map_singleton, htree.isOperand.trim] at hpieces
  rw [rule, htree.isCode.stripComments]
  simp only [block, hpieces, ok_bind, arrange, hkeyword, htooDeep]
  rfl

end Grammar

namespace Program

/-- A rule is read back from its spelling with room for as much nesting as the spelling has
bytes. An expression takes two levels, so one level is too little for a spelling of one byte. -/
theorem parse_spellAll {limit : Nat} {statements : List Tree}
    (hstatements : ∀ s ∈ statements, s.IsStatement 0 ∧ s ≠ .empty ∧ s.settled)
    (hlimit : Text.byteSize (Tree.spellAll statements) ≤ limit) :
    (2 ≤ limit ∨ statements = [] →
      ∃ program, Program.parse limit (.ofList (Tree.spellAll statements)) = .ok program ∧
        program.tree = .block statements) ∧
    (limit = 1 ∧ statements ≠ [] →
      Program.parse limit (.ofList (Tree.spellAll statements)) =
        .error (.syntactic ⟨.tooDeep, [.ofNat 1, Tree.spellAll statements]⟩)) := by
  have hlength := (Text.length_le_byteSize _).trans hlimit
  rw [Program.parse_eq]
  rw [String.toList_ofList]
  constructor
  · intro hroom
    rw [Grammar.rule_spellAll hstatements hlength hroom]
    exact ⟨ofTree (.block statements), rfl, tree_ofTree _⟩
  · rintro ⟨rfl, hne⟩
    rw [Grammar.rule_tooDeep (fun s hs => ⟨(hstatements s hs).1, (hstatements s hs).2.1⟩) hne
      hlength]
    rfl

/-- The `else` goes to the inner `if`, which stands in a loop without braces. A name alone needs
two levels. -/
theorem parse_else_in_loop :
    (∃ program, Program.parse 40 "if(a)while(b)if(c)break;else return (-d)" = .ok program ∧
      program.tree = .block [.ifThen (.name "a") (.whileLoop (.name "b") (.ifElse (.name "c")
        .breakLoop (.unary .returning (.unary .negate (.name "d")))))]) ∧
    Program.parse 1 "a" = .error (.syntactic ⟨.tooDeep, [.ofNat 1, ['a']]⟩) := by
  have hname (x : String) (hx : x ∈ ["a", "b", "c", "d"]) : Tree.IsExpression (.name x) := by
    refine .name ⟨?_, ?_, ?_, ?_⟩ <;> revert x <;> decide
  have hbranch : Tree.IsStatement 1 (.unary .returning (.unary .negate (.name "d"))) :=
    .returning (.negate (hname "d" (by decide)))
  have hbody := Tree.IsStatement.ifElse (hname "c" (by decide)) (.breakLoop (by decide)) hbranch
  have hstatement : Tree.IsStatement 0 _ :=
    .ifThen (hname "a" (by decide)) (.whileLoop (hname "b" (by decide)) hbody)
  have hsingle : ∀ s ∈ [Tree.name "a"], s.IsStatement 0 ∧ s ≠ .empty ∧ s.settled :=
    List.forall_mem_singleton.mpr ⟨.expression (hname "a" (by decide)), nofun, rfl⟩
  constructor
  · exact (parse_spellAll (List.forall_mem_singleton.mpr ⟨hstatement, nofun, rfl⟩)
      (by decide)).1 (.inl (by decide))
  · exact (parse_spellAll hsingle (by decide)).2 ⟨rfl, nofun⟩

end Program
end RuleLang

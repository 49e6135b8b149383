import RuleLang.Proofs.Spelling

/-!
The pieces of a spelled block. An `else` comes after a semicolon, so the spelling of a statement
falls into several pieces: the stem of the statement, and for each `else` branch that is put off
a piece that begins with `else` and goes on with the stem of the branch.
-/
namespace RuleLang

namespace Text

/-- A text that the division of a block leaves in one piece: outside of brackets it has braces
only at its end. -/
def IsWhole (text : Text) : Prop :=
  text.Nested false ∨
    ∃ front inside, front.Nested false ∧ inside.Nested true ∧
      text = front ++ within '{' '}' inside

theorem IsWhole.append {front text : Text} (hfront : front.Nested false) (h : text.IsWhole) :
    IsWhole (front ++ text) := by
  rcases h with h | ⟨front', inside, hfront', hinside, rfl⟩
  · exact .inl (hfront.append h)
  · exact .inr ⟨front ++ front', inside, hfront.append hfront', hinside, by simp⟩

theorem IsWhole.isPiece {text : Text} (h : text.IsWhole) : Division.statements.IsPiece text := by
  rcases h with h | ⟨front, inside, hfront, hinside, rfl⟩
  · exact Division.isPiece_of_nested Division.statements_mem h
  · exact Division.isPiece_braces hfront hinside

theorem IsWhole.inside {text : Text} (h : text.IsWhole) : text.Nested true := by
  rcases h with h | ⟨front, inside, hfront, hinside, rfl⟩
  · exact h.inside
  · exact hfront.inside.append (.within (by decide) (fun _ => rfl) hinside)

theorem intercalate_append {separator : Text} {front back : List Text} (hfront : front ≠ [])
    (hback : back ≠ []) : separator.intercalate (front ++ back) =
      separator.intercalate front ++ (separator ++ separator.intercalate back) := by
  induction front with
  | nil => contradiction
  | cons text front ih =>
    cases front with
    | nil =>
      rw [List.singleton_append, List.intercalate_cons_of_ne_nil hback,
        List.intercalate_singleton, List.append_assoc]
    | cons text' front =>
      rw [List.intercalate_cons_cons, List.cons_append, List.cons_append,
        List.intercalate_cons_cons, ← List.cons_append, ih nofun]
      simp only [List.append_assoc]

theorem append_intercalate (separator front text : Text) (texts : List Text) :
    front ++ separator.intercalate (text :: texts) =
      separator.intercalate ((front ++ text) :: texts) := by
  cases texts with
  | nil => rw [List.intercalate_singleton, List.intercalate_singleton]
  | cons => simp only [List.intercalate_cons_cons, List.append_assoc]

theorem nested_intercalate {texts : List Text} (h : ∀ text ∈ texts, text.Nested true) :
    Nested true ([';'].intercalate texts) := by
  induction texts with
  | nil => exact .nil
  | cons text texts ih =>
    obtain ⟨htext, htexts⟩ := List.forall_mem_cons.mp h
    by_cases hlast : texts = []
    · rwa [hlast, List.intercalate_singleton]
    · rw [List.intercalate_cons_of_ne_nil hlast]
      exact (htext.append (.char (by decide))).append (ih htexts)

end Text

/-- A stem is divided off as a whole, and trimming leaves it as it is. -/
structure IsStem (text : Text) : Prop where
  whole : text.IsWhole
  head : ∀ c ∈ text.head?, ¬ isBlankChar c
  last : ∀ c ∈ text.getLast?, ¬ isBlankChar c

theorem IsStem.trim {text : Text} (h : IsStem text) : text.trim = text :=
  Text.trim_of_ends h.head h.last

theorem IsStem.not_isBlank {text : Text} (h : IsStem text) (hne : text ≠ []) :
    ¬ text.isBlank := by
  cases text with
  | nil => contradiction
  | cons c text => exact Text.not_isBlank_cons (h.head c rfl) text

theorem isStem_nil : IsStem [] := ⟨.inl .nil, nofun, nofun⟩

theorem IsStem.append {front text : Text} (hfront : IsOperand front) (h : IsStem text) :
    IsStem (front ++ text) where
  whole := h.whole.append hfront.nested
  head c hc := by
    rw [List.head?_append_of_ne_nil _ hfront.nonempty] at hc
    exact hfront.head_not_blank c hc
  last c hc := by
    rw [List.getLast?_append] at hc
    cases htext : text.getLast? with
    | none =>
      rw [htext] at hc
      exact hfront.last_not_blank c hc
    | some last =>
      rw [htext] at hc
      exact h.last c (htext.trans hc)

theorem IsOperand.isStem {text : Text} (h : IsOperand text) : IsStem text := by
  simpa using isStem_nil.append h

/-- A keyword with something in parentheses after it can stand before a stem. -/
theorem IsStem.header {keyword inside text : Text} (hkeyword : ∀ c ∈ keyword, inWord c)
    (hne : keyword ≠ []) (hinside : inside.Nested true) (h : IsStem text) :
    IsStem (keyword ++ (Text.within '(' ')' inside ++ text)) := by
  rw [← List.append_assoc]
  refine h.append ((isOperand_word hkeyword hne).append (nested_parens hinside) fun c hc => ?_)
  rw [Text.within, ← List.cons_append, List.getLast?_concat] at hc
  cases hc
  exact .inl rfl

/-- A word and a blank can stand before a stem that is not empty. -/
theorem IsStem.after {word text : Text} (hword : ∀ c ∈ word, inWord c) (hne : word ≠ [])
    (h : IsStem text) (htext : text ≠ []) : IsStem (word ++ ' ' :: text) where
  whole := (h.whole.append (.char (by decide) : Text.Nested false [' '])).append
    (nested_of_inWord hword)
  head c hc := by
    rw [List.head?_append_of_ne_nil _ hne] at hc
    exact (isOperand_word hword hne).head_not_blank c hc
  last c hc := by
    rw [List.getLast?_append, List.getLast?_cons, List.getLast?_eq_some_getLast htext] at hc
    exact h.last c ((List.getLast?_eq_some_getLast htext).trans hc)

theorem isStem_braces {inside : Text} (h : inside.Nested true) :
    IsStem (Text.within '{' '}' inside) where
  whole := .inr ⟨[], inside, .nil, h, rfl⟩
  head c hc := by
    cases hc
    decide
  last c hc := by
    rw [Text.within, ← List.cons_append, List.getLast?_concat] at hc
    cases hc
    decide

namespace Tree

/-- A statement without the `else` branches that are put off. -/
def stem : Tree → Tree
  | ifThen condition yes => ifThen condition yes.stem
  | ifElse condition yes _ => ifThen condition yes.stem
  | whileLoop condition body => whileLoop condition body.stem
  | forLoop start condition update body => forLoop start condition update body.stem
  | tree => tree

/-- The stems of the `else` branches that are put off, in the order in which they are spelled. -/
def elses : Tree → List Tree
  | ifThen _ yes => yes.elses
  | ifElse _ yes no => yes.elses ++ no.stem :: no.elses
  | whileLoop _ body => body.elses
  | forLoop _ _ _ body => body.elses
  | _ => []

/-- An `else` branch as a piece of its own. -/
def spellElse (branch : Tree) : Text := "else ".toList ++ branch.spell

def pieces (tree : Tree) : List Text := tree.stem.spell :: tree.elses.map spellElse

theorem spell_eq (tree : Tree) : tree.spell = [';'].intercalate tree.pieces := by
  induction tree with
  | ifThen condition yes _ ih =>
    rw [spell, ih, ← List.append_assoc]
    exact Text.append_intercalate ..
  | ifElse condition yes no _ ihyes ihno =>
    have hpieces : (ifElse condition yes no).pieces =
        ("if".toList ++ Text.within '(' ')' condition.spell ++ yes.stem.spell) ::
          yes.elses.map spellElse ++ spellElse no.stem :: no.elses.map spellElse := by
      simp [pieces, stem, elses, spell]
    rw [spell, ihyes, ihno, hpieces,
      Text.intercalate_append (List.cons_ne_nil _ _) (List.cons_ne_nil _ _), pieces, pieces,
      Text.append_intercalate, ← List.append_assoc, ← List.append_assoc, Text.append_intercalate]
    rfl
  | whileLoop condition body _ ih =>
    rw [spell, ih, ← List.append_assoc]
    exact Text.append_intercalate ..
  | forLoop start condition update body _ _ _ ih =>
    rw [spell, ih, ← List.append_assoc]
    exact Text.append_intercalate ..
  | _ => exact List.intercalate_singleton.symm

theorem spellAll_eq (trees : List Tree) :
    spellAll trees = [';'].intercalate (trees.flatMap pieces) := by
  induction trees with
  | nil => rfl
  | cons tree trees ih =>
    cases trees with
    | nil => rw [spellAll, spell_eq, List.flatMap_singleton]
    | cons next trees =>
      have htree : tree.pieces ≠ [] := List.cons_ne_nil _ _
      have htrees : (next :: trees).flatMap pieces ≠ [] := List.cons_ne_nil _ _
      rw [spellAll, ih, spell_eq]
      · exact (Text.intercalate_append htree htrees).symm
      · exact nofun

theorem IsExpression.stem_eq {tree : Tree} (h : tree.IsExpression) :
    tree.stem = tree ∧ tree.elses = [] := by
  cases h <;> exact ⟨rfl, rfl⟩

theorem IsClause.nested {tree : Tree} (h : tree.IsClause) : tree.spell.Nested false := by
  rcases h with rfl | h
  · exact .nil
  · exact h.isOperand.nested

theorem nested_clauses {start condition update : Tree} (hs : start.IsClause)
    (hc : condition.IsExpression) (hu : update.IsClause) :
    Text.Nested true (start.spell ++ ';' :: (condition.spell ++ ';' :: update.spell)) :=
  hs.nested.inside.append (.cons (by decide)
    (hc.isOperand.nested.inside.append (.cons (by decide) hu.nested.inside)))

theorem isWhole_pieces {tree : Tree}
    (h : IsStem tree.stem.spell ∧ ∀ branch ∈ tree.elses, IsStem branch.spell) :
    ∀ text ∈ tree.pieces, text.IsWhole := by
  have helse : Text.Nested false "else ".toList := Text.nested_of_forall (by decide)
  intro text htext
  rcases List.mem_cons.mp htext with rfl | htext
  · exact h.1.whole
  · obtain ⟨branch, hbranch, rfl⟩ := List.mem_map.mp htext
    exact (h.2 branch hbranch).whole.append helse

theorem nested_spellAll {statements : List Tree}
    (h : ∀ s ∈ statements, ∀ text ∈ s.pieces, text.IsWhole) :
    Text.Nested true (spellAll statements) := by
  rw [spellAll_eq]
  apply Text.nested_intercalate
  intro text htext
  obtain ⟨s, hs, htext⟩ := List.mem_flatMap.mp htext
  exact (h s hs text htext).inside

/-- The stem of a statement and those of its `else` branches. -/
theorem IsStatement.isStem {loops : Nat} {tree : Tree} (h : tree.IsStatement loops) :
    IsStem tree.stem.spell ∧ ∀ branch ∈ tree.elses, IsStem branch.spell := by
  have hif : ∀ c ∈ "if".toList, inWord c := by decide
  have hwhile : ∀ c ∈ "while".toList, inWord c := by decide
  have hfor : ∀ c ∈ "for".toList, inWord c := by decide
  induction h with
  | empty => exact ⟨isStem_nil, nofun⟩
  | expression h =>
    rw [h.stem_eq.1, h.stem_eq.2]
    exact ⟨h.isOperand.isStem, nofun⟩
  | returning h =>
    have hreturn : ∀ c ∈ "return".toList, inWord c := by decide
    exact ⟨h.isOperand.isStem.after hreturn nofun h.isOperand.nonempty, nofun⟩
  | breakLoop =>
    have hbreak : ∀ c ∈ "break".toList, inWord c := by decide
    exact ⟨(isOperand_word hbreak nofun).isStem, nofun⟩
  | ifThen hc _ ih => exact ⟨ih.1.header hif nofun hc.isOperand.nested.inside, ih.2⟩
  | ifElse hc _ _ ihyes ihno =>
    refine ⟨ihyes.1.header hif nofun hc.isOperand.nested.inside, fun branch hbranch => ?_⟩
    rcases List.mem_append.mp hbranch with hbranch | hbranch
    · exact ihyes.2 branch hbranch
    · rcases List.mem_cons.mp hbranch with rfl | hbranch
      · exact ihno.1
      · exact ihno.2 branch hbranch
  | whileLoop hc _ ih => exact ⟨ih.1.header hwhile nofun hc.isOperand.nested.inside, ih.2⟩
  | forLoop hs hc hu _ ih => exact ⟨ih.1.header hfor nofun (nested_clauses hs hc hu), ih.2⟩
  | block _ _ ih =>
    exact ⟨isStem_braces (nested_spellAll fun s hs => isWhole_pieces (ih s hs)), nofun⟩

/-- Only nothing is spelled with nothing. -/
theorem IsStatement.spell_stem_ne_nil {loops : Nat} {tree : Tree} (h : tree.IsStatement loops)
    (hne : tree ≠ .empty) : tree.stem.spell ≠ [] := by
  cases h with
  | empty => contradiction
  | expression h =>
    rw [h.stem_eq.1]
    exact h.isOperand.nonempty
  | _ => exact nofun

theorem IsStatement.spell_ne_nil {loops : Nat} {tree : Tree} (h : tree.IsStatement loops)
    (hne : tree ≠ .empty) : tree.spell ≠ [] := by
  cases h with
  | empty => contradiction
  | expression h => exact h.isOperand.nonempty
  | _ => exact nofun

theorem spellAll_ne_nil {loops : Nat} {statements : List Tree}
    (h : ∀ s ∈ statements, s.IsStatement loops) (hne : ∀ s ∈ statements, s ≠ .empty)
    (hnil : statements ≠ []) : spellAll statements ≠ [] := by
  match statements with
  | [] => contradiction
  | [tree] => exact (h tree (by simp)).spell_ne_nil (hne tree (by simp))
  | tree :: next :: trees => simp [spellAll]

theorem IsStatement.not_isBlank_pieces {loops : Nat} {tree : Tree} (h : tree.IsStatement loops)
    (hne : tree ≠ .empty) : ∀ text ∈ tree.pieces, ¬ text.isBlank := by
  intro text htext
  rcases List.mem_cons.mp htext with rfl | htext
  · exact h.isStem.1.not_isBlank (h.spell_stem_ne_nil hne)
  · obtain ⟨branch, -, rfl⟩ := List.mem_map.mp htext
    exact Text.not_isBlank_cons (by decide) _

/-- The text of a block is divided into the pieces of its statements. -/
theorem pieces_spellAll {loops : Nat} {statements : List Tree}
    (h : ∀ s ∈ statements, s.IsStatement loops) (hne : ∀ s ∈ statements, s ≠ .empty) :
    Division.statements.pieces (spellAll statements) =
      .ok ((statements.flatMap pieces).map Text.trim) := by
  have hblank : ∀ text ∈ statements.flatMap pieces, ¬ text.isBlank := by
    intro text htext
    obtain ⟨s, hs, htext⟩ := List.mem_flatMap.mp htext
    exact (h s hs).not_isBlank_pieces (hne s hs) text htext
  rw [spellAll_eq]
  cases hpieces : statements.flatMap pieces with
  | nil => rfl
  | cons first rest =>
    rw [hpieces] at hblank
    refine Division.pieces_intercalate nofun (fun text htext => ?_)
      (fun text htext => .inr (hblank text htext)) fun hwhole => ?_
    · rw [← hpieces] at htext
      obtain ⟨s, hs, htext⟩ := List.mem_flatMap.mp htext
      exact (isWhole_pieces (h s hs).isStem text htext).isPiece
    · have hfirst := Text.append_intercalate [';'] first [] rest
      rw [List.append_nil] at hfirst
      refine hblank first List.mem_cons_self (Text.isBlank_iff.mpr fun c hc => ?_)
      refine Text.isBlank_iff.mp hwhole c ?_
      rw [show Division.statements.separator = ';' from rfl, ← hfirst]
      exact List.mem_append_left _ hc

end Tree
end RuleLang

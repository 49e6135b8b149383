import RuleLang.Proofs.ReadBack
import RuleLang.Proofs.Stems

/-!
Reading back what is spelled: statements. A statement in a block is read in several pieces. Its
stem comes first and is read as a statement without the `else` branches that are put off; each
later piece then adds the branch that comes next. While that goes on, the part of the statement
that is still to be completed stands inside of what is complete, perhaps inside loops.
-/
namespace RuleLang

namespace Keyword

theorem atStart?_spelling (keyword : Keyword) {rest : Text}
    (hrest : ∀ c ∈ rest.head?, ¬ inWord c) :
    atStart? (keyword.spelling ++ rest) = some (keyword, rest) := by
  have hword : ∀ c ∈ keyword.spelling, inWord c := by cases keyword <;> decide
  have hofWord : ofWord? keyword.spelling = some keyword := by cases keyword <;> rfl
  have htrim : Text.trimStart (keyword.spelling ++ rest) = keyword.spelling ++ rest :=
    Text.trimStart_of_head (by cases keyword <;> simp [spelling] <;> decide)
  rw [atStart?, htrim, Text.firstWord_append hword hrest, Text.afterWord_append hword hrest,
    hofWord]
  rfl

end Keyword

namespace Grammar

variable {inner : Inner} {limit room loops : Nat} {tree : Tree} {source text rest : Text}

/-- An atom begins with no keyword. -/
theorem keyword_of_atom {found : Tree × Text} (htext : text.trimStart = text)
    (h : atom inner source text = .ok found) : Keyword.atStart? text = none := by
  rw [Keyword.atStart?, htext, Option.map_eq_none_iff]
  cases hkeyword : Keyword.ofWord? text.firstWord with
  | none => rfl
  | some keyword =>
    have hfirst : keyword.spelling = text.firstWord := by
      simpa using List.find?_some hkeyword
    have hword : Word.atStart? text = .ok (some (.name text.firstWord)) := by
      rw [Word.atStart?, ← hfirst]
      cases keyword <;> rfl
    rw [atom_of_word hword] at h
    dsimp only at h
    rw [hkeyword] at h
    cases h

theorem header_within {inside : Bool} (h : text.Nested inside) (keyword : Keyword) (rest : Text) :
    header keyword (Text.within '(' ')' text ++ rest) = .ok (text, rest) := by
  have henclosed := enclosed_within h (by decide : ('(', ')') ∈ Text.bracketPairs) rest
  rw [Text.within, List.cons_append] at henclosed ⊢
  rw [header, Text.trimStart_cons_of_not_blank (by decide)]
  exact henclosed

theorem statement_empty (h : text.trim = []) :
    statement limit (room + 1) loops text = .ok .empty := by
  rw [statement]
  dsimp only
  rw [h]
  rfl

theorem statement_keyword (keyword : Keyword) (hrest : ∀ c ∈ rest.head?, ¬ inWord c) :
    text.trim = keyword.spelling ++ rest → statement limit (room + 1) loops text =
      match keyword with
      | .ifWord => conditional (expression limit room) (statement limit room) loops rest
      | .whileWord => whileLoop (expression limit room) (statement limit room) loops rest
      | .forWord => forLoop (expression limit room) (statement limit room) loops rest
      | .breakWord => breakLoop loops rest
      | .returnWord => returning (expression limit room) rest
      | .elseWord => throw (.syntactic ⟨.strayElse, [text.trim]⟩) := by
  intro h
  have hkeyword := keyword.atStart?_spelling hrest
  rw [statement]
  dsimp only
  rw [h, hkeyword]
  cases keyword <;> rfl

theorem statement_braces {inside : Text} (h : text.trim = Text.within '{' '}' inside)
    (hinside : inside.Nested true) :
    statement limit (room + 1) loops text = block (statement limit room) loops inside := by
  have henclosed := enclosed_within hinside (by decide : ('{', '}') ∈ Text.bracketPairs) []
  rw [List.append_nil] at henclosed
  rw [statement]
  dsimp only
  rw [h, henclosed]
  rfl

theorem statement_expression (h : text.trim = source) (hsource : IsOperand source)
    (hkeyword : Keyword.atStart? source = none) :
    statement limit (room + 1) loops text = expression limit room source source := by
  have hhead := hsource.head
  rw [statement]
  dsimp only
  rw [h, hkeyword]
  split
  · exact absurd rfl hsource.nonempty
  · exact absurd (hhead '{' rfl) (by decide)
  · rfl

/-- What is read as a statement begins with no `else`. -/
theorem no_else_of_statement (h : statement limit room loops text = .ok tree) (rest : Text) :
    Keyword.atStart? text.trim ≠ some (.elseWord, rest) := by
  intro hkeyword
  cases room with
  | zero => cases h
  | succ room =>
    rw [statement] at h
    dsimp only at h
    split at h
    · case _ htrim =>
      rw [htrim] at hkeyword
      cases hkeyword
    · case _ htrim =>
      rw [htrim] at hkeyword
      cases hkeyword
    · rw [hkeyword] at h
      cases h

/-- The stem of a statement inside `loops` loops is read back. -/
def ReadsStem (limit loops : Nat) (tree : Tree) : Prop :=
  ∀ room text, 2 ≤ room → tree.stem.spell.length ≤ room → text.trim = tree.stem.spell →
    statement limit room loops text = .ok tree.stem

/-- There is room for a statement, and one level less for what it consists of. -/
theorem readsStem_of_succ (h : ∀ room text, 1 ≤ room → tree.stem.spell.length ≤ room + 1 →
    text.trim = tree.stem.spell → statement limit (room + 1) loops text = .ok tree.stem) :
    ReadsStem limit loops tree := by
  intro room text hroom
  obtain ⟨room, rfl⟩ : ∃ k, room = k + 1 := Nat.exists_eq_succ_of_ne_zero (by omega)
  exact h room text (by omega)

theorem readsStem_empty : ReadsStem limit loops .empty := by
  exact readsStem_of_succ fun _ _ _ _ htext => statement_empty htext

theorem readsStem_expression (h : tree.IsExpression) : ReadsStem limit loops tree := by
  apply readsStem_of_succ
  intro room text hroom hlength htext
  have hreads := readsBack_expression limit h
  rw [h.stem_eq.1] at hlength htext ⊢
  have htrim : tree.spell.trimStart = tree.spell :=
    Text.trimStart_of_head h.isOperand.head_not_blank
  have hatom := hreads.atom_end (by omega : tree.spell.length ≤ room + 2) []
  rw [statement_expression htext h.isOperand (keyword_of_atom htrim hatom)]
  exact hreads.expression_eq h.isOperand (by omega) hlength _

theorem readsStem_return {value : Tree} (h : value.IsExpression) :
    ReadsStem limit loops (.unary .returning value) := by
  apply readsStem_of_succ
  intro room text hroom hlength htext
  have hspell : (Tree.unary .returning value).stem.spell =
      Keyword.returnWord.spelling ++ ' ' :: value.spell := rfl
  have hspelling : Keyword.returnWord.spelling.length = 6 := rfl
  rw [hspell] at htext hlength
  rw [List.length_append, List.length_cons, hspelling] at hlength
  have htrim : Text.trimStart (' ' :: value.spell) = value.spell :=
    Text.trimStart_of_head h.isOperand.head_not_blank
  rw [statement_keyword .returnWord (by simp; decide) htext]
  dsimp only [returning]
  rw [(readsBack_expression limit h).expression_trimStart h.isOperand (by omega) (by omega) htrim]
  rfl

theorem readsStem_breakLoop (h : 0 < loops) : ReadsStem limit loops .breakLoop := by
  apply readsStem_of_succ
  intro room text _ _ htext
  rw [statement_keyword .breakWord (by simp : ∀ c ∈ ([] : Text).head?, ¬ inWord c) htext]
  dsimp only [breakLoop]
  rw [if_neg (by decide), if_neg (by omega)]
  rfl

theorem readsStem_ifThen {condition yes : Tree} (hc : condition.IsExpression)
    (hyes : IsStem yes.stem.spell) (h : ReadsStem limit loops yes) :
    ReadsStem limit loops (.ifThen condition yes) := by
  apply readsStem_of_succ
  intro room text hroom hlength htext
  have hspell : (Tree.ifThen condition yes).stem.spell = Keyword.ifWord.spelling ++
      (Text.within '(' ')' condition.spell ++ yes.stem.spell) := rfl
  rw [hspell] at htext hlength
  simp only [Keyword.spelling, Text.within, List.length_append, List.length_cons,
    List.length_nil] at hlength
  have hcondition := (readsBack_expression limit hc).expression_eq hc.isOperand
    (by omega : 1 ≤ room) (by omega)
  have hbody := h room yes.stem.spell (by omega) (by omega) hyes.trim
  rw [statement_keyword .ifWord (by simp [Text.within]; decide) htext]
  simp only [conditional, header_within hc.isOperand.nested, ok_bind, hcondition, hbody]
  rfl

theorem readsStem_whileLoop {condition body : Tree} (hc : condition.IsExpression)
    (hbody : IsStem body.stem.spell) (h : ReadsStem limit (loops + 1) body) :
    ReadsStem limit loops (.whileLoop condition body) := by
  apply readsStem_of_succ
  intro room text hroom hlength htext
  have hspell : (Tree.whileLoop condition body).stem.spell = Keyword.whileWord.spelling ++
      (Text.within '(' ')' condition.spell ++ body.stem.spell) := rfl
  rw [hspell] at htext hlength
  simp only [Keyword.spelling, Text.within, List.length_append, List.length_cons,
    List.length_nil] at hlength
  have hcondition := (readsBack_expression limit hc).expression_eq hc.isOperand
    (by omega : 1 ≤ room) (by omega)
  have hbody := h room body.stem.spell (by omega) (by omega) hbody.trim
  rw [statement_keyword .whileWord (by simp [Text.within]; decide) htext]
  simp only [whileLoop, header_within hc.isOperand.nested, ok_bind, hcondition, hbody]
  rfl

theorem trim_clause (h : tree.IsClause) : tree.spell.trim = tree.spell := by
  rcases h with rfl | h
  · rfl
  · exact h.isOperand.trim

theorem pieces_clauses {start condition update : Tree} (hs : start.IsClause)
    (hc : condition.IsExpression) (hu : update.IsClause) :
    Division.clauses.pieces (start.spell ++ ';' :: (condition.spell ++ ';' :: update.spell)) =
      .ok [start.spell, condition.spell, update.spell] := by
  have hpieces : Division.clauses.pieces
      ([';'].intercalate [start.spell, condition.spell, update.spell]) =
        .ok ([start.spell, condition.spell, update.spell].map Text.trim) := by
    refine Division.pieces_intercalate (by simp) ?_ (fun _ _ => .inl rfl) ?_
    · simp only [List.forall_mem_cons]
      exact ⟨Division.isPiece_of_nested Division.clauses_mem hs.nested,
        Division.isPiece_of_nested Division.clauses_mem hc.isOperand.nested,
        Division.isPiece_of_nested Division.clauses_mem hu.nested, nofun⟩
    · intro hblank
      exact absurd (Text.isBlank_iff.mp hblank ';' (by simp [List.intercalate, Division.clauses]))
        (by decide)
  simpa [trim_clause hs, trim_clause hu, hc.isOperand.trim] using hpieces

theorem clause_spell (h : tree.IsClause) (hpos : 1 ≤ room) (hroom : tree.spell.length ≤ room + 1) :
    clause (expression limit room) .empty tree.spell = .ok tree := by
  rcases h with rfl | h
  · rfl
  · rw [clause, if_neg (by simpa using h.isOperand.nonempty)]
    exact (readsBack_expression limit h).expression_eq h.isOperand hpos hroom _

theorem readsStem_forLoop {start condition update body : Tree} (hs : start.IsClause)
    (hc : condition.IsExpression) (hu : update.IsClause) (hbody : IsStem body.stem.spell)
    (h : ReadsStem limit (loops + 1) body) :
    ReadsStem limit loops (.forLoop start condition update body) := by
  apply readsStem_of_succ
  intro room text hroom hlength htext
  have hspell : (Tree.forLoop start condition update body).stem.spell =
      Keyword.forWord.spelling ++ (Text.within '(' ')'
        (start.spell ++ ';' :: (condition.spell ++ ';' :: update.spell)) ++ body.stem.spell) := rfl
  rw [hspell] at htext hlength
  simp only [Keyword.spelling, Text.within, List.length_append, List.length_cons,
    List.length_nil] at hlength
  have hstart : clause (expression limit room) .empty start.spell = .ok start :=
    clause_spell hs (by omega) (by omega)
  have hcondition : clause (expression limit room) (.number 1) condition.spell = .ok condition := by
    rw [clause, if_neg (by simpa using hc.isOperand.nonempty)]
    exact (readsBack_expression limit hc).expression_eq hc.isOperand (by omega) (by omega) _
  have hupdate : clause (expression limit room) .empty update.spell = .ok update :=
    clause_spell hu (by omega) (by omega)
  have hbody := h room body.stem.spell (by omega) (by omega) hbody.trim
  rw [statement_keyword .forWord (by simp [Text.within]; decide) htext]
  simp only [forLoop, header_within (Tree.nested_clauses hs hc hu), ok_bind,
    pieces_clauses hs hc hu, hstart, hcondition, hupdate, hbody]
  rfl

/-- A statement around a part that an `else` can reach, through `crossed` loops. -/
structure Surrounds (crossed : Nat) (around : Tree → Tree) : Prop where
  openIf? : ∀ part inner, part.openIf? = some inner →
    (around part).openIf? = some (inner + crossed)
  withElse? : ∀ part branch extended, part.withElse? branch = some extended →
    (around part).withElse? branch = some (around extended)

variable {crossed : Nat} {around : Tree → Tree}

theorem surrounds_id : Surrounds 0 id := ⟨fun _ _ => id, fun _ _ _ => id⟩

theorem Surrounds.ifThen (h : Surrounds crossed around) (condition : Tree) :
    Surrounds crossed fun part => around (.ifThen condition part) where
  openIf? part inner hpart := h.openIf? _ _ (by simp [Tree.openIf?, hpart])
  withElse? part branch extended hpart := h.withElse? _ _ _ (by simp [Tree.withElse?, hpart])

theorem Surrounds.ifElse (h : Surrounds crossed around) (condition yes : Tree) :
    Surrounds crossed fun part => around (.ifElse condition yes part) where
  openIf? part inner hpart := h.openIf? _ _ (by simp [Tree.openIf?, hpart])
  withElse? part branch extended hpart := h.withElse? _ _ _ (by simp [Tree.withElse?, hpart])

theorem Surrounds.whileLoop (h : Surrounds crossed around) (condition : Tree) :
    Surrounds (crossed + 1) fun part => around (.whileLoop condition part) where
  openIf? part inner hpart := by
    have hloop : (Tree.whileLoop condition part).openIf? = some (inner + 1) := by
      simp [Tree.openIf?, hpart]
    rw [h.openIf? _ _ hloop, Nat.add_right_comm, Nat.add_assoc]
  withElse? part branch extended hpart := h.withElse? _ _ _ (by simp [Tree.withElse?, hpart])

theorem Surrounds.forLoop (h : Surrounds crossed around) (start condition update : Tree) :
    Surrounds (crossed + 1) fun part => around (.forLoop start condition update part) where
  openIf? part inner hpart := by
    have hloop : (Tree.forLoop start condition update part).openIf? = some (inner + 1) := by
      simp [Tree.openIf?, hpart]
    rw [h.openIf? _ _ hloop, Nat.add_right_comm, Nat.add_assoc]
  withElse? part branch extended hpart := h.withElse? _ _ _ (by simp [Tree.withElse?, hpart])

/-- The `else` branches that are put off are read back into the statement, wherever its stem
stands in the last statement that has been read. -/
def ReadsElses (limit loops : Nat) (tree : Tree) : Prop :=
  ∀ room outer crossed around done more, Surrounds crossed around → loops = outer + crossed →
    (∀ branch ∈ tree.elses, branch.spellElse.length ≤ room) →
    arrange (statement limit room) outer (around tree.stem :: done)
        ((tree.elses.map Tree.spellElse).map Text.trim ++ more) =
      arrange (statement limit room) outer (around tree :: done) more

theorem readsElses_closed (hstem : tree.stem = tree) (helses : tree.elses = []) :
    ReadsElses limit loops tree := by
  intro room outer crossed around done more _ _ _
  rw [hstem, helses]
  rfl

theorem atStart?_spellElse {branch : Tree} (h : IsStem branch.spell) :
    ∃ rest, Keyword.atStart? branch.spellElse.trim = some (.elseWord, rest) ∧
      rest.trim = branch.spell := by
  by_cases hnil : branch.spell = []
  · refine ⟨[], ?_, hnil.symm⟩
    rw [Tree.spellElse, hnil]
    rfl
  · have helse : ∀ c ∈ Keyword.elseWord.spelling, inWord c := by decide
    have htrim : branch.spellElse.trim = Keyword.elseWord.spelling ++ ' ' :: branch.spell :=
      (h.after helse nofun hnil).trim
    refine ⟨' ' :: branch.spell, ?_, ?_⟩
    · rw [htrim, Keyword.atStart?_spelling _ (by simp; decide)]
    · exact h.trim

/-- One `else` branch is read and given to the innermost open `if`. -/
theorem arrange_else {condition yes branch : Tree} {outer : Nat}
    (hsurrounds : Surrounds crossed around) (hopen : yes.openIf? = none)
    (hbranch : IsStem branch.spell) (h : ∀ rest, rest.trim = branch.spell →
      statement limit room (outer + crossed) rest = .ok branch)
    (done : List Tree) (more : List Text) :
    arrange (statement limit room) outer (around (.ifThen condition yes) :: done)
        (branch.spellElse.trim :: more) =
      arrange (statement limit room) outer (around (.ifElse condition yes branch) :: done)
        more := by
  obtain ⟨rest, hkeyword, hrest⟩ := atStart?_spellElse hbranch
  have hnone : yes.withElse? branch = none := by
    simpa [hopen] using Tree.isSome_withElse? yes branch
  have hcrossed : (around (.ifThen condition yes)).openIf? = some (0 + crossed) :=
    hsurrounds.openIf? _ _ (by simp [Tree.openIf?, hopen])
  have hextended : (around (.ifThen condition yes)).withElse? branch =
      some (around (.ifElse condition yes branch)) :=
    hsurrounds.withElse? _ _ _ (by simp [Tree.withElse?, hnone])
  rw [arrange.eq_def]
  simp only [hkeyword, hcrossed, Nat.zero_add, h rest hrest, ok_bind, hextended]
  rfl

theorem readsElses_ifThen {condition yes : Tree} (h : ReadsElses limit loops yes) :
    ReadsElses limit loops (.ifThen condition yes) := by
  intro room outer crossed around done more hsurrounds hloops hlength
  exact h room outer crossed _ done more (hsurrounds.ifThen condition) hloops hlength

theorem readsElses_ifElse {condition yes no : Tree} (hopen : yes.openIf? = none)
    (hstem : IsStem no.stem.spell) (hyes : ReadsElses limit loops yes)
    (hno : ReadsStem limit loops no) (hno' : ReadsElses limit loops no) :
    ReadsElses limit loops (.ifElse condition yes no) := by
  intro room outer crossed around done more hsurrounds hloops hlength
  obtain ⟨hlengthYes, hlengthNo⟩ := List.forall_mem_append.mp hlength
  obtain ⟨hlengthStem, hlengthElses⟩ := List.forall_mem_cons.mp hlengthNo
  have hspell : no.stem.spellElse.length = 5 + no.stem.spell.length := List.length_append
  have hread (rest : Text) (hrest : rest.trim = no.stem.spell) :
      statement limit room (outer + crossed) rest = .ok no.stem := by
    rw [← hloops]
    exact hno room rest (by omega) (by omega) hrest
  calc arrange (statement limit room) outer (around (.ifThen condition yes.stem) :: done)
        (((yes.elses ++ no.stem :: no.elses).map Tree.spellElse).map Text.trim ++ more)
    _ = arrange (statement limit room) outer (around (.ifThen condition yes.stem) :: done)
          ((yes.elses.map Tree.spellElse).map Text.trim ++ (no.stem.spellElse.trim ::
            ((no.elses.map Tree.spellElse).map Text.trim ++ more))) := by
      simp only [List.map_append, List.map_cons, List.append_assoc, List.cons_append]
    _ = arrange (statement limit room) outer (around (.ifThen condition yes) :: done)
          (no.stem.spellElse.trim :: ((no.elses.map Tree.spellElse).map Text.trim ++ more)) :=
      hyes room outer crossed _ done _ (hsurrounds.ifThen condition) hloops hlengthYes
    _ = arrange (statement limit room) outer (around (.ifElse condition yes no.stem) :: done)
          ((no.elses.map Tree.spellElse).map Text.trim ++ more) :=
      arrange_else hsurrounds hopen hstem hread done _
    _ = arrange (statement limit room) outer (around (.ifElse condition yes no) :: done) more :=
      hno' room outer crossed _ done more (hsurrounds.ifElse condition yes) hloops hlengthElses

theorem readsElses_whileLoop {condition body : Tree} (h : ReadsElses limit (loops + 1) body) :
    ReadsElses limit loops (.whileLoop condition body) := by
  intro room outer crossed around done more hsurrounds hloops hlength
  exact h room outer (crossed + 1) _ done more (hsurrounds.whileLoop condition)
    (by rw [hloops, Nat.add_assoc]) hlength

theorem readsElses_forLoop {start condition update body : Tree}
    (h : ReadsElses limit (loops + 1) body) :
    ReadsElses limit loops (.forLoop start condition update body) := by
  intro room outer crossed around done more hsurrounds hloops hlength
  exact h room outer (crossed + 1) _ done more (hsurrounds.forLoop start condition update)
    (by rw [hloops, Nat.add_assoc]) hlength

/-- A statement is read back from its pieces, the stem first and then its branches. -/
structure ReadsPieces (limit loops : Nat) (tree : Tree) : Prop where
  isStem : IsStem tree.stem.spell
  stem : ReadsStem limit loops tree
  elses : ReadsElses limit loops tree

theorem arrange_stem (h : statement limit room loops text = .ok tree) (htext : text.trim = text)
    (done : List Tree) (more : List Text) :
    arrange (statement limit room) loops done (text :: more) =
      arrange (statement limit room) loops (tree :: done) more := by
  have helse := no_else_of_statement h
  rw [htext] at helse
  rw [arrange.eq_def]
  dsimp only
  split
  · case _ hkeyword => exact absurd hkeyword (helse _)
  · case _ hkeyword => exact absurd hkeyword (helse _)
  · rw [h]
    rfl

theorem arrange_pieces {statements : List Tree}
    (h : ∀ s ∈ statements, ReadsPieces limit loops s) (hroom : 2 ≤ room)
    (hlength : ∀ text ∈ statements.flatMap Tree.pieces, text.length ≤ room) (done : List Tree) :
    arrange (statement limit room) loops done ((statements.flatMap Tree.pieces).map Text.trim) =
      .ok (done.reverse ++ statements) := by
  induction statements generalizing done with
  | nil =>
    rw [List.append_nil]
    rfl
  | cons first statements ih =>
    obtain ⟨hfirst, hstatements⟩ := List.forall_mem_cons.mp h
    obtain ⟨hlengthFirst, hlength⟩ := List.forall_mem_append.mp hlength
    obtain ⟨hlengthStem, hlengthElses⟩ := List.forall_mem_cons.mp hlengthFirst
    have htrim := hfirst.isStem.trim
    have hstem := arrange_stem (hfirst.stem room _ hroom hlengthStem htrim) htrim done
      ((first.elses.map Tree.spellElse).map Text.trim ++
        (statements.flatMap Tree.pieces).map Text.trim)
    have helses := hfirst.elses room loops 0 id done
      ((statements.flatMap Tree.pieces).map Text.trim) surrounds_id rfl
      fun branch hbranch => hlengthElses _ (List.mem_map_of_mem hbranch)
    calc arrange (statement limit room) loops done
          (((first :: statements).flatMap Tree.pieces).map Text.trim)
      _ = arrange (statement limit room) loops (first.stem :: done)
            ((first.elses.map Tree.spellElse).map Text.trim ++
              (statements.flatMap Tree.pieces).map Text.trim) := by
        rw [← hstem, List.flatMap_cons, Tree.pieces, List.map_append, List.map_cons, htrim,
          List.cons_append]
      _ = arrange (statement limit room) loops (first :: done)
            ((statements.flatMap Tree.pieces).map Text.trim) := helses
      _ = .ok (done.reverse ++ first :: statements) := by
        rw [ih hstatements hlength, List.reverse_cons, List.append_assoc, List.singleton_append]

theorem length_le_intercalate {texts : List Text} (separator : Text) :
    ∀ text ∈ texts, text.length ≤ (separator.intercalate texts).length := by
  induction texts with
  | nil => exact nofun
  | cons first texts ih =>
    intro text htext
    by_cases hlast : texts = []
    · subst hlast
      rw [List.intercalate_singleton, List.mem_singleton.mp htext]
    · rw [List.intercalate_cons_of_ne_nil hlast, List.length_append, List.length_append]
      rcases List.mem_cons.mp htext with rfl | htext
      · omega
      · have hrest := ih text htext
        omega

/-- The text of a block is read back. -/
theorem block_spellAll {statements : List Tree}
    (h : ∀ s ∈ statements, ReadsPieces limit loops s)
    (hstatements : ∀ s ∈ statements, s.IsStatement loops)
    (hne : ∀ s ∈ statements, s ≠ .empty) (hroom : statements ≠ [] → 2 ≤ room)
    (hlength : (Tree.spellAll statements).length ≤ room) :
    block (statement limit room) loops (Tree.spellAll statements) = .ok (.block statements) := by
  by_cases hnil : statements = []
  · subst hnil
    rfl
  · have hlength : ∀ text ∈ statements.flatMap Tree.pieces, text.length ≤ room := by
      rw [Tree.spellAll_eq] at hlength
      exact fun text htext => (length_le_intercalate _ text htext).trans hlength
    simp only [block, Tree.pieces_spellAll hstatements hne, ok_bind,
      arrange_pieces h (hroom hnil) hlength]
    rfl

theorem readsStem_block {statements : List Tree}
    (h : ∀ s ∈ statements, ReadsPieces limit loops s)
    (hstatements : ∀ s ∈ statements, s.IsStatement loops)
    (hne : ∀ s ∈ statements, s ≠ .empty) : ReadsStem limit loops (.block statements) := by
  apply readsStem_of_succ
  intro room text hroom hlength htext
  have hspell : (Tree.block statements).stem.spell =
      Text.within '{' '}' (Tree.spellAll statements) := rfl
  rw [hspell] at hlength htext
  simp only [Text.within, List.length_append, List.length_cons, List.length_nil] at hlength
  have hnested := Tree.nested_spellAll fun s hs => Tree.isWhole_pieces (hstatements s hs).isStem
  rw [statement_braces htext hnested]
  refine block_spellAll h hstatements hne (fun hnil => ?_) (by omega)
  have hpos := List.length_pos_iff.mpr (Tree.spellAll_ne_nil hstatements hne hnil)
  omega

/-- A statement is read back from its pieces, if no `else` in it can go astray. -/
theorem readsPieces_statement (limit : Nat) (h : tree.IsStatement loops) :
    tree.settled → ReadsPieces limit loops tree := by
  have hstem := h.isStem.1
  suffices hreads : tree.settled → ReadsStem limit loops tree ∧ ReadsElses limit loops tree from
    fun hsettled => ⟨hstem, (hreads hsettled).1, (hreads hsettled).2⟩
  clear hstem
  induction h with
  | empty => exact fun _ => ⟨readsStem_empty, readsElses_closed rfl rfl⟩
  | expression h =>
    exact fun _ => ⟨readsStem_expression h, readsElses_closed h.stem_eq.1 h.stem_eq.2⟩
  | returning h => exact fun _ => ⟨readsStem_return h, readsElses_closed rfl rfl⟩
  | breakLoop h => exact fun _ => ⟨readsStem_breakLoop h, readsElses_closed rfl rfl⟩
  | ifThen hc hy ih =>
    intro hsettled
    obtain ⟨hreads, helses⟩ := ih hsettled
    exact ⟨readsStem_ifThen hc hy.isStem.1 hreads, readsElses_ifThen helses⟩
  | ifElse hc hy hn ihyes ihno =>
    intro hsettled
    simp only [Tree.settled, Bool.and_eq_true, Option.isNone_iff_eq_none] at hsettled
    obtain ⟨⟨hyes, hopen⟩, hno⟩ := hsettled
    obtain ⟨hreads, helses⟩ := ihyes hyes
    obtain ⟨hreadsNo, helsesNo⟩ := ihno hno
    exact ⟨readsStem_ifThen hc hy.isStem.1 hreads,
      readsElses_ifElse hopen hn.isStem.1 helses hreadsNo helsesNo⟩
  | whileLoop hc hb ih =>
    intro hsettled
    obtain ⟨hreads, helses⟩ := ih hsettled
    exact ⟨readsStem_whileLoop hc hb.isStem.1 hreads, readsElses_whileLoop helses⟩
  | forLoop hs hc hu hb ih =>
    intro hsettled
    obtain ⟨hreads, helses⟩ := ih hsettled
    exact ⟨readsStem_forLoop hs hc hu hb.isStem.1 hreads, readsElses_forLoop helses⟩
  | @block loops statements hne h ih =>
    intro hsettled
    have hall : ∀ s ∈ statements, s.settled := Tree.settledAll_iff.mp hsettled
    refine ⟨readsStem_block (fun s hs => ?_) h hne, readsElses_closed rfl rfl⟩
    exact ⟨(h s hs).isStem.1, (ih s hs (hall s hs)).1, (ih s hs (hall s hs)).2⟩

end Grammar
end RuleLang

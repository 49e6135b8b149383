import RuleLang.Proofs.Building
import RuleLang.Proofs.Spacing

/-!
Layout does not matter. Statements are read alike from a text and from the squeezed text, and a
block does not see the blanks at its ends. So it is enough that two sources are the same without
their comments when each run of blanks is made a single space and the ends are trimmed: both are
read as the same program, or both are refused for the same cause.
-/
namespace RuleLang

open Text

namespace Grammar

def MatchesWithin (statement statement' : Within) : Prop :=
  ∀ loops text, Matches Eq (statement loops text) (statement' loops (squeeze text))

section Statements

variable {inner inner' : Inner} {statement₁ statement₂ : Within}

theorem matches_arrange (hstatement : MatchesWithin statement₁ statement₂) (loops : Nat)
    (done : List Tree) (pieces : List Text) :
    Matches Eq (arrange statement₁ loops done pieces)
      (arrange statement₂ loops done (pieces.map squeeze)) := by
  induction pieces generalizing done with
  | nil => exact matches_return rfl
  | cons piece pieces ih =>
    have hplain : Matches Eq
        (do
          let tree ← statement₁ loops piece
          arrange statement₁ loops (tree :: done) pieces)
        (do
          let tree ← statement₂ loops (squeeze piece)
          arrange statement₂ loops (tree :: done) (pieces.map squeeze)) := by
      apply (hstatement _ _).bind
      rintro tree _ rfl
      exact ih _
    rw [List.map_cons]
    unfold arrange
    rw [Keyword.atStart?_squeeze]
    cases Keyword.atStart? piece with
    | none => exact hplain
    | some found =>
      obtain ⟨keyword, rest⟩ := found
      cases keyword
      case elseWord =>
        cases done with
        | nil => exact matches_throw rfl
        | cons last earlier =>
          simp only [Option.map_some]
          cases last.openIf? with
          | none => exact matches_throw rfl
          | some crossed =>
            apply (hstatement _ _).bind
            rintro branch _ rfl
            exact ih _
      all_goals exact hplain

theorem matches_block (hstatement : MatchesWithin statement₁ statement₂) (loops : Nat)
    (text : Text) :
    Matches Eq (block statement₁ loops text) (block statement₂ loops (squeeze text)) := by
  unfold block
  apply (matches_pieces (by decide) text).bind
  rintro pieces _ rfl
  apply (matches_arrange hstatement loops [] pieces).bind
  rintro trees _ rfl
  exact matches_return rfl

theorem matches_header (keyword : Keyword) (text : Text) :
    Matches (fun parts parts' => parts' = (squeeze parts.1, squeeze parts.2))
      (header keyword text) (header keyword (squeeze text)) := by
  unfold header
  rw [trimStart_squeeze]
  split
  · case _ rest htext =>
    simp only [htext, squeeze_cons_of_not_blank (by decide : ¬ isBlankChar '(')]
    rw [← squeeze_cons_of_not_blank (by decide)]
    exact (matches_enclosed (by decide) (by decide) _).mono fun _ _ h => h.1
  · case _ hnot =>
    have hnot' := squeeze_ne_cons (by decide) hnot
    split
    · case _ rest htext => exact absurd htext (hnot' rest)
    · exact matches_throw rfl

theorem matches_clause (hinner : MatchesInner inner inner') (absent : Tree) (text : Text) :
    Matches Eq (clause inner absent text) (clause inner' absent (squeeze text)) := by
  have hempty : (squeeze text).isEmpty = text.isEmpty := by
    rw [Bool.eq_iff_iff, List.isEmpty_iff, List.isEmpty_iff, squeeze_eq_nil_iff]
  unfold clause
  rw [hempty]
  split
  · exact matches_return rfl
  · exact hinner _ _ _

theorem matches_conditional (hinner : MatchesInner inner inner')
    (hstatement : MatchesWithin statement₁ statement₂) (loops : Nat) (text : Text) :
    Matches Eq (conditional inner statement₁ loops text)
      (conditional inner' statement₂ loops (squeeze text)) := by
  unfold conditional
  apply (matches_header _ _).bind
  rintro parts _ rfl
  apply (hinner _ _ _).bind
  rintro condition _ rfl
  apply (hstatement _ _).bind
  rintro yes _ rfl
  exact matches_return rfl

theorem matches_whileLoop (hinner : MatchesInner inner inner')
    (hstatement : MatchesWithin statement₁ statement₂) (loops : Nat) (text : Text) :
    Matches Eq (whileLoop inner statement₁ loops text)
      (whileLoop inner' statement₂ loops (squeeze text)) := by
  unfold whileLoop
  apply (matches_header _ _).bind
  rintro parts _ rfl
  apply (hinner _ _ _).bind
  rintro condition _ rfl
  apply (hstatement _ _).bind
  rintro body _ rfl
  exact matches_return rfl

theorem matches_forLoop (hinner : MatchesInner inner inner')
    (hstatement : MatchesWithin statement₁ statement₂) (loops : Nat) (text : Text) :
    Matches Eq (forLoop inner statement₁ loops text)
      (forLoop inner' statement₂ loops (squeeze text)) := by
  unfold forLoop
  apply (matches_header _ _).bind
  rintro parts _ rfl
  apply (matches_pieces (by decide) _).bind
  rintro pieces _ rfl
  rcases pieces with _ | ⟨start, _ | ⟨condition, _ | ⟨update, _ | ⟨fourth, others⟩⟩⟩⟩
  · exact matches_throw rfl
  · exact matches_throw rfl
  · exact matches_throw rfl
  · apply (matches_clause hinner _ _).bind
    rintro start _ rfl
    apply (matches_clause hinner _ _).bind
    rintro condition _ rfl
    apply (matches_clause hinner _ _).bind
    rintro update _ rfl
    apply (hstatement _ _).bind
    rintro body _ rfl
    exact matches_return rfl
  · exact matches_throw rfl

theorem matches_breakLoop (loops : Nat) (text : Text) :
    Matches Eq (breakLoop loops text) (breakLoop loops (squeeze text)) := by
  unfold breakLoop
  rw [isBlank_squeeze]
  split
  · exact matches_throw rfl
  · exact matches_refl _

theorem matches_returning (hinner : MatchesInner inner inner') (text : Text) :
    Matches Eq (returning inner text) (returning inner' (squeeze text)) := by
  unfold returning
  apply (hinner _ _ _).bind
  rintro value _ rfl
  exact matches_return rfl

end Statements

theorem matches_statement (limit room : Nat) :
    MatchesWithin (statement limit room) (statement limit room) := by
  induction room with
  | zero => exact fun _ _ => matches_throw rfl
  | succ room ih =>
    have hinner := matches_inner limit room
    intro loops text
    have htrim := trim_squeeze text
    cases htext : text.trim with
    | nil =>
      rw [htext] at htrim
      unfold statement
      simp only [htext, htrim, squeeze]
      exact matches_return rfl
    | cons c rest =>
      by_cases hc : c = '{'
      · subst hc
        rw [htext, squeeze_cons_of_not_blank (by decide)] at htrim
        unfold statement
        simp only [htext, htrim]
        rw [← squeeze_cons_of_not_blank (by decide)]
        apply (matches_enclosed (by decide) (by decide) _).bind
        rintro ⟨inside, left⟩ _ ⟨rfl, -⟩
        dsimp only
        rw [trimStart_squeeze]
        generalize left.trimStart = left
        cases left with
        | nil => exact matches_block ih loops inside
        | cons d left =>
          obtain ⟨e, left', heq⟩ := exists_squeeze_cons d left
          simp only [heq]
          exact matches_throw rfl
      · have hnil : text.trim = [] → False := by simp [htext]
        have hbrace : ∀ rest, text.trim = '{' :: rest → False := by simp [htext, hc]
        have hnil' : trim (squeeze text) = [] → False := by
          rwa [htrim, squeeze_eq_nil_iff]
        have hbrace' : ∀ rest, trim (squeeze text) = '{' :: rest → False := by
          rw [htrim]
          exact squeeze_ne_cons (by decide) hbrace
        rw [statement_of_not_braces hnil hbrace, statement_of_not_braces hnil' hbrace', htrim,
          Keyword.atStart?_squeeze]
        cases Keyword.atStart? text.trim with
        | none => exact hinner _ _ _
        | some found =>
          obtain ⟨keyword, rest⟩ := found
          cases keyword with
          | ifWord => exact matches_conditional hinner ih loops rest
          | whileWord => exact matches_whileLoop hinner ih loops rest
          | forWord => exact matches_forLoop hinner ih loops rest
          | breakWord => exact matches_breakLoop loops rest
          | returnWord => exact matches_returning hinner rest
          | elseWord => exact matches_throw rfl

/-- The blanks at the two ends are not in any statement of the block. -/
theorem matches_rule (limit : Nat) (source : Text) :
    Matches Eq (rule limit source)
      (block (statement limit limit) 0 (spaced source.stripComments)) := by
  have htrim : block (statement limit limit) 0 (spaced source.stripComments) =
      block (statement limit limit) 0 (squeeze source.stripComments) := by
    unfold block spaced
    rw [Division.pieces_trim (by decide)]
  rw [htrim]
  exact matches_block (matches_statement limit limit) 0 _

end Grammar

namespace Program

open Grammar

/-- Two sources whose texts without comments are equal up to spacing are read as one program, with
the same numbers for its nodes, or are refused for the same cause. -/
theorem parse_of_same_spacing {source source' : String}
    (h : spaced (stripComments source.toList) = spaced (stripComments source'.toList))
    (limit : Nat) :
    (∃ program, parse limit source = .ok program ∧ parse limit source' = .ok program) ∨
      ∃ fault fault', parse limit source = .error fault ∧ parse limit source' = .error fault' ∧
        fault.report.category = fault'.report.category ∧
        fault.report.message.template = fault'.report.message.template := by
  have hsource := matches_rule limit source.toList
  have hsource' := matches_rule limit source'.toList
  rw [← h] at hsource'
  have hrule : Matches Eq (rule limit source.toList) (rule limit source'.toList) :=
    hsource.of_common hsource'
  have hparse : Matches Eq (parse limit source) (parse limit source') := by
    rw [parse_eq, parse_eq]
    exact hrule.map fun _ _ => congrArg ofTree
  generalize hread : parse limit source = reading, hread' : parse limit source' = reading'
    at hparse ⊢
  cases hparse with
  | ok heq => exact .inl ⟨_, rfl, heq ▸ rfl⟩
  | error htemplate =>
    have hcategory := (parse_eq_error hread).1.trans (parse_eq_error hread').1.symm
    exact .inr ⟨_, _, rfl, rfl, hcategory, htemplate⟩

/-- An `else` is joined to its `if` over line ends and a comment, and a missing operand is missed
whatever blanks there are in its place. -/
theorem parse_two_spacings :
    let terse := "if ( a ) b ; else c"
    let loose := "if (\ta )\r\n  b ; // yes\nelse c\n"
    let rule : Tree := .block [.ifElse (.name "a") (.name "b") (.name "c")]
    spaced (stripComments terse.toList) = spaced (stripComments loose.toList) ∧
    parse 6 terse = .ok (.ofTree rule) ∧ parse 6 loose = .ok (.ofTree rule) ∧
    spaced (stripComments "( 1 + )".toList) = spaced (stripComments "( 1\t\t+ )".toList) ∧
    parse 6 "( 1 + )" = .error (.syntactic ⟨.missingExpression, ["1 +".toList]⟩) ∧
    ∃ fault, parse 6 "( 1\t\t+ )" = .error fault ∧
      fault.report.message.template = .missingExpression := by
  intro terse loose rule
  have hspaced : spaced (stripComments terse.toList) = spaced (stripComments loose.toList) := by
    cbv
  have hspaced' : spaced (stripComments "( 1 + )".toList) =
      spaced (stripComments "( 1\t\t+ )".toList) := by
    cbv
  have hrule : Grammar.rule 6 terse.toList = .ok rule := by cbv
  have hterse : parse 6 terse = .ok (.ofTree rule) := by
    rw [parse_eq, hrule]
    rfl
  have hmissing : parse 6 "( 1 + )" =
      .error (.syntactic ⟨.missingExpression, ["1 +".toList]⟩) := by cbv
  refine ⟨hspaced, hterse, ?_, hspaced', hmissing, ?_⟩
  · rcases parse_of_same_spacing hspaced 6 with ⟨program, hprogram, hloose⟩ | ⟨fault, -, hfault, -⟩
    · rw [hloose, ← hprogram, hterse]
    · cases hterse.symm.trans hfault
  · rcases parse_of_same_spacing hspaced' 6 with ⟨program, hprogram, -⟩ | hsame
    · cases hmissing.symm.trans hprogram
    · obtain ⟨fault, fault', hfault, hfault', -, htemplate⟩ := hsame
      cases hmissing.symm.trans hfault
      exact ⟨fault', hfault', htemplate.symm⟩

end Program
end RuleLang

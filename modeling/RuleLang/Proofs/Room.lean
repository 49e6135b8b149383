import RuleLang.Proofs.Blame
import RuleLang.Proofs.Comments

/-!
Readings with different room for nesting. With more room a source is read as before, unless the
room was too small: the fault of nesting is the only thing that the room decides. One lemma for
each reader says that it passes this on from the readers that it uses.
-/
namespace RuleLang

namespace Grammar

variable {α β : Type}

/-- The reading with less room fails with the fault of nesting, or more room makes no difference. -/
def Agrees (less more : Except Fault α) : Prop :=
  (∃ fault, less = .error fault ∧ fault.template = .tooDeep) ∨ more = less

theorem agrees_refl (reading : Except Fault α) : Agrees reading reading := .inr rfl

theorem agrees_tooDeep (limit : Nat) (text : Text) (more : Except Fault α) :
    Agrees (throw (.syntactic ⟨.tooDeep, [.ofNat limit, text]⟩)) more := .inl ⟨_, rfl, rfl⟩

theorem Agrees.bind {less more : Except Fault α} {next next' : α → Except Fault β}
    (h : Agrees less more) (hnext : ∀ a, Agrees (next a) (next' a)) :
    Agrees (less >>= next) (more >>= next') := by
  rcases h with ⟨fault, rfl, htemplate⟩ | rfl
  · exact .inl ⟨fault, rfl, htemplate⟩
  · cases more with
    | ok a => exact hnext a
    | error fault => exact agrees_refl _

theorem Agrees.bind_same {less more : Except Fault α} (h : Agrees less more)
    (next : α → Except Fault β) : Agrees (less >>= next) (more >>= next) :=
  h.bind fun a => agrees_refl (next a)

def AgreesInner (less more : Inner) : Prop :=
  ∀ text after, Agrees (less text after) (more text after)

def AgreesRead (less more : Text → Read) : Prop := ∀ text, Agrees (less text) (more text)

variable {inner inner' : Inner} {below below' operand₁ operand₂ : Text → Read}

theorem agrees_index? (hinner : AgreesInner inner inner') (name text : Text) :
    Agrees (index? inner name text) (index? inner' name text) := by
  unfold index?
  split
  · apply (agrees_refl _).bind
    intro parts
    exact (hinner _ _).bind_same _
  · exact agrees_refl _

theorem agrees_reference (hinner : AgreesInner inner inner') (name start text : Text) :
    Agrees (reference inner name start text) (reference inner' name start text) := by
  unfold reference
  apply (agrees_index? hinner _ _).bind
  intro row
  cases row with
  | none => exact agrees_refl _
  | some row => exact (agrees_index? hinner _ _).bind_same _

theorem agrees_extremum (hinner : AgreesInner inner inner') (op : BinaryOp) (word text : Text) :
    Agrees (extremum inner op word text) (extremum inner' op word text) := by
  unfold extremum
  apply (agrees_refl _).bind
  intro parts
  apply (agrees_refl _).bind
  intro pieces
  split
  · apply (hinner _ _).bind
    intro left
    exact (hinner _ _).bind_same _
  · exact agrees_refl _

theorem agrees_atom (hinner : AgreesInner inner inner') (source text : Text) :
    Agrees (atom inner source text) (atom inner' source text) := by
  unfold atom
  dsimp only
  split
  · exact agrees_refl _
  · apply (agrees_refl _).bind
    intro parts
    exact (hinner _ _).bind_same _
  · exact agrees_refl _
  · apply (agrees_refl _).bind
    intro word
    split
    · exact agrees_refl _
    · exact agrees_refl _
    · split
      · exact agrees_refl _
      · split
        · exact agrees_extremum hinner _ _ _
        · exact agrees_reference hinner _ _ _

theorem agrees_stepped (hinner : AgreesInner inner inner') (source text : Text) :
    Agrees (stepped inner source text) (stepped inner' source text) := by
  unfold stepped
  exact (agrees_atom hinner _ _).bind_same _

theorem agrees_operand (hinner : AgreesInner inner inner') (hbelow : AgreesRead below below')
    (source : Text) : AgreesRead (operand inner below source) (operand inner' below' source) := by
  intro text
  unfold operand
  dsimp only
  split
  · exact (agrees_stepped hinner _ _).bind_same _
  · exact (agrees_stepped hinner _ _).bind_same _
  · split
    · exact agrees_refl _
    · exact (hbelow _).bind_same _
  · exact (hbelow _).bind_same _
  · exact hbelow _
  · exact agrees_stepped hinner _ _

theorem agrees_links (hoperand : AgreesRead operand₁ operand₂) (bound : Nat) (start : Text)
    (first : Tree) (read : List (BinaryOp × Tree)) (text : Text) :
    Agrees (links operand₁ bound start first read text)
      (links operand₂ bound start first read text) := by
  induction bound generalizing start first read text with
  | zero =>
    rw [links_end (.inl rfl), links_end (.inl rfl)]
    exact agrees_refl _
  | succ bound ih =>
    cases hlink : linkAt? text.trimStart with
    | none =>
      rw [links_end (.inr hlink), links_end (.inr hlink)]
      exact agrees_refl _
    | some link =>
      obtain ⟨op, k⟩ := link
      by_cases hop : op = .assign
      · subst hop
        rw [links_assign hlink, links_assign hlink]
        split
        · apply (hoperand _).bind
          intro found
          exact (ih _ _ _ _).bind_same _
        · exact agrees_refl _
      · rw [links_operator hop hlink, links_operator hop hlink]
        exact (hoperand _).bind fun _ => ih _ _ _ _

theorem agrees_chain (hoperand : AgreesRead operand₁ operand₂) :
    AgreesRead (chain operand₁) (chain operand₂) := by
  intro text
  unfold chain
  exact (hoperand _).bind fun _ => agrees_links hoperand _ _ _ _ _

theorem agrees_expression_prefixed (limit limit' : Nat) {room room' : Nat} (hroom : room ≤ room') :
    AgreesInner (expression limit room) (expression limit' room') ∧
      ∀ source, AgreesRead (prefixed limit room source) (prefixed limit' room' source) := by
  induction room generalizing room' with
  | zero =>
    refine ⟨fun text after => ?_, fun source text => ?_⟩
    · unfold expression
      split
      · exact agrees_refl _
      · exact agrees_tooDeep _ _ _
    · unfold prefixed
      exact agrees_tooDeep _ _ _
  | succ room ih =>
    cases room' with
    | zero => exact absurd hroom (Nat.not_succ_le_zero _)
    | succ room' =>
      obtain ⟨hinner, hbelow⟩ := ih (Nat.le_of_succ_le_succ hroom)
      refine ⟨fun text after => ?_, fun source text => ?_⟩
      · unfold expression
        split
        · exact agrees_refl _
        · exact (agrees_chain (agrees_operand hinner (hbelow text) text) text).bind_same _
      · unfold prefixed
        exact agrees_operand hinner (hbelow source) source text

def AgreesWithin (less more : Within) : Prop :=
  ∀ loops text, Agrees (less loops text) (more loops text)

variable {statement₁ statement₂ : Within}

theorem agrees_arrange (hstatement : AgreesWithin statement₁ statement₂) (loops : Nat)
    (done : List Tree) (pieces : List Text) :
    Agrees (arrange statement₁ loops done pieces) (arrange statement₂ loops done pieces) := by
  induction pieces generalizing done with
  | nil => exact agrees_refl _
  | cons piece pieces ih =>
    unfold arrange
    split
    · split
      · exact (hstatement _ _).bind fun _ => ih _
      · exact agrees_refl _
    · exact agrees_refl _
    · exact (hstatement _ _).bind fun _ => ih _

theorem agrees_block (hstatement : AgreesWithin statement₁ statement₂) (loops : Nat)
    (text : Text) : Agrees (block statement₁ loops text) (block statement₂ loops text) := by
  unfold block
  apply (agrees_refl _).bind
  intro pieces
  exact (agrees_arrange hstatement _ _ _).bind_same _

theorem agrees_clause (hinner : AgreesInner inner inner') (absent : Tree) (text : Text) :
    Agrees (clause inner absent text) (clause inner' absent text) := by
  unfold clause
  split
  · exact agrees_refl _
  · exact hinner _ _

theorem agrees_conditional (hinner : AgreesInner inner inner')
    (hstatement : AgreesWithin statement₁ statement₂) (loops : Nat) (text : Text) :
    Agrees (conditional inner statement₁ loops text)
      (conditional inner' statement₂ loops text) := by
  unfold conditional
  apply (agrees_refl _).bind
  intro parts
  apply (hinner _ _).bind
  intro condition
  exact (hstatement _ _).bind_same _

theorem agrees_whileLoop (hinner : AgreesInner inner inner')
    (hstatement : AgreesWithin statement₁ statement₂) (loops : Nat) (text : Text) :
    Agrees (whileLoop inner statement₁ loops text)
      (whileLoop inner' statement₂ loops text) := by
  unfold whileLoop
  apply (agrees_refl _).bind
  intro parts
  apply (hinner _ _).bind
  intro condition
  exact (hstatement _ _).bind_same _

theorem agrees_forLoop (hinner : AgreesInner inner inner')
    (hstatement : AgreesWithin statement₁ statement₂) (loops : Nat) (text : Text) :
    Agrees (forLoop inner statement₁ loops text)
      (forLoop inner' statement₂ loops text) := by
  unfold forLoop
  apply (agrees_refl _).bind
  intro parts
  apply (agrees_refl _).bind
  intro pieces
  split
  · apply (agrees_clause hinner _ _).bind
    intro start
    apply (agrees_clause hinner _ _).bind
    intro condition
    apply (agrees_clause hinner _ _).bind
    intro update
    exact (hstatement _ _).bind_same _
  · exact agrees_refl _

theorem agrees_statement (limit limit' : Nat) {room room' : Nat} (hroom : room ≤ room') :
    AgreesWithin (statement limit room) (statement limit' room') := by
  induction room generalizing room' with
  | zero => exact fun _ _ => agrees_tooDeep _ _ _
  | succ room ih =>
    cases room' with
    | zero => exact absurd hroom (Nat.not_succ_le_zero _)
    | succ room' =>
      have hle := Nat.le_of_succ_le_succ hroom
      have hinner := (agrees_expression_prefixed limit limit' hle).1
      intro loops text
      unfold statement
      dsimp only
      split
      · exact agrees_refl _
      · apply (agrees_refl _).bind
        intro parts
        split
        · exact agrees_block (ih hle) _ _
        · exact agrees_refl _
      · split
        · exact agrees_conditional hinner (ih hle) _ _
        · exact agrees_whileLoop hinner (ih hle) _ _
        · exact agrees_forLoop hinner (ih hle) _ _
        · exact agrees_refl _
        · exact (hinner _ _).bind_same _
        · exact agrees_refl _
        · exact hinner _ _

theorem agrees_rule {limit limit' : Nat} (hlimit : limit ≤ limit') (source : Text) :
    Agrees (rule limit source) (rule limit' source) :=
  agrees_block (agrees_statement limit limit' hlimit) _ _

end Grammar

namespace Program

theorem not_tooDeep_of_length {limit : Nat} {source : String} {fault : Fault}
    (hlimit : (Text.stripComments source.toList).length + 2 ≤ limit)
    (h : Program.parse limit source = .error fault) :
    fault.report.message.template ≠ .tooDeep := by
  rw [parse_eq_error_iff] at h
  by_cases hbalanced : Text.Balanced Text.bracketPairs (Text.stripComments source.toList)
  · have hsettles := Grammar.settles_rule limit hbalanced
    rw [h] at hsettles
    intro htemplate
    have hle := hsettles.2 htemplate
    omega
  · obtain ⟨bracket, hculprit⟩ := Text.exists_culprit (List.Subset.refl _) hbalanced
    have hfault := Except.error.inj (h.symm.trans (Grammar.rule_of_culprit limit hculprit))
    have htemplate : fault.report.message.template = .unbalanced := by
      rw [hfault]
      rfl
    rw [htemplate]
    decide

/-- A higher limit only takes away faults of nesting, and a limit beyond the size of the source
leaves none of them. -/
theorem parse_of_le_limit :
    (∀ source limit limit', limit ≤ limit' →
      (∀ fault, Program.parse limit source = .error fault →
        fault.report.message.template ≠ .tooDeep) →
      Program.parse limit' source = Program.parse limit source) ∧
    ∀ source limit, Text.byteSize source.toList + 2 ≤ limit →
      ∀ fault, Program.parse limit source = .error fault →
        fault.report.message.template ≠ .tooDeep := by
  constructor
  · intro source limit limit' hlimit hnot
    rcases Grammar.agrees_rule hlimit source.toList with ⟨fault, hfault, htemplate⟩ | heq
    · exact absurd htemplate (hnot fault (parse_eq_error_iff.mpr hfault))
    · rw [Program.parse_eq, Program.parse_eq, heq]
  · intro source limit hlimit fault h
    have hstripped := Text.length_stripComments_le source.toList
    have hbytes := Text.length_le_byteSize source.toList
    exact not_tooDeep_of_length (by omega) h

/-- A name in parentheses takes three levels; the missing operand is missing at any limit. -/
theorem parse_parens_of_le_limit :
    Program.parse 2 "(a)" = .error (.syntactic ⟨.tooDeep, [.ofNat 2, ['a']]⟩) ∧
    Program.parse 300 "(a)" = .ok ⟨#[.name "a", .block [0]], 1⟩ ∧
    Program.parse 300 "(1 +)" = .error (.syntactic ⟨.missingExpression, ["1 +".toList]⟩) ∧
    ∀ fault, Program.parse 8 "a = ((" = .error fault →
      fault.report.message.template ≠ .tooDeep := by
  have hparens : Program.parse 3 "(a)" = .ok ⟨#[.name "a", .block [0]], 1⟩ := by cbv
  have hmissing : Program.parse 3 "(1 +)" =
      .error (.syntactic ⟨.missingExpression, ["1 +".toList]⟩) := by cbv
  refine ⟨by cbv, ?_, ?_, parse_of_le_limit.2 "a = ((" 8 (by decide)⟩
  · rw [parse_of_le_limit.1 "(a)" 3 300 (by decide) ?_, hparens]
    intro fault h
    cases hparens.symm.trans h
  · rw [parse_of_le_limit.1 "(1 +)" 3 300 (by decide) ?_, hmissing]
    intro fault h
    cases hmissing.symm.trans h
    decide

end Program
end RuleLang

import RuleLang.Proofs.Blanks
import RuleLang.Proofs.Building

/-!
Which sources are blamed for their brackets, and which for their nesting. The first division of a
source reports its culprit if it has one. In a balanced source every text that a reader is given is
balanced, so that no later reader finds anything wrong with brackets, although an expression is
read as if braces were plain text. Such a reader can only run out of room for nesting if its text
is longer than the room, since every use of room takes at least one character.
-/
namespace RuleLang

variable {α β : Type} {deep : Prop}

/-- Whether a fault is neither that of brackets nor that of nesting. -/
def Fault.isOther (fault : Fault) : Bool := fault.template ∉ [Template.unbalanced, Template.tooDeep]

/-- The reading succeeds with something good or fails with another fault than that of brackets,
and with that of nesting only under a condition. -/
def Settles (deep : Prop) (reading : Except Fault α) (good : α → Prop) : Prop :=
  match reading with
  | .ok a => good a
  | .error fault => fault.template ≠ .unbalanced ∧ (fault.template = .tooDeep → deep)

theorem settles_return {a : α} {good : α → Prop} (h : good a) :
    Settles deep (pure a : Except Fault α) good := h

theorem settles_throw {fault : Fault} {good : α → Prop} (h : fault.isOther) :
    Settles deep (throw fault : Except Fault α) good := by
  have hother : fault.template ≠ .unbalanced ∧ fault.template ≠ .tooDeep := by
    simpa [Fault.isOther] using h
  exact ⟨hother.1, fun htemplate => absurd htemplate hother.2⟩

theorem settles_tooDeep {limit : Nat} {text : Text} {good : α → Prop} (h : deep) :
    Settles deep (throw (.syntactic ⟨.tooDeep, [.ofNat limit, text]⟩) : Except Fault α) good :=
  ⟨nofun, fun _ => h⟩

theorem Settles.mono {reading : Except Fault α} {good good' : α → Prop}
    (h : Settles deep reading good) (himp : ∀ a, good a → good' a) :
    Settles deep reading good' := by
  cases reading with
  | ok a => exact himp a h
  | error fault => exact h

theorem Settles.deeper {deep' : Prop} {reading : Except Fault α} {good : α → Prop}
    (h : Settles deep reading good) (himp : deep → deep') : Settles deep' reading good := by
  cases reading with
  | ok a => exact h
  | error fault => exact ⟨h.1, fun htemplate => himp (h.2 htemplate)⟩

theorem Settles.bind {reading : Except Fault α} {next : α → Except Fault β} {good : α → Prop}
    {good' : β → Prop} (h : Settles deep reading good)
    (hnext : ∀ a, good a → Settles deep (next a) good') :
    Settles deep (reading >>= next) good' := by
  cases reading with
  | ok a => exact hnext a h
  | error fault => exact h

namespace Text

/-- The pairs of brackets that count inside expressions. -/
def innerPairs : List (Char × Char) := [('(', ')'), ('[', ']')]

theorem innerPairs_subset : innerPairs ⊆ bracketPairs := by decide

end Text

open Text (Fits bracketPairs innerPairs innerPairs_subset)

variable {pairs : List (Char × Char)} {n : Nat} {text : Text}

theorem settles_pieces (division : Division) (hpairs : division.brackets ⊆ bracketPairs)
    (h : Fits division.brackets n text) :
    Settles deep (division.pieces text) fun pieces =>
      ∀ piece ∈ pieces, Fits division.brackets n piece := by
  obtain ⟨pieces, hpieces, hfits⟩ := division.fits_pieces hpairs h
  rw [hpieces]
  exact hfits

theorem settles_word (text : Text) : Settles deep (Word.atStart? text) fun _ => True := by
  unfold Word.atStart? Word.ofLetters?
  split
  · trivial
  · split
    · trivial
    · split
      · trivial
      · exact settles_throw rfl

theorem Text.Fits.dropOperator {op : Operator} {k : Nat} (h : Fits pairs (n + 1) text)
    (hpairs : pairs ⊆ bracketPairs) (hop : Operator.atStart? text = some (op, k)) :
    Fits pairs n (text.drop k) := by
  obtain ⟨hk, hlength, hplain⟩ := Operator.atStart?_takes hop
  refine ⟨h.balanced.drop k fun c hc => Text.ordinary_of_isPlain hpairs (hplain c hc).1, ?_⟩
  have hlt := h.length_lt
  rw [List.length_drop]
  omega

theorem Text.Fits.afterLeast? {rest : Text} (h : Fits innerPairs n text)
    (hleast : Grammar.afterLeast? text = some rest) : Fits innerPairs n rest := by
  unfold Grammar.afterLeast? at hleast
  split at hleast
  · obtain rfl := Option.some.inj hleast
    exact (h.trimStart innerPairs_subset).afterWord innerPairs_subset
  · cases hleast

namespace Grammar

section Readers

variable {inner : Inner} {below : Text → Read} {name start source : Text}

theorem settles_enclosed {opening closing : Char} (h : Fits pairs (n + 1) (opening :: text))
    (hpairs : pairs ⊆ bracketPairs) (hmem : (opening, closing) ∈ pairs) :
    Settles deep (enclosed opening closing (opening :: text)) fun parts =>
      Fits pairs n parts.1 ∧ Fits pairs n parts.2 := by
  obtain ⟨inside, rest, henclosed, hinside, hrest⟩ := h.enclosed? hpairs hmem
  rw [enclosed, henclosed]
  exact ⟨hinside, hrest⟩

/-- The reader of what stands in brackets settles what is balanced and short enough. -/
def SettlesInner (deep : Prop) (n : Nat) (inner : Inner) : Prop :=
  ∀ text after, Fits innerPairs n text → Settles deep (inner text after) fun _ => True

/-- The reader settles what is balanced and short enough, and leaves such a text. -/
def SettlesRest (deep : Prop) (n : Nat) (reader : Text → Read) : Prop :=
  ∀ text, Fits innerPairs n text → Settles deep (reader text) fun found => Fits innerPairs n found.2

theorem settles_index? (hinner : SettlesInner deep n inner) (name : Text)
    (h : Fits innerPairs (n + 1) text) :
    Settles deep (index? inner name text) fun found =>
      ∀ parts ∈ found, Fits innerPairs (n + 1) parts.2 := by
  have hstart := h.trimStart innerPairs_subset
  unfold index?
  split
  · case _ rest htext =>
    rw [htext] at hstart
    apply (settles_enclosed hstart innerPairs_subset (by decide)).bind
    intro parts hparts
    apply (hinner _ _ hparts.1).bind
    intro index _
    exact settles_return fun _ hfound => Option.some.inj hfound ▸ hparts.2.mono n.le_succ
  · exact settles_return fun _ h => absurd h (Option.not_mem_none _)

theorem settles_methodOp (method : Text) (target : Tree) (source : Text) :
    Settles deep (methodOp method target source) fun _ => True := by
  unfold methodOp
  split
  · split
    · trivial
    · trivial
    · exact settles_throw rfl
  · split
    · split
      · trivial
      · exact settles_throw rfl
    · exact settles_throw rfl

theorem settles_call (start : Text) (target : Tree) (h : Fits innerPairs (n + 1) text) :
    Settles deep (call start target text) fun found => Fits innerPairs (n + 1) found.2 := by
  have hstart := h.trimStart innerPairs_subset
  unfold call
  split
  · case _ rest htext =>
    rw [htext] at hstart
    have hdot := hstart.tail
      (Text.ordinary_of_isPlain innerPairs_subset (by decide : Text.isPlain true '.'))
    have hafter := ((hdot.trimStart innerPairs_subset).afterWord innerPairs_subset).trimStart
      innerPairs_subset
    apply (settles_word _).bind
    intro word _
    split
    · split
      · case _ arguments harguments =>
        rw [harguments] at hafter
        apply (settles_enclosed hafter innerPairs_subset (by decide)).bind
        rintro ⟨inside, rest⟩ ⟨_, hrest⟩
        dsimp only
        split
        · apply (settles_methodOp _ _ _).bind
          intro op _
          exact settles_return (hrest.mono n.le_succ)
        · exact settles_throw rfl
      · exact settles_throw rfl
    · exact settles_throw rfl
  · exact hstart

theorem settles_reference (hinner : SettlesInner deep n inner) (name start : Text)
    (h : Fits innerPairs (n + 1) text) :
    Settles deep (reference inner name start text) fun found =>
      Fits innerPairs (n + 1) found.2 := by
  unfold reference
  apply (settles_index? hinner _ h).bind
  intro row hrow
  split
  · exact settles_call _ _ h
  · apply (settles_index? hinner _ (hrow _ rfl)).bind
    intro column hcolumn
    split
    · exact settles_call _ _ (hrow _ rfl)
    · exact settles_call _ _ (hcolumn _ rfl)

theorem settles_extremum (hinner : SettlesInner deep n inner) (op : BinaryOp) (word : Text)
    {rest : Text} (h : Fits innerPairs (n + 1) ('(' :: rest)) :
    Settles deep (extremum inner op word ('(' :: rest)) fun found =>
      Fits innerPairs (n + 1) found.2 := by
  unfold extremum
  apply (settles_enclosed h innerPairs_subset (by decide)).bind
  intro parts hparts
  apply (settles_pieces .arguments innerPairs_subset hparts.1).bind
  intro pieces hpieces
  split
  · case _ left right =>
    apply (hinner _ _ (hpieces left (by simp))).bind
    intro _ _
    apply (hinner _ _ (hpieces right (by simp))).bind
    intro _ _
    exact settles_return (hparts.2.mono n.le_succ)
  · exact settles_throw rfl

theorem settles_atom (hinner : SettlesInner deep n inner) (source : Text)
    (h : Fits innerPairs (n + 1) text) :
    Settles deep (atom inner source text) fun found => Fits innerPairs (n + 1) found.2 := by
  have hstart := h.trimStart innerPairs_subset
  unfold atom
  dsimp only
  split
  · exact settles_throw rfl
  · case _ rest htext =>
    rw [htext] at hstart ⊢
    apply (settles_enclosed hstart innerPairs_subset (by decide)).bind
    intro parts hparts
    apply (hinner _ _ hparts.1).bind
    intro tree _
    exact settles_return (hparts.2.mono n.le_succ)
  · exact settles_throw rfl
  · have hafter := hstart.afterWord innerPairs_subset
    apply (settles_word _).bind
    intro word _
    split
    · exact settles_throw rfl
    · exact settles_return hafter
    · split
      · exact settles_throw rfl
      · have hnext := hafter.trimStart innerPairs_subset
        split
        · case _ hrest =>
          rw [hrest] at hnext ⊢
          exact settles_extremum hinner _ _ hnext
        · exact settles_reference hinner _ _ hnext

theorem settles_step (op : UnaryOp) (target : Tree) (start rest : Text) :
    Settles deep (step op target start rest) fun _ => True := by
  unfold step
  split
  · trivial
  · exact settles_throw rfl

theorem settles_stepped (hinner : SettlesInner deep n inner) (source : Text)
    (h : Fits innerPairs (n + 1) text) :
    Settles deep (stepped inner source text) fun found => Fits innerPairs (n + 1) found.2 := by
  unfold stepped
  apply (settles_atom hinner _ (h.trimStart innerPairs_subset)).bind
  intro found hfound
  have hrest := hfound.trimStart innerPairs_subset
  dsimp only
  split
  · case _ hop =>
    have hrest := (hrest.dropOperator innerPairs_subset hop).mono n.le_succ
    exact (settles_step _ _ _ _).bind fun _ _ => settles_return hrest
  · case _ hop =>
    have hrest := (hrest.dropOperator innerPairs_subset hop).mono n.le_succ
    exact (settles_step _ _ _ _).bind fun _ _ => settles_return hrest
  · exact settles_return hrest

theorem settles_operand (hinner : SettlesInner deep n inner) (hbelow : SettlesRest deep n below)
    (source : Text) : SettlesRest deep (n + 1) (operand inner below source) := by
  intro text h
  have hstart := h.trimStart innerPairs_subset
  unfold operand
  dsimp only
  split
  · case _ hop =>
    have hdrop := (hstart.dropOperator innerPairs_subset hop).mono n.le_succ
    apply (settles_stepped hinner _ hdrop).bind
    intro found hfound
    exact (settles_step _ _ _ _).bind fun _ _ => settles_return hfound
  · case _ hop =>
    have hdrop := (hstart.dropOperator innerPairs_subset hop).mono n.le_succ
    apply (settles_stepped hinner _ hdrop).bind
    intro found hfound
    exact (settles_step _ _ _ _).bind fun _ _ => settles_return hfound
  · case _ hop =>
    have hdrop := hstart.dropOperator innerPairs_subset hop
    split
    · case _ hleast => exact settles_return ((hdrop.afterLeast? hleast).mono n.le_succ)
    · apply (hbelow _ hdrop).bind
      intro found hfound
      exact settles_return (hfound.mono n.le_succ)
  · case _ hop =>
    apply (hbelow _ (hstart.dropOperator innerPairs_subset hop)).bind
    intro found hfound
    exact settles_return (hfound.mono n.le_succ)
  · case _ hop =>
    exact (hbelow _ (hstart.dropOperator innerPairs_subset hop)).mono fun _ hfound =>
      hfound.mono n.le_succ
  · exact settles_stepped hinner _ hstart

theorem settles_links {operand : Text → Read} (hoperand : SettlesRest deep (n + 1) operand)
    (bound : Nat) (start : Text) (first : Tree) (read : List (BinaryOp × Tree))
    (h : Fits innerPairs (n + 1) text) :
    Settles deep (links operand bound start first read text) fun found =>
      Fits innerPairs (n + 1) found.2 := by
  induction bound generalizing start first read text with
  | zero =>
    rw [links_end (.inl rfl)]
    exact settles_return (h.trimStart innerPairs_subset)
  | succ bound ih =>
    have hstart := h.trimStart innerPairs_subset
    cases hlink : linkAt? text.trimStart with
    | none =>
      rw [links_end (.inr hlink)]
      exact settles_return hstart
    | some link =>
      obtain ⟨op, k⟩ := link
      obtain ⟨operator, hoperator⟩ := operator_of_linkAt? hlink
      have hdrop := (hstart.dropOperator innerPairs_subset hoperator).mono n.le_succ
      by_cases hop : op = .assign
      · subst hop
        rw [links_assign hlink]
        split
        · apply (hoperand _ (hdrop.trimStart innerPairs_subset)).bind
          intro found hfound
          apply (ih _ _ _ hfound).bind
          intro value hvalue
          exact settles_return hvalue
        · exact settles_throw rfl
      · rw [links_operator hop hlink]
        apply (hoperand _ hdrop).bind
        intro found hfound
        exact ih _ _ _ hfound

theorem settles_chain {operand : Text → Read} (hoperand : SettlesRest deep (n + 1) operand) :
    SettlesRest deep (n + 1) (chain operand) := by
  intro text h
  unfold chain
  apply (hoperand _ (h.trimStart innerPairs_subset)).bind
  intro found hfound
  exact settles_links hoperand _ _ _ _ hfound

end Readers

/-- Both readers settle, by induction on the room for nesting. -/
theorem settles_expression_prefixed (limit room n : Nat) :
    SettlesInner (room < n) n (expression limit room) ∧
      ∀ source, SettlesRest (room < n) n (prefixed limit room source) := by
  induction room generalizing n with
  | zero =>
    have hpos {text : Text} (h : Fits innerPairs n text) : 0 < n := Nat.zero_lt_of_lt h.length_lt
    refine ⟨fun text after h => ?_, fun source text h => ?_⟩
    · unfold expression
      split
      · exact settles_throw rfl
      · exact settles_tooDeep (hpos h)
    · unfold prefixed
      exact settles_tooDeep (hpos h)
  | succ room ih =>
    cases n with
    | zero => exact ⟨fun _ _ h => absurd h.length_lt (Nat.not_lt_zero _),
        fun _ _ h => absurd h.length_lt (Nat.not_lt_zero _)⟩
    | succ n =>
      simp only [Nat.add_lt_add_iff_right]
      refine ⟨fun text after h => ?_, fun source text h => ?_⟩
      · unfold expression
        split
        · exact settles_throw rfl
        · apply (settles_chain (settles_operand (ih n).1 ((ih n).2 text) text) _ h).bind
          intro found _
          dsimp only
          split
          · trivial
          · exact settles_throw rfl
      · unfold prefixed
        exact settles_operand (ih n).1 ((ih n).2 source) source text h

/-- The reader settles statements that are balanced and short enough. -/
def SettlesStatements (deep : Prop) (n : Nat) (statement : Within) : Prop :=
  ∀ loops text, Fits bracketPairs n text → Settles deep (statement loops text) fun _ => True

section Statements

variable {inner : Inner} {statement : Within}

theorem fits_keyword {keyword : Keyword} {rest : Text} (h : Fits bracketPairs n text)
    (hkeyword : Keyword.atStart? text = some (keyword, rest)) : Fits bracketPairs n rest := by
  obtain ⟨_, _, hpair⟩ := Option.map_eq_some_iff.mp hkeyword
  obtain rfl := (Prod.mk.inj hpair).2
  exact (h.trimStart (List.Subset.refl _)).afterWord (List.Subset.refl _)

theorem settles_arrange (hstatement : SettlesStatements deep n statement) (loops : Nat)
    (done : List Tree) {pieces : List Text}
    (hpieces : ∀ piece ∈ pieces, Fits bracketPairs n piece) :
    Settles deep (arrange statement loops done pieces) fun _ => True := by
  induction pieces generalizing done with
  | nil => trivial
  | cons piece pieces ih =>
    obtain ⟨hpiece, hpieces⟩ := List.forall_mem_cons.mp hpieces
    unfold arrange
    split
    · case _ hkeyword =>
      split
      · apply (hstatement _ _ (fits_keyword hpiece hkeyword)).bind
        intro branch _
        exact ih _ hpieces
      · exact settles_throw rfl
    · exact settles_throw rfl
    · apply (hstatement _ _ hpiece).bind
      intro tree _
      exact ih _ hpieces

theorem settles_block (hstatement : SettlesStatements deep n statement) (loops : Nat)
    (h : Fits bracketPairs n text) : Settles deep (block statement loops text) fun _ => True := by
  unfold block
  apply (settles_pieces .statements (List.Subset.refl _) h).bind
  intro pieces hpieces
  apply (settles_arrange hstatement loops [] hpieces).bind
  intro statements _
  exact settles_return trivial

theorem settles_header (keyword : Keyword) (h : Fits bracketPairs (n + 1) text) :
    Settles deep (header keyword text) fun parts =>
      Fits bracketPairs n parts.1 ∧ Fits bracketPairs n parts.2 := by
  have hstart := h.trimStart (List.Subset.refl _)
  unfold header
  split
  · case _ rest htext =>
    rw [htext] at hstart
    exact settles_enclosed hstart (List.Subset.refl _) (by decide)
  · exact settles_throw rfl

theorem settles_clause (hinner : SettlesInner deep n inner) (absent : Tree)
    (h : Fits innerPairs n text) : Settles deep (clause inner absent text) fun _ => True := by
  unfold clause
  split
  · trivial
  · exact hinner _ _ h

theorem settles_conditional (hinner : SettlesInner deep n inner)
    (hstatement : SettlesStatements deep n statement) (loops : Nat)
    (h : Fits bracketPairs (n + 1) text) :
    Settles deep (conditional inner statement loops text) fun _ => True := by
  unfold conditional
  apply (settles_header _ h).bind
  intro parts hparts
  apply (hinner _ _ (hparts.1.of_subset innerPairs_subset)).bind
  intro condition _
  apply (hstatement _ _ hparts.2).bind
  intro body _
  exact settles_return trivial

theorem settles_whileLoop (hinner : SettlesInner deep n inner)
    (hstatement : SettlesStatements deep n statement) (loops : Nat)
    (h : Fits bracketPairs (n + 1) text) :
    Settles deep (whileLoop inner statement loops text) fun _ => True := by
  unfold whileLoop
  apply (settles_header _ h).bind
  intro parts hparts
  apply (hinner _ _ (hparts.1.of_subset innerPairs_subset)).bind
  intro condition _
  apply (hstatement _ _ hparts.2).bind
  intro body _
  exact settles_return trivial

theorem settles_forLoop (hinner : SettlesInner deep n inner)
    (hstatement : SettlesStatements deep n statement) (loops : Nat)
    (h : Fits bracketPairs (n + 1) text) :
    Settles deep (forLoop inner statement loops text) fun _ => True := by
  unfold forLoop
  apply (settles_header _ h).bind
  intro parts hparts
  have hclauses := hparts.1.of_subset innerPairs_subset
  apply (settles_pieces .clauses innerPairs_subset hclauses).bind
  intro pieces hpieces
  split
  · case _ start condition update =>
    apply (settles_clause hinner _ (hpieces start (by simp))).bind
    intro _ _
    apply (settles_clause hinner _ (hpieces condition (by simp))).bind
    intro _ _
    apply (settles_clause hinner _ (hpieces update (by simp))).bind
    intro _ _
    apply (hstatement _ _ hparts.2).bind
    intro body _
    exact settles_return trivial
  · exact settles_throw rfl

theorem settles_breakLoop (loops : Nat) (text : Text) :
    Settles deep (breakLoop loops text) fun _ => True := by
  unfold breakLoop
  split
  · exact settles_throw rfl
  · split
    · exact settles_throw rfl
    · trivial

end Statements

theorem settles_statement (limit room n : Nat) :
    SettlesStatements (room ≤ n) n (statement limit room) := by
  induction room generalizing n with
  | zero => exact fun _ _ _ => settles_tooDeep n.zero_le
  | succ room ih =>
    intro loops text h
    cases n with
    | zero => exact absurd h.length_lt (Nat.not_lt_zero _)
    | succ n =>
      have hwide : SettlesInner (room + 1 ≤ n + 1) (n + 1) (expression limit room) :=
        (settles_expression_prefixed limit room (n + 1)).1
      have hinner : SettlesInner (room + 1 ≤ n + 1) n (expression limit room) :=
        fun text after htext => hwide text after (htext.mono n.le_succ)
      have hnested : SettlesStatements (room + 1 ≤ n + 1) n (statement limit room) :=
        fun loops text htext => (ih n loops text htext).deeper Nat.succ_le_succ
      have htrim := h.trim (List.Subset.refl _)
      unfold statement
      dsimp only
      split
      · trivial
      · case _ inside htext =>
        rw [htext] at htrim
        rw [htext]
        apply (settles_enclosed htrim (List.Subset.refl _) (by decide)).bind
        intro parts hparts
        split
        · exact settles_block hnested loops hparts.1
        · exact settles_throw rfl
      · split
        · case _ hkeyword =>
          exact settles_conditional hinner hnested loops (fits_keyword htrim hkeyword)
        · case _ hkeyword =>
          exact settles_whileLoop hinner hnested loops (fits_keyword htrim hkeyword)
        · case _ hkeyword =>
          exact settles_forLoop hinner hnested loops (fits_keyword htrim hkeyword)
        · exact settles_breakLoop _ _
        · case _ hkeyword =>
          have hrest := (fits_keyword htrim hkeyword).of_subset innerPairs_subset
          exact (hwide _ _ hrest).bind fun _ _ => settles_return trivial
        · exact settles_throw rfl
        · exact hwide _ _ (htrim.of_subset innerPairs_subset)

/-- What is reported of a text without culprit is not its brackets, and it is not its nesting if
the limit is large enough. -/
theorem settles_rule (limit : Nat) {source : Text}
    (h : source.stripComments.Balanced bracketPairs) :
    Settles (limit ≤ source.stripComments.length + 1) (rule limit source) fun _ => True :=
  settles_block (settles_statement limit limit _) 0 ⟨h, Nat.lt_succ_self _⟩

theorem rule_of_culprit {source : Text} {bracket : Char} (limit : Nat)
    (h : source.stripComments.Culprit bracketPairs bracket) :
    rule limit source =
      .error (.syntactic ⟨.unbalanced, [[bracket], source.stripComments.trim]⟩) := by
  have hpieces := Division.statements.pieces_of_culprit (List.Subset.refl _) h
  rw [rule, block, hpieces]
  rfl

end Grammar

namespace Program

theorem parse_eq_error_iff {limit : Nat} {source : String} {fault : Fault} :
    Program.parse limit source = .error fault ↔
      Grammar.rule limit source.toList = .error fault := by
  rw [Program.parse_eq]
  cases Grammar.rule limit source.toList with
  | ok tree =>
    constructor
    · intro h
      cases h
    · intro h
      cases h
  | error other =>
    constructor
    · intro h
      cases h
      rfl
    · intro h
      cases h
      rfl

/-- A source is blamed for its brackets exactly if it is not balanced, and then for its culprit. -/
theorem parse_unbalanced_iff (limit : Nat) (source : String) :
    ((∃ fault, Program.parse limit source = .error fault ∧
        fault.report.message.template = .unbalanced) ↔
      ¬ Text.Balanced bracketPairs (Text.stripComments source.toList)) ∧
    ∀ fault, Program.parse limit source = .error fault →
      fault.report.message.template = .unbalanced →
      ∃ bracket, (∀ other, Text.Culprit bracketPairs (Text.stripComments source.toList) other ↔
          other = bracket) ∧
        fault.report.message.args = [[bracket], (Text.stripComments source.toList).trim] := by
  have hnot (fault : Fault) (h : Program.parse limit source = .error fault)
      (htemplate : fault.report.message.template = .unbalanced) :
      ¬ Text.Balanced bracketPairs (Text.stripComments source.toList) := by
    intro hbalanced
    have hsettles := Grammar.settles_rule limit hbalanced
    rw [parse_eq_error_iff.mp h] at hsettles
    exact hsettles.1 htemplate
  refine ⟨⟨fun ⟨fault, h, htemplate⟩ => hnot fault h htemplate, fun h => ?_⟩, ?_⟩
  · obtain ⟨bracket, hculprit⟩ := Text.exists_culprit (List.Subset.refl _) h
    exact ⟨_, parse_eq_error_iff.mpr (Grammar.rule_of_culprit limit hculprit), rfl⟩
  · intro fault h htemplate
    obtain ⟨bracket, hculprit⟩ := Text.exists_culprit (List.Subset.refl _) (hnot fault h htemplate)
    have hrule := parse_eq_error_iff.mpr (Grammar.rule_of_culprit limit hculprit)
    obtain rfl := Except.error.inj (h.symm.trans hrule)
    refine ⟨bracket, fun other => ⟨fun hother => ?_, fun heq => heq ▸ hculprit⟩, rfl⟩
    exact hother.unique hculprit (List.Subset.refl _)

/-- A closing bracket of the wrong kind is to blame, or else an opening one that is not closed. -/
theorem parse_unbalanced_bracket :
    (∃ fault, Program.parse 4 "a = (1 + 2]) // (" = .error fault ∧
      fault.report.message.args = [[']'], "a = (1 + 2])".toList]) ∧
    ∃ fault, Program.parse 4 "a = b + (c[1]" = .error fault ∧
      fault.report.message.args = [['('], "a = b + (c[1]".toList] := by
  constructor
  · obtain ⟨hiff, hargs⟩ := parse_unbalanced_iff 4 "a = (1 + 2]) // ("
    obtain ⟨fault, hfault, htemplate⟩ := hiff.mpr (by decide)
    obtain ⟨bracket, hculprit, hargs⟩ := hargs fault hfault htemplate
    obtain rfl := (hculprit ']').mp (by decide)
    exact ⟨fault, hfault, hargs⟩
  · obtain ⟨hiff, hargs⟩ := parse_unbalanced_iff 4 "a = b + (c[1]"
    obtain ⟨fault, hfault, htemplate⟩ := hiff.mpr (by decide)
    obtain ⟨bracket, hculprit, hargs⟩ := hargs fault hfault htemplate
    obtain rfl := (hculprit '(').mp (by decide)
    exact ⟨fault, hfault, hargs⟩

end Program
end RuleLang

import RuleLang.Proofs.Chains

/-!
Reading chains. Each operand of a chain is read as its tree, whatever comes after it, and each
connective as its operation, so the grammar is left with joining the trees of the operands. Every
sign and every pair of parentheses takes a level of the room that nesting has, and the text is
longer than they are many.
-/
namespace RuleLang

open Grammar

namespace Connective

variable (connective : Connective)

theorem exists_operator (rest : Text) : ∃ operator : Operator,
    Operator.atStart? (connective.spelling ++ ' ' :: rest) =
      some (operator, connective.spelling.length) ∧
    operator.binary? = some connective.op := by
  obtain ⟨spelling, op, rank, listed⟩ := connective
  simp only [connectives, List.mem_cons, Prod.mk.injEq, List.not_mem_nil, or_false] at listed
  rcases listed with h | h | h | h | h | h | h | h | h | h | h | h | h | h | h
  all_goals
    obtain ⟨rfl, rfl, rfl⟩ := h
    exact ⟨_, rfl, rfl⟩

theorem linkAt?_spelling (rest : Text) :
    linkAt? (connective.spelling ++ ' ' :: rest) =
      some (connective.op, connective.spelling.length) := by
  obtain ⟨operator, hstart, hbinary⟩ := connective.exists_operator rest
  simp only [linkAt?, hstart, Option.bind_some, hbinary, Option.map_some]

theorem head_spelling : ∀ c ∈ connective.spelling.head?, ¬ isBlankChar c ∧ c ∉ ['(', '[', '.'] := by
  have hheads : ∀ row ∈ connectives, ∀ c ∈ row.1.head?, ¬ isBlankChar c ∧ c ∉ ['(', '[', '.'] := by
    decide
  exact hheads _ connective.listed

theorem spelling_ne_nil : connective.spelling ≠ [] := by
  have hspellings : ∀ row ∈ connectives, row.1 ≠ [] := by decide
  exact hspellings _ connective.listed

theorem nested_spelling : connective.spelling.Nested false := by
  have hplain : ∀ row ∈ connectives, ∀ c ∈ row.1, Text.isPlain false c := by decide
  exact Text.nested_of_forall (hplain _ connective.listed)

/-- The sign for division begins no comment, for a space comes after it. -/
theorem isCode_spelling : (connective.spelling ++ [' ']).IsCode := by
  have hslash : ∀ row ∈ connectives,
      row.1 = ['/'] ∨ ∀ c ∈ row.1 ++ [' '], c ≠ '\n' ∧ c ≠ '/' := by decide
  rcases hslash _ connective.listed with hspelling | hplain
  · rw [show connective.spelling = ['/'] from hspelling]
    exact (Text.isCode_char (by decide) (by decide)).slash (by decide)
  · exact Text.isCode_of_forall hplain

theorem trimStart_spelling (rest : Text) :
    Text.trimStart (connective.spelling ++ ' ' :: rest) = connective.spelling ++ ' ' :: rest := by
  apply Text.trimStart_of_head
  intro c hc
  rw [List.head?_append_of_ne_nil _ connective.spelling_ne_nil] at hc
  exact (connective.head_spelling c hc).1

theorem closes (rest : Text) : Closes (' ' :: (connective.spelling ++ ' ' :: rest)) := by
  have htrim : Text.trimStart (' ' :: (connective.spelling ++ ' ' :: rest)) =
      connective.spelling ++ ' ' :: rest := connective.trimStart_spelling rest
  constructor
  · rintro _ ⟨⟩
    decide
  · rw [htrim]
    intro c hc
    rw [List.head?_append_of_ne_nil _ connective.spelling_ne_nil] at hc
    exact (connective.head_spelling c hc).2
  · rw [htrim]
    intro op n hstart
    obtain ⟨operator, hoperator, hbinary⟩ := connective.exists_operator rest
    rw [hoperator] at hstart
    obtain ⟨rfl, -⟩ := Prod.mk.inj (Option.some.inj hstart)
    constructor
    · rintro rfl
      cases hbinary
    · rintro rfl
      cases hbinary

end Connective

namespace Grammar

theorem IsPhrase.signed {text : Text} (h : IsPhrase text) (sign : Sign) :
    IsPhrase (sign.char :: ' ' :: text) where
  nested := .cons (by cases sign <;> decide) (.cons (by decide) h.nested)
  isCode := (Text.isCode_char (by cases sign <;> decide) (by cases sign <;> decide)).append
    ((Text.isCode_char (by decide) (by decide)).append h.isCode)
  nonempty := nofun
  head := by cases sign <;> rintro _ ⟨⟩ <;> decide
  last c hc := by
    rw [List.getLast?_cons_cons, List.getLast?_cons_of_ne_nil h.nonempty] at hc
    exact h.last c hc
  no_keyword := by cases sign <;> rfl

theorem IsPhrase.nested_inside {text : Text} (h : IsPhrase text) :
    Text.Nested true (' ' :: (text ++ [' '])) :=
  .cons (by decide) (h.nested.inside.append (.cons (by decide) .nil))

theorem IsPhrase.parens {text : Text} (h : IsPhrase text) :
    IsPhrase (Text.within '(' ')' (' ' :: (text ++ [' ']))) where
  nested := nested_parens h.nested_inside
  isCode := by
    have hspace : Text.IsCode [' '] := Text.isCode_char (by decide) (by decide)
    exact (hspace.append (h.isCode.append hspace)).within (by decide)
  nonempty := nofun
  head := by rintro _ ⟨⟩; decide
  last c hc := (isOperand_parens h.nested_inside).last_not_blank c hc
  no_keyword := rfl

theorem firstWord_append_space (front back : Text) :
    Text.firstWord (front ++ ' ' :: back) = front.firstWord := by
  induction front with
  | nil => rfl
  | cons c front ih =>
    unfold Text.firstWord at ih ⊢
    rw [List.cons_append, List.takeWhile_cons, List.takeWhile_cons, ih]

/-- Two sources with an operator between them. -/
theorem IsPhrase.joined {front middle back : Text} (hfront : IsPhrase front)
    (hnested : middle.Nested false) (hcode : (middle ++ [' ']).IsCode) (hback : IsPhrase back) :
    IsPhrase (front ++ ' ' :: (middle ++ ' ' :: back)) where
  nested := hfront.nested.append (.cons (by decide) (hnested.append (.cons (by decide) hback.nested)))
  isCode := by
    have hspace : Text.IsCode [' '] := Text.isCode_char (by decide) (by decide)
    have hall := hfront.isCode.append (hspace.append (hcode.append hback.isCode))
    simpa using hall
  nonempty := by simp
  head c hc := by
    rw [List.head?_append_of_ne_nil _ hfront.nonempty] at hc
    exact hfront.head c hc
  last c hc := by
    have hassoc : front ++ ' ' :: (middle ++ ' ' :: back) =
        (front ++ ' ' :: (middle ++ [' '])) ++ back := by simp
    rw [hassoc, List.getLast?_append_of_ne_nil _ hback.nonempty] at hc
    exact hback.last c hc
  no_keyword := by
    have hkeyword := hfront.no_keyword
    have htrim := hfront.trimStart_append []
    rw [List.append_nil] at htrim
    rw [Keyword.atStart?, Option.map_eq_none_iff, htrim] at hkeyword
    rw [Keyword.atStart?, Option.map_eq_none_iff, hfront.trimStart_append, firstWord_append_space,
      hkeyword]

end Grammar

mutual

theorem Operand.isPhrase : (operand : Operand) → IsPhrase operand.text
  | .literal _ isNumeral _ => isPhrase_numeral isNumeral
  | .name _ isIdentifier => isPhrase_name isIdentifier
  | .parens chain => chain.isPhrase.parens
  | .signed sign operand => operand.isPhrase.signed sign

theorem Chain.isPhrase : (chain : Chain) → IsPhrase chain.text
  | .last operand => operand.isPhrase
  | .cons operand connective chain =>
    operand.isPhrase.joined connective.nested_spelling connective.isCode_spelling chain.isPhrase

end

namespace Chain

def first : Chain → Operand
  | last operand => operand
  | cons operand _ _ => operand

/-- What comes after the first operand. -/
def rest : Chain → Text
  | last _ => []
  | cons _ connective chain => ' ' :: (connective.spelling ++ ' ' :: chain.text)

theorem text_eq (chain : Chain) : chain.text = chain.first.text ++ chain.rest := by
  cases chain <;> simp [text, first, rest]

/-- The links as the grammar reads them. -/
def links (chain : Chain) : List (BinaryOp × Tree) :=
  chain.parts.2.map fun link => (link.1.op, link.2)

theorem join_links (chain : Chain) : join chain.parts.1 chain.links = chain.tree :=
  join_eq_splitTree _ _

theorem length_links_le : (chain : Chain) → chain.links.length ≤ chain.rest.length
  | last _ => Nat.le_refl 0
  | cons _ connective chain => by
    have ih := length_links_le chain
    have htext := congrArg List.length chain.text_eq
    simp only [links, parts, rest, List.map_cons, List.length_cons, List.length_append,
      List.length_map] at ih htext ⊢
    omega

theorem closes_rest (chain : Chain) {blanks : Text} (h : blanks.isBlank) :
    Closes (chain.rest ++ blanks) := by
  cases chain with
  | last => exact closes_blank h
  | cons operand connective chain =>
    simpa [rest] using connective.closes (chain.text ++ blanks)

theorem closes_rest_nil (chain : Chain) : Closes chain.rest := by
  have hcloses : Closes (chain.rest ++ []) := chain.closes_rest rfl
  rwa [List.append_nil] at hcloses

end Chain

namespace Grammar

/-- The reader of the operands of an expression. -/
def operands (limit room : Nat) (source : Text) : Text → Read :=
  operand (expression limit room) (prefixed limit room source) source

/-- The operand is read wherever there is room for it. -/
def ReadsOperand (o : Operand) : Prop :=
  ∀ limit room source rest, o.text.length ≤ room → Closes rest →
    operands limit room source (o.text ++ rest) = .ok (o.tree, rest.trimStart)

/-- The first operand of a chain is read, and the rest of it then gives its links. -/
structure ReadsChain (c : Chain) : Prop where
  first : ∀ limit room source rest, c.text.length ≤ room → Closes rest →
    operands limit room source (c.first.text ++ rest) = .ok (c.parts.1, rest.trimStart)
  links : ∀ limit room source bound start first read blanks, c.text.length ≤ room →
    blanks.isBlank → c.links.length ≤ bound →
    links (operands limit room source) bound start first read
        (Text.trimStart (c.rest ++ blanks)) =
      .ok (join first (read.reverse ++ c.links), [])

theorem operands_name {x : String} (hx : IsIdentifier x) (limit room : Nat) (source : Text)
    {rest : Text} (hrest : Closes rest) :
    operands limit room source (x.toList ++ rest) = .ok (.name x, rest.trimStart) := by
  have hoperand : operands limit room source (x.toList ++ rest) =
      (·, rest.trimStart) <$> .ok (.name x) :=
    operand_closes hx.isOperand (atom_name_closes hx hrest) rest.trimStart_trimStart hrest
  exact hoperand

theorem readsOperand_literal (digits : Text) (isNumeral : IsNumeral digits)
    (small : Text.natValue digits ≤ 2147483647) :
    ReadsOperand (.literal digits isNumeral small) := by
  intro limit room source rest _ hrest
  have hoperand : operands limit room source (digits ++ rest) =
      (·, rest.trimStart) <$> Tree.number <$> literal digits := operand_numeral isNumeral hrest
  rw [literal_eq_ok small] at hoperand
  exact hoperand

theorem readsOperand_name (x : String) (isIdentifier : IsIdentifier x) :
    ReadsOperand (.name x isIdentifier) :=
  fun limit room source _ _ hrest => operands_name isIdentifier limit room source hrest

/-- A chain is all of an expression, blanks aside. -/
theorem ReadsChain.expression_eq {c : Chain} (h : ReadsChain c) {limit room : Nat}
    (hroom : c.text.length ≤ room) {text blanks : Text} (htext : text.trimStart = c.text ++ blanks)
    (hblanks : blanks.isBlank) (after : Text) :
    expression limit (room + 1) text after = .ok c.tree := by
  have hblank : ¬ text.isBlank := by
    intro hblank
    have hnil := Text.trimStart_of_isBlank hblank
    rw [htext, List.append_eq_nil_iff] at hnil
    exact c.isPhrase.nonempty hnil.1
  have hbound : c.links.length ≤ (c.text ++ blanks).length := by
    have hlinks := c.length_links_le
    rw [c.text_eq, List.length_append, List.length_append]
    omega
  have hfirst := h.first limit room text (c.rest ++ blanks) hroom (c.closes_rest hblanks)
  have hlinks := h.links limit room text _ (c.text ++ blanks) c.parts.1 [] blanks hroom hblanks hbound
  have hchain : chain (operands limit room text) text = .ok (c.tree, []) := by
    rw [← List.append_assoc, ← c.text_eq] at hfirst
    rw [chain, htext]
    dsimp only
    rw [hfirst, ok_bind, hlinks, List.reverse_nil, List.nil_append, c.join_links]
  exact expression_of_chain hblank hchain after

theorem trimStart_space (text : Text) : Text.trimStart (' ' :: text) = text.trimStart := rfl

theorem readsOperand_parens {c : Chain} (h : ReadsChain c) : ReadsOperand (.parens c) := by
  intro limit room source rest hlength hrest
  simp only [Operand.text, Text.within, List.length_cons, List.length_append] at hlength
  obtain ⟨below, rfl⟩ : ∃ below, room = below + 1 := ⟨room - 1, by omega⟩
  have hphrase := c.isPhrase
  have hspaces : Text.trimStart (' ' :: (c.text ++ [' '])) = c.text ++ [' '] :=
    (trimStart_space _).trans (hphrase.trimStart_append [' '])
  have hinner : expression limit (below + 1) (' ' :: (c.text ++ [' '])) ['('] = .ok c.tree :=
    h.expression_eq (by omega) hspaces rfl ['(']
  have hoperand : operands limit (below + 1) source
      (Text.within '(' ')' (' ' :: (c.text ++ [' '])) ++ rest) =
      (·, rest.trimStart) <$> .ok c.tree :=
    operand_closes (isOperand_parens hphrase.nested_inside)
      (atom_parens hphrase.nested_inside hinner rest) rfl hrest
  exact hoperand

/-- No literal of a chain has the digits of the least number. -/
theorem afterLeast?_operand (o : Operand) {rest : Text} (hrest : ∀ c ∈ rest.head?, ¬ inWord c) :
    afterLeast? (o.text ++ rest) = none := by
  cases o with
  | literal digits isNumeral small =>
    rw [Operand.text, afterLeast?_numeral isNumeral hrest, if_neg]
    rintro rfl
    rw [natValue_leastDigits] at small
    exact absurd small (by decide)
  | name x isIdentifier =>
    have hfirst : ∀ c ∈ x.toList.head?, ¬ c.isDigit := isIdentifier.no_number
    rw [Operand.text, afterLeast?, isIdentifier.isOperand.trimStart_append,
      Text.firstWord_append isIdentifier.inWord hrest, if_neg]
    intro hleast
    rw [hleast] at hfirst
    exact absurd (hfirst '2' rfl) (by decide)
  | parens chain => exact if_neg (List.cons_ne_nil _ _).symm
  | signed sign operand => cases sign <;> exact if_neg (List.cons_ne_nil _ _).symm

theorem readsOperand_signed {o : Operand} (h : ReadsOperand o) (sign : Sign) :
    ReadsOperand (.signed sign o) := by
  intro limit room source rest hlength hrest
  simp only [Operand.text, List.length_cons] at hlength
  obtain ⟨below, rfl⟩ : ∃ below, room = below + 1 := ⟨room - 1, by omega⟩
  have hspace : Text.trimStart (' ' :: (o.text ++ rest)) = o.text ++ rest :=
    (trimStart_space _).trans (o.isPhrase.trimStart_append rest)
  have hbelow : prefixed limit (below + 1) source (' ' :: (o.text ++ rest)) =
      .ok (o.tree, rest.trimStart) := by
    rw [prefixed, ← operand_trimStart, hspace]
    exact h limit below source rest (by omega) hrest
  have hleast : afterLeast? (' ' :: (o.text ++ rest)) = none := afterLeast?_operand o hrest.word
  cases sign with
  | minus =>
    have hminus : Operator.atStart? ('-' :: ' ' :: (o.text ++ rest)) = some (.minus, 1) := rfl
    change operand _ _ source ('-' :: ' ' :: (o.text ++ rest)) = _
    rw [operand_minus hminus hleast, hbelow]
    rfl
  | bang =>
    have hbang : Operator.atStart? ('!' :: ' ' :: (o.text ++ rest)) = some (.bang, 1) := rfl
    change operand _ _ source ('!' :: ' ' :: (o.text ++ rest)) = _
    rw [operand_bang hbang, hbelow]
    rfl

theorem readsChain_last {o : Operand} (h : ReadsOperand o) : ReadsChain (.last o) where
  first := h
  links limit room source bound start first read blanks _ hblanks _ := by
    have hlinks : (Chain.last o).links = [] := rfl
    rw [Chain.rest, List.nil_append, Text.trimStart_of_isBlank hblanks, links_end (.inr rfl),
      hlinks, List.append_nil]
    rfl

theorem readsChain_cons {o : Operand} (ho : ReadsOperand o) (connective : Connective) {c : Chain}
    (h : ReadsChain c) : ReadsChain (.cons o connective c) where
  first limit room source rest hlength hrest := by
    have htext := hlength
    simp only [Chain.text, List.length_append] at htext
    exact ho limit room source rest (by omega) hrest
  links limit room source bound start first read blanks hlength hblanks hbound := by
    have htext := hlength
    simp only [Chain.text, List.length_append, List.length_cons] at htext
    have hlinks : (Chain.cons o connective c).links = (connective.op, c.parts.1) :: c.links := rfl
    rw [hlinks, List.length_cons] at hbound
    obtain ⟨bound, rfl⟩ : ∃ left, bound = left + 1 := ⟨bound - 1, by omega⟩
    have hrest : Text.trimStart ((Chain.cons o connective c).rest ++ blanks) =
        connective.spelling ++ ' ' :: (c.text ++ blanks) := by
      rw [Chain.rest, List.cons_append, List.append_assoc, List.cons_append, trimStart_space,
        connective.trimStart_spelling]
    have htrim := connective.trimStart_spelling (c.text ++ blanks)
    have hlink := connective.linkAt?_spelling (c.text ++ blanks)
    rw [← htrim] at hlink
    have hnext : operands limit room source (' ' :: (c.text ++ blanks)) =
        .ok (c.parts.1, Text.trimStart (c.rest ++ blanks)) := by
      rw [operands, ← operand_trimStart, trimStart_space, c.isPhrase.trimStart_append, c.text_eq,
        List.append_assoc]
      exact h.first limit room source _ (by omega) (c.closes_rest hblanks)
    rw [hrest, links_operator connective.op_ne_assign hlink, htrim, List.drop_left, hnext, ok_bind]
    dsimp only
    rw [h.links limit room source bound start first _ blanks (by omega) hblanks (by omega), hlinks,
      List.reverse_cons, List.append_assoc, List.singleton_append]

mutual

theorem readsOperand : (o : Operand) → ReadsOperand o
  | .literal digits isNumeral small => readsOperand_literal digits isNumeral small
  | .name x isIdentifier => readsOperand_name x isIdentifier
  | .parens chain => readsOperand_parens (readsChain chain)
  | .signed sign operand => readsOperand_signed (readsOperand operand) sign

theorem readsChain : (c : Chain) → ReadsChain c
  | .last operand => readsChain_last (readsOperand operand)
  | .cons operand connective chain =>
    readsChain_cons (readsOperand operand) connective (readsChain chain)

end

theorem expression_chain (c : Chain) {limit room : Nat} (hroom : c.text.length ≤ room)
    (after : Text) : expression limit (room + 1) c.text after = .ok c.tree := by
  have hends := c.isPhrase.trimStart_append []
  exact (readsChain c).expression_eq hroom (by rwa [List.append_nil] at hends ⊢) rfl after

theorem isPhrase_assign_chain {x : String} (hx : IsIdentifier x) (c : Chain) :
    IsPhrase (x.toList ++ ' ' :: '=' :: ' ' :: c.text) := by
  have hnested : Text.Nested false ['='] := Text.nested_of_forall (by decide)
  have hcode : Text.IsCode (['='] ++ [' ']) := Text.isCode_of_forall (by decide)
  exact (isPhrase_name hx).joined hnested hcode c.isPhrase

theorem closes_assign (text : Text) : Closes (' ' :: '=' :: ' ' :: text) := by
  refine ⟨?_, ?_, ?_⟩
  · rintro _ ⟨⟩
    decide
  · rintro _ ⟨⟩
    decide
  · rintro op n ⟨⟩
    decide

/-- After an assignment the chain on its right is read like one that stands alone. -/
theorem links_assign_chain (x : String) (c : Chain) {limit room bound : Nat}
    (hroom : c.text.length ≤ room) (hbound : c.links.length ≤ bound) (source start : Text) :
    links (operands limit room source) (bound + 1) start (.name x) [] ('=' :: ' ' :: c.text) =
      .ok (.binary .assign (.name x) c.tree, []) := by
  have hassign : linkAt? (Text.trimStart ('=' :: ' ' :: c.text)) = some (.assign, 1) := rfl
  have hjoin : join (.name x) [].reverse = .name x := rfl
  have hlvalue : (Tree.name x).isLvalue = true := rfl
  have hvalue : Text.trimStart ((Text.trimStart ('=' :: ' ' :: c.text)).drop 1) = c.text :=
    (trimStart_space _).trans (by simpa using c.isPhrase.trimStart_append [])
  have hfirst := (readsChain c).first limit room source c.rest hroom c.closes_rest_nil
  have hlinks := (readsChain c).links limit room source bound c.text c.parts.1 [] [] hroom rfl hbound
  rw [← c.text_eq] at hfirst
  rw [List.append_nil] at hlinks
  rw [links_assign hassign, hjoin, if_pos hlvalue, hvalue, hfirst, ok_bind]
  dsimp only
  rw [hlinks, ok_bind, List.reverse_nil, List.nil_append, c.join_links]
  rfl

theorem expression_assign_chain {x : String} (hx : IsIdentifier x) (c : Chain) {limit room : Nat}
    (hroom : c.text.length ≤ room) (after : Text) :
    expression limit (room + 1) (x.toList ++ ' ' :: '=' :: ' ' :: c.text) after =
      .ok (.binary .assign (.name x) c.tree) := by
  have hphrase := isPhrase_assign_chain hx c
  obtain ⟨bound, hlength, hbound⟩ : ∃ bound, (x.toList ++ ' ' :: '=' :: ' ' :: c.text).length =
      bound + 1 ∧ c.links.length ≤ bound := by
    have hlinks := c.length_links_le
    have htext := congrArg List.length c.text_eq
    refine ⟨x.toList.length + c.text.length + 2, ?_, ?_⟩
    · simp only [List.length_append, List.length_cons]
      omega
    · rw [List.length_append] at htext
      omega
  have htrim : Text.trimStart (x.toList ++ ' ' :: '=' :: ' ' :: c.text) =
      x.toList ++ ' ' :: '=' :: ' ' :: c.text := by simpa using hphrase.trimStart_append []
  apply expression_of_chain hphrase.not_isBlank
  rw [chain, htrim]
  dsimp only
  rw [← operands, operands_name hx limit room _ (closes_assign c.text), hlength, ok_bind]
  exact links_assign_chain x c hroom hbound _ _

end Grammar

/-- A chain is read as the tree that splitting gives it, alone and as the value of an
assignment. -/
theorem Program.parse_chain {limit : Nat} (chain : Chain)
    (hlimit : Text.byteSize chain.text + 2 ≤ limit) :
    (∃ program, Program.parse limit (.ofList chain.text) = .ok program ∧
      program.tree = .block [chain.tree]) ∧
    ∀ x, IsIdentifier x →
      ∃ program, Program.parse limit (x ++ " = " ++ .ofList chain.text) = .ok program ∧
        program.tree = .block [.binary .assign (.name x) chain.tree] := by
  obtain ⟨room, rfl⟩ := Nat.exists_eq_add_of_le' (Nat.le_of_add_left_le hlimit)
  have hroom : chain.text.length ≤ room := by
    have hlength := Text.length_le_byteSize chain.text
    omega
  constructor
  · refine ⟨ofTree (.block [chain.tree]), ?_, tree_ofTree _⟩
    rw [parse_eq, String.toList_ofList, chain.isPhrase.rule_eq, expression_chain chain hroom]
    rfl
  · intro x hx
    have htext : (x ++ " = " ++ String.ofList chain.text).toList =
        x.toList ++ ' ' :: '=' :: ' ' :: chain.text := by
      simp
    refine ⟨ofTree (.block [.binary .assign (.name x) chain.tree]), ?_, tree_ofTree _⟩
    rw [parse_eq, htext, (isPhrase_assign_chain hx chain).rule_eq,
      expression_assign_chain hx chain hroom]
    rfl

/-- The chain `a + 2 * - b - ( c and d )`. -/
def mixedChain : Chain :=
  .cons (.name "a" ⟨by decide, by decide, by decide, by decide⟩) ⟨['+'], .add, 2, by decide⟩
    (.cons (.literal ['2'] ⟨by decide, by decide⟩ (by decide)) ⟨['*'], .multiply, 3, by decide⟩
      (.cons (.signed .minus (.name "b" ⟨by decide, by decide, by decide, by decide⟩))
        ⟨['-'], .subtract, 2, by decide⟩
        (.last (.parens
          (.cons (.name "c" ⟨by decide, by decide, by decide, by decide⟩)
            ⟨['a', 'n', 'd'], .and, 0, by decide⟩
            (.last (.name "d" ⟨by decide, by decide, by decide, by decide⟩)))))))

/-- Operators of one rank join from the left, and a sign joins before them all. -/
theorem Program.parse_mixedChain :
    ∃ program, Program.parse 27 "x = a + 2 * - b - ( c and d )" = .ok program ∧
      program.tree = .block [.binary .assign (.name "x")
        (.binary .subtract
          (.binary .add (.name "a") (.binary .multiply (.number 2) (.unary .negate (.name "b"))))
          (.binary .and (.name "c") (.name "d")))] := by
  have hx : IsIdentifier "x" := ⟨by decide, by decide, by decide, by decide⟩
  have hsize : Text.byteSize mixedChain.text + 2 ≤ 27 := by decide
  have hsource : "x" ++ " = " ++ String.ofList mixedChain.text = "x = a + 2 * - b - ( c and d )" := by
    decide
  obtain ⟨program, hparse, htree⟩ := (parse_chain mixedChain hsize).2 "x" hx
  rw [hsource] at hparse
  refine ⟨program, hparse, htree.trans ?_⟩
  simp only [mixedChain, Chain.tree, Chain.parts, Operand.tree, ← join_eq_splitTree]
  rfl

end RuleLang

import RuleLang.Proofs.Nesting
import RuleLang.Proofs.WellFormed

/-!
The spelling of trees in the language itself. Every operation stands in parentheses, except for
calls of `max` and `min` and of methods; a branch or a loop body stands in braces only if it is a
block. Statements are divided by semicolons, and so is an `else` from what comes before it.

Read from the left, an `else` goes to the innermost `if` that has none yet. A tree whose spelling
is to be read back must therefore not let a branch before an `else` end with such an `if`.
-/
namespace RuleLang

/-- The literal of a number. The least one is written with its sign. -/
def spellNumber (n : Int32) : Text :=
  if n = Int32.minValue then Text.within '(' ')' "-2147483648".toList else Text.ofInt n.toInt

def UnaryOp.spell (op : UnaryOp) (operand : Text) : Text :=
  match op with
  | negate => Text.within '(' ')' ('-' :: operand)
  | not => Text.within '(' ')' ('!' :: operand)
  | preIncrement => Text.within '(' ')' ('+' :: '+' :: operand)
  | preDecrement => Text.within '(' ')' ('-' :: '-' :: operand)
  | postIncrement => Text.within '(' ')' (operand ++ ['+', '+'])
  | postDecrement => Text.within '(' ')' (operand ++ ['-', '-'])
  | size | rowSize => operand ++ ".size()".toList
  | sort => operand ++ ".sort()".toList
  | returning => "return ".toList ++ operand

def BinaryOp.spell (op : BinaryOp) (left right : Text) : Text :=
  match op with
  | max | min => op.symbol ++ Text.within '(' ')' (left ++ ',' :: right)
  | _ => Text.within '(' ')' (left ++ (op.symbol ++ right))

namespace Tree

mutual

def spell : Tree → Text
  | empty => []
  | number n => spellNumber n
  | name x => x.toList
  | element x index => x.toList ++ Text.within '[' ']' index.spell
  | cell x row column =>
    x.toList ++ (Text.within '[' ']' row.spell ++ Text.within '[' ']' column.spell)
  | unary op operand => op.spell operand.spell
  | binary op left right => op.spell left.spell right.spell
  | ifThen condition yes => "if".toList ++ (Text.within '(' ')' condition.spell ++ yes.spell)
  | ifElse condition yes no =>
    "if".toList ++ (Text.within '(' ')' condition.spell ++
      (yes.spell ++ ';' :: ("else ".toList ++ no.spell)))
  | whileLoop condition body =>
    "while".toList ++ (Text.within '(' ')' condition.spell ++ body.spell)
  | forLoop start condition update body =>
    "for".toList ++
      (Text.within '(' ')' (start.spell ++ ';' :: (condition.spell ++ ';' :: update.spell)) ++
        body.spell)
  | block statements => Text.within '{' '}' (spellAll statements)
  | breakLoop => "break".toList

def spellAll : List Tree → Text
  | [] => []
  | [tree] => tree.spell
  | tree :: trees => tree.spell ++ ';' :: spellAll trees

end

mutual

/-- Whether every `else` belongs to the innermost `if` before it that has none. -/
def settled : Tree → Bool
  | ifThen _ yes => yes.settled
  | ifElse _ yes no => yes.settled && yes.openIf?.isNone && no.settled
  | whileLoop _ body | forLoop _ _ _ body => body.settled
  | block statements => settledAll statements
  | _ => true

def settledAll : List Tree → Bool
  | [] => true
  | tree :: trees => tree.settled && settledAll trees

end

theorem settledAll_iff {trees : List Tree} : settledAll trees ↔ ∀ s ∈ trees, s.settled := by
  induction trees with
  | nil => simp [settledAll]
  | cons tree trees ih => simp [settledAll, ih]

end Tree

theorem not_blank_of_inWord {c : Char} (hc : inWord c) : ¬ isBlankChar c := by
  have hrange : 48 ≤ c.toNat ∧ c.toNat ≤ 122 := by
    simp only [inWord, Char.isAlphanum, Char.isAlpha, Char.isUpper, Char.isLower, Char.isDigit,
      Bool.or_eq_true, Bool.and_eq_true, decide_eq_true_eq, beq_iff_eq] at hc
    rcases hc with ((⟨h, h'⟩ | ⟨h, h'⟩) | ⟨h, h'⟩) | rfl
    · exact ⟨Nat.le_trans (by decide) h, Nat.le_trans h' (by decide)⟩
    · exact ⟨Nat.le_trans (by decide) h, Nat.le_trans h' (by decide)⟩
    · exact ⟨Nat.le_trans (by decide) h, Nat.le_trans h' (by decide)⟩
    · decide
  simp [isBlankChar, Text.blankRanges]
  omega

theorem isPlain_of_inWord {inside : Bool} {c : Char} (hc : inWord c) : Text.isPlain inside c := by
  have hspecial : ∀ special ∈ ['(', ')', '[', ']', '{', '}', ';', ','], ¬ inWord special := by
    decide
  have hne : c ∉ ['(', ')', '[', ']', '{', '}', ';', ','] := fun hmem => hspecial c hmem hc
  simp only [List.mem_cons, List.not_mem_nil, not_or] at hne
  simp [Text.isPlain, Text.brackets, hne]

theorem nested_of_inWord {word : Text} (h : ∀ c ∈ word, inWord c) : word.Nested false :=
  Text.nested_of_forall fun c hc => isPlain_of_inWord (h c hc)

theorem nested_parens {text : Text} {inside : Bool} (h : text.Nested true) :
    Text.Nested inside (Text.within '(' ')' text) := .within (by decide) nofun h

theorem nested_index {text : Text} {inside : Bool} (h : text.Nested true) :
    Text.Nested inside (Text.within '[' ']' text) := .within (by decide) nofun h

/-- What an operand looks like from outside. -/
structure IsOperand (text : Text) : Prop where
  nested : text.Nested false
  nonempty : text ≠ []
  head : ∀ c ∈ text.head?, inWord c ∨ c = '('
  last : ∀ c ∈ text.getLast?, inWord c ∨ c = ')' ∨ c = ']'

theorem IsOperand.head_not_blank {text : Text} (h : IsOperand text) :
    ∀ c ∈ text.head?, ¬ isBlankChar c := by
  intro c hc
  rcases h.head c hc with hc | rfl
  · exact not_blank_of_inWord hc
  · decide

theorem IsOperand.last_not_blank {text : Text} (h : IsOperand text) :
    ∀ c ∈ text.getLast?, ¬ isBlankChar c := by
  intro c hc
  rcases h.last c hc with hc | rfl | rfl
  · exact not_blank_of_inWord hc
  all_goals decide

theorem isOperand_word {word : Text} (hword : ∀ c ∈ word, inWord c) (hne : word ≠ []) :
    IsOperand word where
  nested := nested_of_inWord hword
  nonempty := hne
  head c hc := .inl (hword c (List.mem_of_mem_head? hc))
  last c hc := .inl (hword c (List.mem_of_getLast? hc))

theorem isOperand_parens {text : Text} (h : text.Nested true) :
    IsOperand (Text.within '(' ')' text) where
  nested := nested_parens h
  nonempty := nofun
  head c hc := by
    cases hc
    exact .inr rfl
  last c hc := by
    rw [Text.within, ← List.cons_append, List.getLast?_concat] at hc
    cases hc
    exact .inr (.inl rfl)

/-- An operand can be continued by brackets with their inside, after other characters or not. -/
theorem IsOperand.append {front back : Text} (h : IsOperand front) (hnested : back.Nested false)
    (hlast : ∀ c ∈ back.getLast?, c = ')' ∨ c = ']') : IsOperand (front ++ back) where
  nested := h.nested.append hnested
  nonempty := by simp [h.nonempty]
  head c hc := by
    rw [List.head?_append_of_ne_nil _ h.nonempty] at hc
    exact h.head c hc
  last c hc := by
    rw [List.getLast?_append] at hc
    cases hback : back.getLast? with
    | none =>
      rw [hback] at hc
      exact h.last c hc
    | some last =>
      rw [hback] at hc
      exact .inr (hlast c (hback.trans hc))

theorem inWord_ofNat (n : Nat) : ∀ c ∈ Text.ofNat n, inWord c := by
  intro c hc
  have hdigit := Nat.isDigit_of_mem_toDigits (by decide) (by decide) hc
  simp [inWord, Char.isAlphanum, hdigit]

theorem spellNumber_of_nonneg {n : Int32} (hn : 0 ≤ n) :
    spellNumber n = Text.ofNat n.toInt.toNat := by
  have hne : n ≠ Int32.minValue := by
    rintro rfl
    exact absurd hn (by decide)
  have hint : 0 ≤ n.toInt := by simpa using Int32.le_iff_toInt_le.mp hn
  rw [spellNumber, if_neg hne]
  obtain ⟨k, hk⟩ := Int.eq_ofNat_of_zero_le hint
  rw [hk]
  rfl

theorem isOperand_spellNumber {n : Int32} (hn : IsLiteral n) : IsOperand (spellNumber n) := by
  rcases hn with hn | rfl
  · rw [spellNumber_of_nonneg hn]
    exact isOperand_word (inWord_ofNat _) Nat.toDigits_ne_nil
  · exact isOperand_parens (Text.nested_of_forall (by decide))

theorem IsIdentifier.isOperand {x : String} (hx : IsIdentifier x) : IsOperand x.toList :=
  isOperand_word hx.inWord hx.nonempty

theorem IsOperand.call {operand method : Text} (h : IsOperand operand)
    (hmethod : ∀ c ∈ method, Text.isPlain false c) :
    IsOperand (operand ++ (method ++ Text.within '(' ')' [])) := by
  apply h.append ((Text.nested_of_forall hmethod).append (nested_parens .nil))
  intro c hc
  rw [Text.within, List.nil_append, List.getLast?_append] at hc
  cases hc
  exact .inl rfl

theorem UnaryOp.isOperand_spell {op : UnaryOp} (hop : op ≠ .returning) {operand : Text}
    (h : IsOperand operand) : IsOperand (op.spell operand) := by
  have hplus : Text.Nested true ['+', '+'] := Text.nested_of_forall (by decide)
  have hminus : Text.Nested true ['-', '-'] := Text.nested_of_forall (by decide)
  cases op with
  | negate | not => exact isOperand_parens (.cons (by decide) h.nested.inside)
  | preIncrement => exact isOperand_parens (hplus.append h.nested.inside)
  | preDecrement => exact isOperand_parens (hminus.append h.nested.inside)
  | postIncrement => exact isOperand_parens (h.nested.inside.append hplus)
  | postDecrement => exact isOperand_parens (h.nested.inside.append hminus)
  | size | rowSize => exact h.call (by decide : ∀ c ∈ ".size".toList, Text.isPlain false c)
  | sort => exact h.call (by decide : ∀ c ∈ ".sort".toList, Text.isPlain false c)
  | returning => contradiction

theorem BinaryOp.nested_symbol (op : BinaryOp) {inside : Bool} : op.symbol.Nested inside := by
  refine Text.nested_of_forall ?_
  cases op <;> cases inside <;> decide

theorem BinaryOp.isOperand_spell (op : BinaryOp) {left right : Text} (hl : IsOperand left)
    (hr : IsOperand right) : IsOperand (op.spell left right) := by
  have harguments : Text.Nested true (left ++ ',' :: right) :=
    hl.nested.inside.append (.cons (by decide) hr.nested.inside)
  have hcall (word : Text) (hword : ∀ c ∈ word, RuleLang.inWord c) (hne : word ≠ []) :
      IsOperand (word ++ Text.within '(' ')' (left ++ ',' :: right)) := by
    apply (isOperand_word hword hne).append (nested_parens harguments)
    intro c hc
    rw [Text.within, ← List.cons_append, List.getLast?_concat] at hc
    cases hc
    exact .inl rfl
  cases op with
  | max | min => exact hcall _ (by decide) (List.cons_ne_nil _ _)
  | _ =>
    exact isOperand_parens (hl.nested.inside.append ((nested_symbol _).append hr.nested.inside))

theorem Tree.IsExpression.isOperand {tree : Tree} (h : tree.IsExpression) :
    IsOperand tree.spell := by
  have hindex (text : Text) : ∀ c ∈ (Text.within '[' ']' text).getLast?, c = ')' ∨ c = ']' := by
    intro c hc
    rw [Text.within, ← List.cons_append, List.getLast?_concat] at hc
    cases hc
    exact .inr rfl
  induction h with
  | number hn => exact isOperand_spellNumber hn
  | name hx => exact hx.isOperand
  | element hx hi ih => exact hx.isOperand.append (nested_index ih.nested.inside) (hindex _)
  | @cell x row column hx hrow hcolumn ihr ihc =>
    have hrow := hx.isOperand.append (nested_index ihr.nested.inside) (hindex _)
    have hboth := hrow.append (nested_index ihc.nested.inside) (hindex _)
    rwa [List.append_assoc] at hboth
  | negate h ih | not h ih => exact UnaryOp.isOperand_spell (by decide) ih
  | step hop htarget h ih =>
    refine UnaryOp.isOperand_spell ?_ ih
    rcases hop with rfl | rfl | rfl | rfl <;> decide
  | size hx | sort hx => exact UnaryOp.isOperand_spell (by decide) hx.isOperand
  | rowSize hx hi ih =>
    exact UnaryOp.isOperand_spell (by decide)
      (hx.isOperand.append (nested_index ih.nested.inside) (hindex _))
  | binary hop hl hr ihl ihr => exact BinaryOp.isOperand_spell _ ihl ihr
  | assign htarget ht hv iht ihv => exact BinaryOp.isOperand_spell _ iht ihv

end RuleLang

import RuleLang.Proofs.Phrases

/-!
What a literal means, with a minus sign before it or not. Its digits are read as a number, and
how many zeros come first does not matter to the number. The least number is the exception: it
has no literal without its sign, and behind a sign it is recognised by its digits, so it may not
begin with a zero.
-/
namespace RuleLang

/-- Decimal digits, at least one. -/
structure IsNumeral (digits : Text) : Prop where
  nonempty : digits ≠ []
  isDigit : ∀ c ∈ digits, c.isDigit

/-- The number that digits without a sign stand for. -/
def literal (digits : Text) : Except Fault Int32 :=
  if Text.natValue digits ≤ Word.maxNumber then .ok (Int32.ofNat (Text.natValue digits))
  else .error (.syntactic ⟨.badNumber, [digits]⟩)

def leastDigits : Text := "2147483648".toList

/-- The tree of digits with a minus sign before them. -/
def negated (digits : Text) : Except Fault Tree :=
  if digits = leastDigits then .ok (.number Int32.minValue)
  else (fun n => .unary .negate (.number n)) <$> literal digits

theorem literal_eq_ok {digits : Text} (h : Text.natValue digits ≤ 2147483647) :
    literal digits = .ok (Int32.ofNat (Text.natValue digits)) := by
  rw [literal, Word.maxNumber, if_pos h]

theorem literal_eq_error {digits : Text} (h : ¬ Text.natValue digits ≤ 2147483647) :
    literal digits = .error (.syntactic ⟨.badNumber, [digits]⟩) := by
  rw [literal, Word.maxNumber, if_neg h]

theorem toInt_ofNat_of_le {n : Nat} (h : n ≤ 2147483647) : (Int32.ofNat n).toInt = n :=
  Int32.toInt_ofNat_of_lt (by omega)

theorem toInt_neg_ofNat_of_le {n : Nat} (h : n ≤ 2147483647) : (-Int32.ofNat n).toInt = -n := by
  rw [Int32.toInt_neg, toInt_ofNat_of_le h]
  exact Int.bmod_eq_of_le (by omega) (by omega)

theorem natValue_leastDigits : Text.natValue leastDigits = 2147483648 := by
  change Text.natValue "2147483648".toList = 2147483648
  simp [Text.natValue, Nat.ofDigitChars_cons]

namespace IsNumeral

variable {digits : Text} (h : IsNumeral digits)

include h

theorem inWord : ∀ c ∈ digits, inWord c := by
  intro c hc
  simp [RuleLang.inWord, Char.isAlphanum, h.isDigit c hc]

theorem isOperand : IsOperand digits := isOperand_word h.inWord h.nonempty

theorem no_keyword : Keyword.ofWord? digits = none := by
  have hletter (keyword : Keyword) : ∃ c ∈ keyword.spelling, ¬ c.isDigit := by
    cases keyword <;> exact ⟨_, List.mem_cons_self, by decide⟩
  rw [Keyword.ofWord?, List.find?_eq_none]
  intro keyword _ heq
  obtain ⟨c, hc, hdigit⟩ := hletter keyword
  rw [eq_of_beq heq] at hc
  exact hdigit (h.isDigit c hc)

theorem ofLetters? :
    Word.ofLetters? digits = (fun n => some (.number n)) <$> literal digits := by
  cases digits with
  | nil => exact absurd rfl h.nonempty
  | cons c letters =>
    obtain ⟨hc, hletters⟩ := List.forall_mem_cons.mp h.isDigit
    have hall : letters.all Char.isDigit := List.all_eq_true.mpr hletters
    by_cases hvalue : Text.natValue (c :: letters) ≤ Word.maxNumber
    · simp [Word.ofLetters?, literal, hc, hall, hvalue]
    · simp [Word.ofLetters?, literal, hc, hvalue]

theorem atStart? {rest : Text} (hrest : ∀ c ∈ rest.head?, ¬ RuleLang.inWord c) :
    Word.atStart? (digits ++ rest) = (fun n => some (.number n)) <$> literal digits := by
  rw [Word.atStart?, Text.firstWord_append h.inWord hrest, h.ofLetters?]

end IsNumeral

namespace Grammar

variable {inner : Inner} {below : Text → Read} {digits source text rest : Text}

theorem atom_of_bad_word {c : Char} {fault : Fault} (hc : inWord c)
    (h : Word.atStart? (c :: text) = .error fault) :
    atom inner source (c :: text) = .error fault := by
  have htrim : Text.trimStart (c :: text) = c :: text :=
    Text.trimStart_cons_of_not_blank (not_blank_of_inWord hc) text
  unfold atom
  rw [htrim]
  dsimp only
  split
  · case _ heq => exact absurd heq (by simp)
  · case _ heq =>
    obtain ⟨rfl, -⟩ := List.cons.inj heq
    exact absurd hc (by decide)
  · case _ heq =>
    obtain ⟨rfl, -⟩ := List.cons.inj heq
    exact absurd hc (by decide)
  · rw [h]
    rfl

theorem atom_numeral (h : IsNumeral digits) (hrest : ∀ c ∈ rest.head?, ¬ inWord c) :
    atom inner source (digits ++ rest) = (·, rest) <$> Tree.number <$> literal digits := by
  have hword := h.atStart? hrest
  cases hliteral : literal digits with
  | ok n =>
    rw [hliteral] at hword
    rw [atom_of_word hword, Text.afterWord_append h.inWord hrest]
    rfl
  | error fault =>
    rw [hliteral] at hword
    cases digits with
    | nil => exact absurd rfl h.nonempty
    | cons c letters => exact atom_of_bad_word (h.inWord c List.mem_cons_self) hword

theorem operand_numeral (h : IsNumeral digits) (hrest : Closes rest) :
    operand inner below source (digits ++ rest) =
      (·, rest.trimStart) <$> Tree.number <$> literal digits :=
  operand_closes h.isOperand (atom_numeral h hrest.word) rfl hrest

theorem afterLeast?_numeral (h : IsNumeral digits) (hrest : ∀ c ∈ rest.head?, ¬ inWord c) :
    afterLeast? (digits ++ rest) = if digits = leastDigits then some rest else none := by
  rw [afterLeast?, h.isOperand.trimStart_append, Text.firstWord_append h.inWord hrest,
    Text.afterWord_append h.inWord hrest]
  rfl

/-- Behind a minus sign the digits of the least number are told from all others first. -/
theorem operand_negated (h : IsNumeral digits)
    (hbelow : below digits = (·, []) <$> Tree.number <$> literal digits) :
    operand inner below source ('-' :: digits) = (·, []) <$> negated digits := by
  have hstart : Operator.atStart? ('-' :: digits) = some (.minus, 1) :=
    (operatorAtStart?_sign h.isOperand).1
  have hafter := afterLeast?_numeral h closes_nil.word
  rw [List.append_nil] at hafter
  by_cases hleast : digits = leastDigits
  · rw [if_pos hleast] at hafter
    have htrim : Text.trimStart ('-' :: digits) = '-' :: digits :=
      Text.trimStart_cons_of_not_blank (by decide) digits
    simp only [operand, htrim, hstart, List.drop_succ_cons, List.drop_zero, hafter, negated,
      if_pos hleast]
    rfl
  · rw [if_neg hleast] at hafter
    rw [operand_minus hstart hafter, hbelow, negated, if_neg hleast]
    cases literal digits <;> rfl

theorem operand_numeral_end (h : IsNumeral digits) :
    operand inner below source digits = (·, []) <$> Tree.number <$> literal digits := by
  have hoperand : operand inner below source (digits ++ []) =
      (·, []) <$> Tree.number <$> literal digits := operand_numeral h closes_nil
  rwa [List.append_nil] at hoperand

theorem expression_numeral (h : IsNumeral digits) (limit room : Nat) :
    expression limit (room + 1) digits digits = Tree.number <$> literal digits :=
  expression_operand (by simpa using h.isOperand.not_isBlank_append []) (operand_numeral_end h) _

theorem expression_negated (h : IsNumeral digits) (limit room : Nat) :
    expression limit (room + 2) ('-' :: digits) ('-' :: digits) = negated digits := by
  have hblank : ¬ Text.isBlank ('-' :: digits) := Text.not_isBlank_cons (by decide) digits
  apply expression_operand hblank
  apply operand_negated h
  rw [prefixed]
  exact operand_numeral_end h

theorem isPhrase_numeral (h : IsNumeral digits) : IsPhrase digits :=
  isPhrase_word h.inWord h.nonempty h.no_keyword

theorem isPhrase_negated (h : IsNumeral digits) : IsPhrase ('-' :: digits) where
  nested := .cons (by decide) h.isOperand.nested
  isCode := (Text.isCode_char (by decide) (by decide)).append (isCode_of_inWord h.inWord)
  nonempty := nofun
  head := by rintro _ ⟨⟩; decide
  last c hc := by
    rw [List.getLast?_cons_of_ne_nil h.nonempty] at hc
    exact h.isOperand.last_not_blank c hc
  no_keyword := by
    rw [Keyword.atStart?, Text.trimStart_cons_of_not_blank (by decide)]
    rfl

end Grammar

namespace RuleSet

open Grammar

variable (set : RuleSet) {digits : Text}

theorem evaluateSource_numeral (hdepth : 2 ≤ set.limits.nestingDepth) (h : IsNumeral digits) :
    evaluateSource (.ofList digits) set =
      match literal digits with
      | .ok n => .ok n set.cleared
      | .error fault => .error fault set := by
  obtain ⟨room, hroom⟩ := Nat.exists_eq_add_of_le' hdepth
  rw [evaluateSource_phrase (isPhrase_numeral h) set hroom, expression_numeral h]
  cases literal digits <;> rfl

theorem evaluateSource_negated (hdepth : 3 ≤ set.limits.nestingDepth) (h : IsNumeral digits) :
    evaluateSource (.ofList ('-' :: digits)) set =
      if digits = leastDigits then .ok Int32.minValue set.cleared
      else match literal digits with
        | .ok n => .ok (-n) set.cleared
        | .error fault => .error fault set := by
  obtain ⟨room, hroom⟩ := Nat.exists_eq_add_of_le' hdepth
  rw [evaluateSource_phrase (isPhrase_negated h) set hroom, expression_negated h, negated]
  by_cases hleast : digits = leastDigits
  · rw [if_pos hleast, if_pos hleast]
    rfl
  · rw [if_neg hleast, if_neg hleast]
    cases literal digits <;> rfl

/-- A literal has the value of its digits, with the sign it has, and is refused if that is no
number. The least number is a literal only as it is written without leading zeros. -/
theorem evaluateSource_literal (hdepth : 3 ≤ set.limits.nestingDepth) (h : IsNumeral digits) :
    (Text.natValue digits ≤ 2147483647 → ∃ n : Int32, n.toInt = Text.natValue digits ∧
      evaluateSource (.ofList digits) set = .ok n set.cleared) ∧
    (¬ Text.natValue digits ≤ 2147483647 →
      evaluateSource (.ofList digits) set = .error (.syntactic ⟨.badNumber, [digits]⟩) set) ∧
    (Text.natValue digits ≤ 2147483647 ∨ digits = "2147483648".toList →
      ∃ n : Int32, n.toInt = -Text.natValue digits ∧
        evaluateSource (.ofList ('-' :: digits)) set = .ok n set.cleared) ∧
    (¬ Text.natValue digits ≤ 2147483647 → digits ≠ "2147483648".toList →
      evaluateSource (.ofList ('-' :: digits)) set =
        .error (.syntactic ⟨.badNumber, [digits]⟩) set) := by
  have hplain := evaluateSource_numeral set (by omega) h
  have hnegated := evaluateSource_negated set hdepth h
  refine ⟨fun hvalue => ?_, fun hvalue => ?_, fun hvalue => ?_, fun hvalue hleast => ?_⟩
  · rw [literal_eq_ok hvalue] at hplain
    exact ⟨_, toInt_ofNat_of_le hvalue, hplain⟩
  · rwa [literal_eq_error hvalue] at hplain
  · by_cases hleast : digits = leastDigits
    · rw [if_pos hleast] at hnegated
      refine ⟨Int32.minValue, ?_, hnegated⟩
      rw [hleast, natValue_leastDigits]
      rfl
    · have hvalue := hvalue.resolve_right hleast
      rw [if_neg hleast, literal_eq_ok hvalue] at hnegated
      exact ⟨_, toInt_neg_ofNat_of_le hvalue, hnegated⟩
  · have hleast : digits ≠ leastDigits := hleast
    rwa [if_neg hleast, literal_eq_error hvalue] at hnegated

/-- Zeros before a literal do not change it. -/
theorem evaluateSource_leading_zeros :
    (∃ n : Int32, n.toInt = 7 ∧ evaluateSource "007" (ofLimits .default) =
      .ok n (ofLimits .default).cleared) ∧
    ∃ n : Int32, n.toInt = -7 ∧ evaluateSource "-007" (ofLimits .default) =
      .ok n (ofLimits .default).cleared := by
  have hnumeral : IsNumeral "007".toList := ⟨by decide, by decide⟩
  have hvalue : Text.natValue "007".toList = 7 := by decide
  have hliteral := evaluateSource_literal (ofLimits .default) (by decide) hnumeral
  rw [hvalue] at hliteral
  exact ⟨hliteral.1 (by decide), hliteral.2.2.1 (.inl (by decide))⟩

/-- A zero before the least number does. -/
theorem evaluateSource_least_leading_zero :
    ¬ ∀ (set : RuleSet) (digits : Text), 3 ≤ set.limits.nestingDepth → IsNumeral digits →
      Text.natValue digits ≤ 2147483648 →
      ∃ (n : Int32) (later : RuleSet), n.toInt = -Text.natValue digits ∧
        evaluateSource (.ofList ('-' :: digits)) set = .ok n later := by
  intro h
  have hnumeral : IsNumeral "02147483648".toList := ⟨by decide, by decide⟩
  have hvalue : Text.natValue "02147483648".toList = 2147483648 := by
    simp [Text.natValue, Nat.ofDigitChars_cons]
  obtain ⟨n, later, -, hevaluate⟩ :=
    h (ofLimits .default) "02147483648".toList (by decide) hnumeral (by rw [hvalue])
  have hnegated := evaluateSource_negated (ofLimits .default) (by decide) hnumeral
  have hleast : "02147483648".toList ≠ leastDigits := by decide
  have hlarge : ¬ Text.natValue "02147483648".toList ≤ 2147483647 := by
    rw [hvalue]
    decide
  rw [if_neg hleast, literal_eq_error hlarge] at hnegated
  exact absurd (hevaluate.symm.trans hnegated) nofun

end RuleSet
end RuleLang

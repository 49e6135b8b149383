import RuleLang.Proofs.Reading
import RuleLang.Proofs.Spelling

/-!
Readers at work on spelled operands: words, references, atoms and chains. An operand is read up
to what comes after it, which is an operator or the end of the text, and every reader leaves
just that. What stands in brackets is left to the reader of expressions.
-/
namespace RuleLang

/-- The characters that operators other than words are spelled with. -/
def operatorChars : List Char := ['=', '&', '|', '!', '<', '>', '+', '-', '*', '/', '%']

/-- What can stand after an operand: an operator or nothing. -/
def Follows (rest : Text) : Prop := ∀ c ∈ rest.head?, c ∈ operatorChars

theorem follows_nil : Follows [] := fun _ => nofun

/-- After an operand no word, no index, no method and no argument list goes on. -/
theorem Follows.stops {rest : Text} (h : Follows rest) :
    ∀ c ∈ rest.head?, ¬ inWord c ∧ ¬ isBlankChar c ∧ c ∉ ['(', '[', '.'] := by
  have hchars : ∀ c ∈ operatorChars, ¬ inWord c ∧ ¬ isBlankChar c ∧ c ∉ ['(', '[', '.'] := by
    decide
  exact fun c hc => hchars c (h c hc)

theorem Follows.stops_at {rest : Text} (h : Follows rest) (c : Char) (hc : c ∈ ['(', '[', '.']) :
    ∀ d ∈ rest.head?, ¬ isBlankChar d ∧ d ≠ c := by
  intro d hd
  obtain ⟨-, hblank, hne⟩ := h.stops d hd
  exact ⟨hblank, fun heq => hne (heq ▸ hc)⟩

theorem Follows.trimStart {rest : Text} (h : Follows rest) : rest.trimStart = rest :=
  Text.trimStart_of_head fun c hc => (h.stops c hc).2.1

theorem IsOperand.trimStart_append {text : Text} (h : IsOperand text) (rest : Text) :
    Text.trimStart (text ++ rest) = text ++ rest := by
  apply Text.trimStart_of_head
  intro c hc
  rw [List.head?_append_of_ne_nil _ h.nonempty] at hc
  exact h.head_not_blank c hc

theorem IsOperand.not_isBlank_append {front : Text} (h : IsOperand front) (back : Text) :
    ¬ Text.isBlank (front ++ back) := by
  intro hblank
  have htrim := h.trimStart_append back
  have hnil := Text.trimStart_of_isBlank hblank
  exact h.nonempty (List.append_eq_nil_iff.mp (htrim.symm.trans hnil)).1

theorem IsOperand.trim {text : Text} (h : IsOperand text) : text.trim = text :=
  Text.trim_of_ends h.head_not_blank h.last_not_blank

namespace Text

theorem firstWord_append {word rest : Text} (hword : ∀ c ∈ word, inWord c)
    (hrest : ∀ c ∈ rest.head?, ¬ inWord c) : firstWord (word ++ rest) = word := by
  rw [firstWord, List.takeWhile_append_of_pos hword]
  cases rest with
  | nil => simp
  | cons c rest => rw [List.takeWhile_cons_of_neg (hrest c rfl), List.append_nil]

theorem afterWord_append {word rest : Text} (hword : ∀ c ∈ word, inWord c)
    (hrest : ∀ c ∈ rest.head?, ¬ inWord c) : afterWord (word ++ rest) = rest := by
  rw [afterWord, List.dropWhile_append_of_pos hword]
  cases rest with
  | nil => rfl
  | cons c rest => exact List.dropWhile_cons_of_neg (hrest c rfl)

end Text

namespace Word

theorem inWord_of_atStart? {text : Text} {word : Word} (h : atStart? text = .ok (some word)) :
    ∃ c rest, text = c :: rest ∧ inWord c := by
  cases text with
  | nil => cases h
  | cons c rest =>
    refine ⟨c, rest, rfl, ?_⟩
    by_contra hc
    rw [atStart?, Text.firstWord, List.takeWhile_cons_of_neg hc] at h
    cases h

theorem atStart?_name {x : String} (hx : IsIdentifier x) {rest : Text}
    (hrest : ∀ c ∈ rest.head?, ¬ inWord c) :
    atStart? (x.toList ++ rest) = .ok (some (.name x.toList)) := by
  rw [atStart?, Text.firstWord_append hx.inWord hrest]
  have hhead := hx.no_number
  cases hletters : x.toList with
  | nil => exact absurd hletters hx.nonempty
  | cons c letters =>
    rw [hletters] at hhead
    rw [ofLetters?, if_pos (by simpa using hhead c rfl)]

theorem ofLetters?_spellNumber {n : Int32} (hn : 0 ≤ n) :
    ofLetters? (spellNumber n) = .ok (some (.number n)) := by
  have hint : 0 ≤ n.toInt := by simpa using Int32.le_iff_toInt_le.mp hn
  have hlt := n.toInt_lt
  have hvalue : Text.natValue (Text.ofNat n.toInt.toNat) = n.toInt.toNat :=
    Nat.ofDigitChars_ten_toDigits
  have hback : Int32.ofNat n.toInt.toNat = n := by
    refine Int32.toInt_inj.mp ?_
    rw [Int32.toInt_ofNat_of_lt (by omega), Int.toNat_of_nonneg hint]
  have hdigits : ∀ c ∈ Text.ofNat n.toInt.toNat, c.isDigit := fun c hc =>
    Nat.isDigit_of_mem_toDigits (by decide) (by decide) hc
  have hmax : n.toInt.toNat ≤ maxNumber := by
    rw [maxNumber]
    omega
  rw [spellNumber_of_nonneg hn]
  cases hletters : Text.ofNat n.toInt.toNat with
  | nil => exact absurd hletters Nat.toDigits_ne_nil
  | cons c letters =>
    rw [hletters] at hdigits hvalue
    obtain ⟨hc, hletters⟩ := List.forall_mem_cons.mp hdigits
    rw [ofLetters?, if_neg (by simp [hc]), if_pos, hvalue, hback]
    rw [hvalue, List.all_eq_true.mpr hletters, decide_eq_true hmax]
    rfl

theorem atStart?_number {n : Int32} (hn : 0 ≤ n) {rest : Text}
    (hrest : ∀ c ∈ rest.head?, ¬ inWord c) :
    atStart? (spellNumber n ++ rest) = .ok (some (.number n)) := by
  rw [atStart?, ← ofLetters?_spellNumber hn, spellNumber_of_nonneg hn,
    Text.firstWord_append (inWord_ofNat _) hrest]

end Word

namespace Grammar

theorem ok_bind {α β : Type} (a : α) (next : α → Except Fault β) :
    (Except.ok a >>= next) = next a := rfl

variable {inner : Inner} {tree row column : Tree} {name source start rest text : Text}

theorem enclosed_within {opening closing : Char} {inside : Bool} (h : text.Nested inside)
    (hpair : (opening, closing) ∈ Text.bracketPairs) (rest : Text) :
    enclosed opening closing (Text.within opening closing text ++ rest) = .ok (text, rest) := by
  rw [enclosed, Text.enclosed?_within h hpair]

theorem index?_none (hrest : ∀ c ∈ rest.head?, ¬ isBlankChar c ∧ c ≠ '[') :
    index? inner name rest = .ok none := by
  have htrim : rest.trimStart = rest := Text.trimStart_of_head fun c hc => (hrest c hc).1
  unfold index?
  split
  · case _ rest' heq =>
    rw [htrim] at heq
    exact absurd rfl (hrest '[' (by rw [heq]; rfl)).2
  · rfl

theorem index?_within (h : text.Nested false) (hinner : inner text (name ++ ['[']) = .ok tree)
    (rest : Text) :
    index? inner name (Text.within '[' ']' text ++ rest) = .ok (some (tree, rest)) := by
  have henclosed := enclosed_within h (by decide : ('[', ']') ∈ Text.bracketPairs) rest
  rw [Text.within, List.cons_append] at henclosed ⊢
  rw [index?, Text.trimStart_cons_of_not_blank (by decide)]
  simp only [henclosed, ok_bind, hinner]
  rfl

theorem call_none (hrest : ∀ c ∈ rest.head?, ¬ isBlankChar c ∧ c ≠ '.') :
    call start tree rest = .ok (tree, rest) := by
  have htrim : rest.trimStart = rest := Text.trimStart_of_head fun c hc => (hrest c hc).1
  unfold call
  split
  · case _ rest' heq =>
    rw [htrim] at heq
    exact absurd rfl (hrest '.' (by rw [heq]; rfl)).2
  · rw [htrim]
    rfl

theorem call_method {method : String} (hmethod : IsIdentifier method) {op : UnaryOp}
    (hop : ∀ source, methodOp method.toList tree source = .ok op) (rest : Text) :
    call start tree ('.' :: (method.toList ++ (Text.within '(' ')' [] ++ rest))) =
      .ok (.unary op tree, rest) := by
  have hhead : ∀ c ∈ (Text.within '(' ')' [] ++ rest).head?, ¬ inWord c := by
    simp [Text.within]
    decide
  have hword := Word.atStart?_name hmethod hhead
  have hafter := Text.afterWord_append hmethod.inWord hhead
  have hcalled := hmethod.isOperand.trimStart_append (Text.within '(' ')' [] ++ rest)
  have henclosed := enclosed_within (.nil : Text.Nested false [])
    (by decide : ('(', ')') ∈ Text.bracketPairs) rest
  have hopen : Text.trimStart (Text.within '(' ')' [] ++ rest) = '(' :: ([')'] ++ rest) :=
    Text.trimStart_cons_of_not_blank (by decide) _
  rw [Text.within, List.cons_append, List.nil_append] at henclosed
  rw [call, Text.trimStart_cons_of_not_blank (by decide)]
  simp only [hcalled, hword, ok_bind, hafter, hopen, henclosed, hop]
  rfl

theorem methodOp_size {x : String} : methodOp "size".toList (.name x) source = .ok .size := rfl

theorem methodOp_rowSize {x : String} :
    methodOp "size".toList (.element x tree) source = .ok .rowSize := rfl

theorem methodOp_sort {x : String} : methodOp "sort".toList (.name x) source = .ok .sort := rfl

theorem reference_name {x : String} (htext : ∀ c ∈ text.head?, ¬ isBlankChar c ∧ c ≠ '[') :
    reference inner x.toList start text = call start (.name x) text := by
  simp only [reference, index?_none htext, ok_bind, String.ofList_toList]

theorem reference_element {x : String} (h : index? inner x.toList text = .ok (some (row, rest)))
    (hrest : ∀ c ∈ rest.head?, ¬ isBlankChar c ∧ c ≠ '[') :
    reference inner x.toList start text = call start (.element x row) rest := by
  simp only [reference, h, index?_none hrest, ok_bind, String.ofList_toList]

theorem reference_cell {x : String} {rest' : Text}
    (hrow : index? inner x.toList text = .ok (some (row, rest)))
    (hcolumn : index? inner x.toList rest = .ok (some (column, rest'))) :
    reference inner x.toList start text = call start (.cell x row column) rest' := by
  simp only [reference, hrow, hcolumn, ok_bind, String.ofList_toList]

theorem atom_of_word {word : Word} : Word.atStart? text = .ok (some word) →
    atom inner source text =
      match word with
      | .number value => .ok (.number value, text.afterWord)
      | .name word =>
        match Keyword.ofWord? word with
        | some keyword => throw (.syntactic ⟨.keywordInExpression, [keyword.spelling]⟩)
        | none =>
          match extremum? word, text.afterWord.trimStart with
          | some op, '(' :: _ => extremum inner op word text.afterWord.trimStart
          | _, _ => reference inner word text text.afterWord.trimStart := by
  intro hword
  obtain ⟨c, rest, rfl, hc⟩ := Word.inWord_of_atStart? hword
  have htrim : Text.trimStart (c :: rest) = c :: rest :=
    Text.trimStart_cons_of_not_blank (not_blank_of_inWord hc) rest
  unfold atom
  rw [htrim]
  dsimp only
  split
  · case _ heq => exact absurd heq (by simp)
  · case _ heq =>
    obtain ⟨rfl, -⟩ := List.cons.inj heq
    exact absurd hc (by decide)
  · case _ heq =>
    obtain ⟨rfl, -⟩ := List.cons.inj heq
    exact absurd hc (by decide)
  · rw [hword]
    cases word <;> rfl

theorem atom_number {n : Int32} (hn : 0 ≤ n) (hrest : ∀ c ∈ rest.head?, ¬ inWord c) :
    atom inner source (spellNumber n ++ rest) = .ok (.number n, rest) := by
  rw [atom_of_word (Word.atStart?_number hn hrest), spellNumber_of_nonneg hn,
    Text.afterWord_append (inWord_ofNat _) hrest]

theorem atom_name {x : String} (hx : IsIdentifier x)
    (hrest : ∀ c ∈ rest.head?, ¬ inWord c ∧ ¬ isBlankChar c ∧ c ≠ '(') :
    atom inner source (x.toList ++ rest) = reference inner x.toList (x.toList ++ rest) rest := by
  have hstop : ∀ c ∈ rest.head?, ¬ inWord c := fun c hc => (hrest c hc).1
  have htrim : rest.trimStart = rest := Text.trimStart_of_head fun c hc => (hrest c hc).2.1
  rw [atom_of_word (Word.atStart?_name hx hstop), Text.afterWord_append hx.inWord hstop, htrim]
  dsimp only
  rw [hx.no_keyword]
  dsimp only
  split
  · exact absurd rfl (hrest '(' rfl).2.2
  · rfl

theorem atom_parens {inside : Bool} (h : text.Nested inside) (hinner : inner text ['('] = .ok tree)
    (rest : Text) : atom inner source (Text.within '(' ')' text ++ rest) = .ok (tree, rest) := by
  have henclosed := enclosed_within h (by decide : ('(', ')') ∈ Text.bracketPairs) rest
  rw [Text.within, List.cons_append] at henclosed ⊢
  rw [atom, Text.trimStart_cons_of_not_blank (by decide)]
  simp only [henclosed, ok_bind, hinner]
  rfl

theorem pieces_arguments {left right : Text} (hleft : IsOperand left) (hright : IsOperand right) :
    Division.arguments.pieces (left ++ ',' :: right) = .ok [left, right] := by
  have hpieces : Division.arguments.pieces ([','].intercalate [left, right]) =
      .ok ([left, right].map Text.trim) := by
    refine Division.pieces_intercalate (by simp) ?_ (fun _ _ => .inl rfl) ?_
    · intro text htext
      refine Division.isPiece_of_nested Division.arguments_mem ?_
      simp only [List.mem_cons, List.not_mem_nil, or_false] at htext
      rcases htext with rfl | rfl
      · exact hleft.nested
      · exact hright.nested
    · rw [List.intercalate_cons_cons, List.append_assoc]
      exact hleft.not_isBlank_append _
  simpa [hleft.trim, hright.trim] using hpieces

theorem atom_extremum {op : BinaryOp} (hop : op = .max ∨ op = .min) {left right : Text}
    {l r : Tree} (hleft : IsOperand left) (hright : IsOperand right)
    (hl : ∀ after, inner left after = .ok l) (hr : ∀ after, inner right after = .ok r)
    (rest : Text) :
    atom inner source (op.spell left right ++ rest) = .ok (.binary op l r, rest) := by
  have hname : ∃ x : String,
      IsIdentifier x ∧ op.symbol = x.toList ∧ extremum? x.toList = some op := by
    rcases hop with rfl | rfl
    · exact ⟨"max", ⟨by decide, by decide, by decide, by decide⟩, rfl, rfl⟩
    · exact ⟨"min", ⟨by decide, by decide, by decide, by decide⟩, rfl, rfl⟩
  obtain ⟨x, hx, hsymbol, hextremum⟩ := hname
  have hspell : op.spell left right ++ rest =
      x.toList ++ (Text.within '(' ')' (left ++ ',' :: right) ++ rest) := by
    rw [← hsymbol]
    rcases hop with rfl | rfl <;> simp [BinaryOp.spell]
  have hnested : Text.Nested true (left ++ ',' :: right) :=
    hleft.nested.inside.append (.cons (by decide) hright.nested.inside)
  have hhead : ∀ c ∈ (Text.within '(' ')' (left ++ ',' :: right) ++ rest).head?, ¬ inWord c := by
    simp [Text.within]
    decide
  have hopen : Text.trimStart (Text.within '(' ')' (left ++ ',' :: right) ++ rest) =
      Text.within '(' ')' (left ++ ',' :: right) ++ rest :=
    Text.trimStart_cons_of_not_blank (by decide) _
  have hpieces : Division.arguments.pieces (left ++ ',' :: right) = .ok [left, right] :=
    pieces_arguments hleft hright
  rw [hspell, atom_of_word (Word.atStart?_name hx hhead), Text.afterWord_append hx.inWord hhead]
  dsimp only
  rw [hx.no_keyword, hopen]
  simp only [hextremum, Text.within, List.cons_append]
  have henclosed := enclosed_within hnested (by decide : ('(', ')') ∈ Text.bracketPairs) rest
  rw [Text.within, List.cons_append] at henclosed
  simp only [extremum, henclosed, ok_bind, hpieces, hl, hr]
  rfl

theorem not_operatorChar {c : Char} (hc : inWord c ∨ c = '(') : c ∉ operatorChars := by
  intro hmem
  have hchars : ∀ c ∈ operatorChars, ¬ inWord c ∧ c ≠ '(' := by decide
  rcases hc with hc | hc
  · exact (hchars c hmem).1 hc
  · exact (hchars c hmem).2 hc

/-- The only operators that an operand can begin with are words, which are names there. -/
theorem operatorAtStart?_of_head {c : Char} (hc : inWord c ∨ c = '(') {op : Operator} {n : Nat}
    (h : Operator.atStart? (c :: rest) = some (op, n)) : op = .and ∨ op = .or := by
  have hoperator := not_operatorChar hc
  unfold Operator.atStart? at h
  split at h
  case h_18 =>
    obtain ⟨word, hword, heq⟩ := Option.map_eq_some_iff.mp h
    obtain ⟨rfl, -⟩ := Prod.mk.inj heq
    unfold Operator.ofWord? at hword
    split at hword
    · exact .inl (Option.some.inj hword).symm
    · exact .inr (Option.some.inj hword).symm
    · cases hword
  all_goals
    rename_i heq
    obtain ⟨rfl, -⟩ := List.cons.inj heq
    exact absurd (by decide) hoperator

theorem operand_eq_stepped (h : IsOperand text) (below : Text → Read) (rest : Text) :
    operand inner below source (text ++ rest) = stepped inner source (text ++ rest) := by
  have htrim := h.trimStart_append rest
  cases text with
  | nil => exact absurd rfl h.nonempty
  | cons c text =>
    have hoperator (op : Operator) (n : Nat)
        (hstart : Operator.atStart? (c :: (text ++ rest)) = some (op, n)) : op = .and ∨ op = .or :=
      operatorAtStart?_of_head (h.head c rfl) hstart
    unfold operand
    rw [htrim]
    dsimp only [List.cons_append]
    split
    case h_6 => rfl
    all_goals
      rename_i heq
      exact absurd (hoperator _ _ heq) (by decide)

/-- The operators of a chain are found between operands. -/
theorem operatorAtStart?_symbol {op : BinaryOp} (hop : op ≠ .max ∧ op ≠ .min)
    (h : IsOperand text) :
    ∃ operator, Operator.atStart? (op.symbol ++ text) = some (operator, op.symbol.length) ∧
      operator.binary? = some op := by
  cases text with
  | nil => exact absurd rfl h.nonempty
  | cons c text =>
    have hc := not_operatorChar (h.head c rfl)
    simp only [operatorChars, List.mem_cons, List.not_mem_nil, not_or] at hc
    cases op with
    | max => exact absurd rfl hop.1
    | min => exact absurd rfl hop.2
    | _ => simp [BinaryOp.symbol, Operator.atStart?, Operator.binary?, hc]

theorem operatorAtStart?_sign (h : IsOperand text) :
    Operator.atStart? ('-' :: text) = some (.minus, 1) ∧
      Operator.atStart? ('!' :: text) = some (.bang, 1) := by
  cases text with
  | nil => exact absurd rfl h.nonempty
  | cons c text =>
    have hc := not_operatorChar (h.head c rfl)
    simp only [operatorChars, List.mem_cons, List.not_mem_nil, not_or] at hc
    simp [Operator.atStart?, hc]

theorem follows_symbol {op : BinaryOp} (hop : op ≠ .max ∧ op ≠ .min) (text : Text) :
    Follows (op.symbol ++ text) := by
  cases op with
  | max => exact absurd rfl hop.1
  | min => exact absurd rfl hop.2
  | _ => simp [Follows, BinaryOp.symbol, operatorChars]

/-- An operand after which no step operator stands. -/
theorem stepped_of_atom (htext : text.trimStart = text)
    (hatom : atom inner source text = .ok (tree, rest)) (hrest : Follows rest)
    (hop : ∀ op n, Operator.atStart? rest = some (op, n) → op ≠ .increment ∧ op ≠ .decrement) :
    stepped inner source text = .ok (tree, rest) := by
  simp only [stepped, htext, hatom, ok_bind, hrest.trimStart]
  split
  · case _ heq => exact absurd rfl (hop _ _ heq).1
  · case _ heq => exact absurd rfl (hop _ _ heq).2
  · rfl

/-- A step operator after what it changes. -/
theorem stepped_step {sign : Text} {op : UnaryOp}
    (hsign : sign = ['+', '+'] ∧ op = .postIncrement ∨ sign = ['-', '-'] ∧ op = .postDecrement)
    (htext : text.trimStart = text) (hatom : atom inner source text = .ok (tree, sign))
    (htree : tree.isLvalue) : stepped inner source text = .ok (.unary op tree, []) := by
  have htrim : sign.trimStart = sign := by
    rcases hsign with ⟨rfl, -⟩ | ⟨rfl, -⟩ <;> decide
  rcases hsign with ⟨rfl, rfl⟩ | ⟨rfl, rfl⟩ <;>
  · simp only [stepped, htext, hatom, ok_bind, htrim, Operator.atStart?, step, htree, if_true]
    rfl

theorem chain_of_operand {operand : Text → Read} (h : operand text.trimStart = .ok (tree, [])) :
    chain operand text = .ok (tree, []) := by
  simp only [chain, h, ok_bind]
  rw [links_end (.inr rfl)]
  rfl

theorem join_single {op : BinaryOp} (hop : op.level?.isSome) (left right : Tree) :
    join left [(op, right)] = .binary op left right := by
  cases op <;> first | rfl | cases hop

/-- A chain of two operands. An assignment has its target before the operator. -/
theorem chain_binary {operand : Text → Read} {op : BinaryOp} {left right : Text} {l r : Tree}
    (hop : op ≠ .max ∧ op ≠ .min) (hleft : IsOperand left) (hright : IsOperand right)
    (hl : operand (left ++ (op.symbol ++ right)) = .ok (l, op.symbol ++ right))
    (hr : operand right = .ok (r, [])) (htarget : op = .assign → l.isLvalue) :
    chain operand (left ++ (op.symbol ++ right)) = .ok (.binary op l r, []) := by
  obtain ⟨operator, hoperator, hbinary⟩ := operatorAtStart?_symbol hop hright
  have hsymbol := (follows_symbol hop right).trimStart
  have hlink : linkAt? (Text.trimStart (op.symbol ++ right)) = some (op, op.symbol.length) := by
    simp [linkAt?, hsymbol, hoperator, hbinary]
  have hdrop : (op.symbol ++ right).drop op.symbol.length = right := List.drop_left
  have hend (bound : Nat) (start : Text) (first : Tree) (read : List (BinaryOp × Tree)) :
      links operand bound start first read [] = .ok (join first read.reverse, []) :=
    links_end (.inr rfl)
  obtain ⟨bound, hbound⟩ : ∃ bound, (left ++ (op.symbol ++ right)).length = bound + 1 :=
    Nat.exists_eq_succ_of_ne_zero (by simp [hleft.nonempty])
  simp only [chain, hleft.trimStart_append, hl, ok_bind, hbound]
  by_cases hassign : op = .assign
  · subst hassign
    have hright' : Text.trimStart right = right := by simpa using hright.trimStart_append []
    have hjoin : join l [] = l := rfl
    rw [links_assign hlink, hsymbol, hdrop, hright', List.reverse_nil, hjoin,
      if_pos (htarget rfl), hr]
    simp only [ok_bind, hend]
    rfl
  · have hlevel : op.level?.isSome := by
      cases op <;> simp_all [BinaryOp.level?]
    rw [links_operator hassign hlink, hsymbol, hdrop, hr]
    simp only [ok_bind, hend, List.reverse_singleton, join_single hlevel]

end Grammar
end RuleLang

import RuleLang.Proofs.Operands

/-!
Reading back what is spelled: expressions. The room for nesting that a reader needs is counted
in characters of what it reads: brackets and prefix operators take up at least as many characters
as they take levels.
-/
namespace RuleLang.Grammar

variable {inner : Inner} {tree row column : Tree} {source rest text : Text}

/-- The tree is read back as an atom, given two levels of room less than characters. -/
def ReadsBack (limit : Nat) (tree : Tree) : Prop :=
  ∀ room source rest, tree.spell.length ≤ room + 2 → Follows rest →
    atom (expression limit room) source (tree.spell ++ rest) = .ok (tree, rest)

variable {limit room : Nat}

theorem expression_of_chain (hblank : ¬ text.isBlank)
    (h : chain (operand (expression limit room) (prefixed limit room text) text) text =
      .ok (tree, [])) (after : Text) : expression limit (room + 1) text after = .ok tree := by
  rw [expression, if_neg hblank]
  simp only [h, ok_bind]
  rfl

theorem ReadsBack.operand_eq (h : ReadsBack limit tree) (htree : IsOperand tree.spell)
    (hroom : tree.spell.length ≤ room + 2) (hrest : Follows rest)
    (hop : ∀ op n, Operator.atStart? rest = some (op, n) → op ≠ .increment ∧ op ≠ .decrement)
    (below : Text → Read) (source : Text) :
    operand (expression limit room) below source (tree.spell ++ rest) = .ok (tree, rest) := by
  rw [operand_eq_stepped htree]
  exact stepped_of_atom (htree.trimStart_append rest) (h room source rest hroom hrest) hrest hop

theorem ReadsBack.operand_end (h : ReadsBack limit tree) (htree : IsOperand tree.spell)
    (hroom : tree.spell.length ≤ room + 2) (below : Text → Read) (source : Text) :
    operand (expression limit room) below source tree.spell = .ok (tree, []) := by
  have hoperand := h.operand_eq htree hroom follows_nil (fun _ _ => nofun) below source
  rwa [List.append_nil] at hoperand

theorem ReadsBack.expression_trimStart (h : ReadsBack limit tree) (htree : IsOperand tree.spell)
    (hpos : 1 ≤ room) (hroom : tree.spell.length ≤ room + 1) (htext : text.trimStart = tree.spell)
    (after : Text) : expression limit room text after = .ok tree := by
  obtain ⟨room, rfl⟩ : ∃ k, room = k + 1 := Nat.exists_eq_succ_of_ne_zero (by omega)
  have hblank : ¬ text.isBlank := by
    rw [← Text.isBlank_trimStart, htext]
    simpa using htree.not_isBlank_append []
  refine expression_of_chain hblank (chain_of_operand ?_) after
  rw [htext]
  exact h.operand_end htree hroom _ _

theorem ReadsBack.expression_eq (h : ReadsBack limit tree) (htree : IsOperand tree.spell)
    (hpos : 1 ≤ room) (hroom : tree.spell.length ≤ room + 1) (after : Text) :
    expression limit room tree.spell after = .ok tree :=
  h.expression_trimStart htree hpos hroom (by simpa using htree.trimStart_append []) after

theorem readsBack_number {n : Int32} (hn : IsLiteral n) : ReadsBack limit (.number n) := by
  intro room source rest hroom hrest
  rcases hn with hn | rfl
  · exact atom_number hn fun c hc => (hrest.stops c hc).1
  · have hleast : ∀ inner below source,
        operand inner below source "-2147483648".toList = .ok (.number Int32.minValue, []) :=
      fun _ _ _ => rfl
    have hnested : Text.Nested true "-2147483648".toList := Text.nested_of_forall (by decide)
    have hlength : (spellNumber Int32.minValue).length = 13 := rfl
    obtain ⟨room, rfl⟩ : ∃ k, room = k + 1 := Nat.exists_eq_succ_of_ne_zero (by
      rw [Tree.spell, hlength] at hroom
      omega)
    refine atom_parens hnested ?_ rest
    exact expression_of_chain (by decide) (chain_of_operand (hleast _ _ _)) _

theorem readsBack_name {x : String} (hx : IsIdentifier x) : ReadsBack limit (.name x) := by
  intro room source rest hroom hrest
  have hstops : ∀ c ∈ rest.head?, ¬ inWord c ∧ ¬ isBlankChar c ∧ c ≠ '(' := fun c hc =>
    ⟨(hrest.stops c hc).1, hrest.stops_at '(' (by decide) c hc⟩
  rw [Tree.spell, atom_name hx hstops, reference_name (hrest.stops_at '[' (by decide)),
    call_none (hrest.stops_at '.' (by decide))]

theorem atom_index {x : String} (hx : IsIdentifier x) (index rest : Text) :
    atom inner source (x.toList ++ (Text.within '[' ']' index ++ rest)) =
      reference inner x.toList (x.toList ++ (Text.within '[' ']' index ++ rest))
        (Text.within '[' ']' index ++ rest) :=
  atom_name hx (by simp [Text.within]; decide)

theorem readsBack_element {x : String} (hx : IsIdentifier x) (h : ReadsBack limit row)
    (hrow : IsOperand row.spell) : ReadsBack limit (.element x row) := by
  intro room source rest hroom hrest
  simp only [Tree.spell, Text.within, List.length_append, List.length_cons, List.length_nil]
    at hroom
  have hx' := List.length_pos_iff.mpr hx.nonempty
  have hpos := List.length_pos_iff.mpr hrow.nonempty
  have hinner := h.expression_eq hrow (by omega : 1 ≤ room) (by omega)
  rw [Tree.spell, List.append_assoc, atom_index hx,
    reference_element (index?_within hrow.nested (hinner _) _)
      (hrest.stops_at '[' (by decide)),
    call_none (hrest.stops_at '.' (by decide))]

theorem readsBack_cell {x : String} (hx : IsIdentifier x) (h : ReadsBack limit row)
    (hrow : IsOperand row.spell) (h' : ReadsBack limit column) (hcolumn : IsOperand column.spell) :
    ReadsBack limit (.cell x row column) := by
  intro room source rest hroom hrest
  simp only [Tree.spell, Text.within, List.length_append, List.length_cons, List.length_nil]
    at hroom
  have hpos := List.length_pos_iff.mpr hrow.nonempty
  have hpos' := List.length_pos_iff.mpr hcolumn.nonempty
  have hinner := h.expression_eq hrow (by omega : 1 ≤ room) (by omega)
  have hinner' := h'.expression_eq hcolumn (by omega : 1 ≤ room) (by omega)
  rw [Tree.spell, List.append_assoc, List.append_assoc, atom_index hx,
    reference_cell (index?_within hrow.nested (hinner _) _)
      (index?_within hcolumn.nested (hinner' _) _),
    call_none (hrest.stops_at '.' (by decide))]

/-- A method call ends an atom. -/
theorem atom_method {x : String} (hx : IsIdentifier x) {method : String}
    (hmethod : IsIdentifier method) {op : UnaryOp}
    (hop : ∀ source, methodOp method.toList (.name x) source = .ok op) (rest : Text) :
    atom inner source
      (x.toList ++ ('.' :: (method.toList ++ Text.within '(' ')' []) ++ rest)) =
        .ok (.unary op (.name x), rest) := by
  rw [List.cons_append, List.append_assoc, atom_name hx (by simp; decide),
    reference_name (by simp; decide), call_method hmethod hop]

theorem isIdentifier_size : IsIdentifier "size" := ⟨by decide, by decide, by decide, by decide⟩

theorem isIdentifier_sort : IsIdentifier "sort" := ⟨by decide, by decide, by decide, by decide⟩

/-- A method call as it is spelled, with the name and the brackets told apart. -/
theorem spell_size (operand : Text) : UnaryOp.size.spell operand =
    operand ++ '.' :: ("size".toList ++ Text.within '(' ')' []) := rfl

theorem spell_rowSize (operand : Text) : UnaryOp.rowSize.spell operand =
    operand ++ '.' :: ("size".toList ++ Text.within '(' ')' []) := rfl

theorem spell_sort (operand : Text) : UnaryOp.sort.spell operand =
    operand ++ '.' :: ("sort".toList ++ Text.within '(' ')' []) := rfl

theorem readsBack_size {x : String} (hx : IsIdentifier x) :
    ReadsBack limit (.unary .size (.name x)) := by
  intro room source rest hroom hrest
  rw [Tree.spell, Tree.spell, spell_size, List.append_assoc]
  exact atom_method hx isIdentifier_size (fun _ => methodOp_size) rest

theorem readsBack_sort {x : String} (hx : IsIdentifier x) :
    ReadsBack limit (.unary .sort (.name x)) := by
  intro room source rest hroom hrest
  rw [Tree.spell, Tree.spell, spell_sort, List.append_assoc]
  exact atom_method hx isIdentifier_sort (fun _ => methodOp_sort) rest

theorem readsBack_rowSize {x : String} (hx : IsIdentifier x) (h : ReadsBack limit row)
    (hrow : IsOperand row.spell) : ReadsBack limit (.unary .rowSize (.element x row)) := by
  intro room source rest hroom hrest
  rw [Tree.spell, Tree.spell, spell_rowSize] at hroom ⊢
  simp only [Text.within, List.length_append, List.length_cons, List.length_nil] at hroom
  have hpos := List.length_pos_iff.mpr hrow.nonempty
  have hinner := h.expression_eq hrow (by omega : 1 ≤ room) (by omega)
  rw [List.append_assoc, List.append_assoc, atom_index hx,
    reference_element (index?_within hrow.nested (hinner _) _) (by simp; decide),
    List.cons_append, List.append_assoc, call_method isIdentifier_size fun _ => methodOp_rowSize]

/-- What stands in the parentheses is read with one level less, which the parentheses pay for. -/
theorem readsBack_parens (hspell : tree.spell = Text.within '(' ')' text)
    (hnested : text.Nested true) (hblank : ¬ text.isBlank)
    (h : ∀ room, text.length ≤ room + 1 →
      chain (operand (expression limit room) (prefixed limit room text) text) text =
        .ok (tree, [])) : ReadsBack limit tree := by
  intro room source rest hroom hrest
  rw [hspell] at hroom ⊢
  simp only [Text.within, List.length_append, List.length_cons, List.length_nil] at hroom
  refine atom_parens hnested ?_ rest
  cases room with
  | zero =>
    have hnil : text = [] := List.length_eq_zero_iff.mp (by omega)
    exact absurd (by simp [hnil, Text.isBlank]) hblank
  | succ room => exact expression_of_chain hblank (h room (by omega)) _

/-- The digits of the least number are no atom, for they are too large without their sign. -/
theorem afterLeast?_of_atom {found : Tree × Text} (h : atom inner source text = .ok found) :
    afterLeast? text = none := by
  rw [afterLeast?, if_neg]
  intro hfirst
  have hword : Word.atStart? text.trimStart =
      .error (.syntactic ⟨.badNumber, ["2147483648".toList]⟩) := by
    rw [Word.atStart?, hfirst]
    rfl
  unfold atom at h
  dsimp only at h
  split at h
  · cases h
  · case _ heq =>
    rw [heq] at hfirst
    cases hfirst
  · cases h
  · rw [hword] at h
    cases h

theorem readsBack_prefixed {sign : Char} {op : UnaryOp}
    (hop : sign = '-' ∧ op = .negate ∨ sign = '!' ∧ op = .not) (h : ReadsBack limit tree)
    (htree : IsOperand tree.spell) : ReadsBack limit (.unary op tree) := by
  have hspell : (Tree.unary op tree).spell = Text.within '(' ')' (sign :: tree.spell) := by
    rcases hop with ⟨rfl, rfl⟩ | ⟨rfl, rfl⟩ <;> rfl
  have hsign : ¬ isBlankChar sign := by rcases hop with ⟨rfl, -⟩ | ⟨rfl, -⟩ <;> decide
  have hplain : Text.isPlain true sign := by rcases hop with ⟨rfl, -⟩ | ⟨rfl, -⟩ <;> decide
  have htrim : Text.trimStart (sign :: tree.spell) = sign :: tree.spell :=
    Text.trimStart_cons_of_not_blank hsign tree.spell
  refine readsBack_parens hspell (.cons hplain htree.nested.inside)
    (Text.not_isBlank_cons hsign _) fun room hroom => chain_of_operand ?_
  have hpos := List.length_pos_iff.mpr htree.nonempty
  rw [List.length_cons] at hroom
  obtain ⟨room, rfl⟩ : ∃ k, room = k + 1 := Nat.exists_eq_succ_of_ne_zero (by omega)
  have hbelow : prefixed limit (room + 1) (sign :: tree.spell) tree.spell = .ok (tree, []) :=
    h.operand_end htree (by omega) _ _
  have hleast : afterLeast? tree.spell = none := by
    have hatom := h room [] [] (by omega) follows_nil
    rw [List.append_nil] at hatom
    exact afterLeast?_of_atom hatom
  obtain ⟨hminus, hbang⟩ := operatorAtStart?_sign htree
  rcases hop with ⟨rfl, rfl⟩ | ⟨rfl, rfl⟩
  · simp only [operand, htrim, hminus, List.drop_succ_cons, List.drop_zero, hleast, hbelow, ok_bind]
    rfl
  · simp only [operand, htrim, hbang, List.drop_succ_cons, List.drop_zero, hbelow, ok_bind]
    rfl

theorem ReadsBack.atom_end (h : ReadsBack limit tree) (hroom : tree.spell.length ≤ room + 2)
    (source : Text) : atom (expression limit room) source tree.spell = .ok (tree, []) := by
  have hatom := h room source [] hroom follows_nil
  rwa [List.append_nil] at hatom

/-- A step operator before what it changes. -/
theorem readsBack_preStep {sign : Text} {op : UnaryOp}
    (hop : sign = ['+', '+'] ∧ op = .preIncrement ∨ sign = ['-', '-'] ∧ op = .preDecrement)
    (htarget : tree.isLvalue) (h : ReadsBack limit tree) (htree : IsOperand tree.spell) :
    ReadsBack limit (.unary op tree) := by
  have hspell : (Tree.unary op tree).spell = Text.within '(' ')' (sign ++ tree.spell) := by
    rcases hop with ⟨rfl, rfl⟩ | ⟨rfl, rfl⟩ <;> rfl
  have hnested : Text.Nested true sign := by
    rcases hop with ⟨rfl, -⟩ | ⟨rfl, -⟩ <;> exact Text.nested_of_forall (by decide)
  have htrim : Text.trimStart (sign ++ tree.spell) = sign ++ tree.spell :=
    Text.trimStart_of_head (by rcases hop with ⟨rfl, -⟩ | ⟨rfl, -⟩ <;> simp <;> decide)
  have hblank : ¬ Text.isBlank (sign ++ tree.spell) := by
    rcases hop with ⟨rfl, -⟩ | ⟨rfl, -⟩ <;> exact Text.not_isBlank_cons (by decide) _
  refine readsBack_parens hspell (hnested.append htree.nested.inside) hblank fun room hroom =>
    chain_of_operand ?_
  have hlength : sign.length = 2 := by rcases hop with ⟨rfl, -⟩ | ⟨rfl, -⟩ <;> rfl
  rw [List.length_append, hlength] at hroom
  have hstepped (source : Text) :
      stepped (expression limit room) source tree.spell = .ok (tree, []) :=
    stepped_of_atom (by simpa using htree.trimStart_append []) (h.atom_end (by omega) source)
      follows_nil fun _ _ => nofun
  rcases hop with ⟨rfl, rfl⟩ | ⟨rfl, rfl⟩ <;>
  · simp only [List.cons_append, List.nil_append] at htrim ⊢
    simp only [operand, htrim, Operator.atStart?, List.drop_succ_cons, List.drop_zero, hstepped,
      ok_bind, step, htarget, if_true]
    rfl

/-- A step operator after what it changes. -/
theorem readsBack_postStep {sign : Text} {op : UnaryOp}
    (hop : sign = ['+', '+'] ∧ op = .postIncrement ∨ sign = ['-', '-'] ∧ op = .postDecrement)
    (htarget : tree.isLvalue) (h : ReadsBack limit tree) (htree : IsOperand tree.spell) :
    ReadsBack limit (.unary op tree) := by
  have hspell : (Tree.unary op tree).spell = Text.within '(' ')' (tree.spell ++ sign) := by
    rcases hop with ⟨rfl, rfl⟩ | ⟨rfl, rfl⟩ <;> rfl
  have hnested : Text.Nested true sign := by
    rcases hop with ⟨rfl, -⟩ | ⟨rfl, -⟩ <;> exact Text.nested_of_forall (by decide)
  have hfollows : Follows sign := by
    rcases hop with ⟨rfl, -⟩ | ⟨rfl, -⟩ <;> simp [Follows, operatorChars]
  have htrim := htree.trimStart_append sign
  refine readsBack_parens hspell (htree.nested.inside.append hnested)
    (htree.not_isBlank_append sign) fun room hroom => chain_of_operand ?_
  rw [List.length_append] at hroom
  rw [htrim, operand_eq_stepped htree]
  have hlength : sign.length = 2 := by rcases hop with ⟨rfl, -⟩ | ⟨rfl, -⟩ <;> rfl
  exact stepped_step hop htrim (h room _ sign (by omega) hfollows) htarget

theorem readsBack_chain {op : BinaryOp} {left right : Tree} (hop : op ≠ .max ∧ op ≠ .min)
    (hl : ReadsBack limit left) (hleft : IsOperand left.spell) (hr : ReadsBack limit right)
    (hright : IsOperand right.spell) (htarget : op = .assign → left.isLvalue) :
    ReadsBack limit (.binary op left right) := by
  have hspell : (Tree.binary op left right).spell =
      Text.within '(' ')' (left.spell ++ (op.symbol ++ right.spell)) := by
    cases op with
    | max => exact absurd rfl hop.1
    | min => exact absurd rfl hop.2
    | _ => rfl
  have hnested : Text.Nested true (left.spell ++ (op.symbol ++ right.spell)) :=
    hleft.nested.inside.append (op.nested_symbol.append hright.nested.inside)
  apply readsBack_parens hspell hnested (hleft.not_isBlank_append _)
  intro room hroom
  simp only [List.length_append] at hroom
  obtain ⟨operator, hoperator, hbinary⟩ := operatorAtStart?_symbol hop hright
  refine chain_binary hop hleft hright
    (hl.operand_eq hleft (by omega) (follows_symbol hop _) ?_ _ _)
    (hr.operand_end hright (by omega) _ _) htarget
  intro found n hfound
  rw [hoperator] at hfound
  obtain ⟨rfl, -⟩ := Prod.mk.inj (Option.some.inj hfound)
  constructor <;>
  · rintro rfl
    cases hbinary

theorem readsBack_extremum {op : BinaryOp} {left right : Tree} (hop : op = .max ∨ op = .min)
    (hl : ReadsBack limit left) (hleft : IsOperand left.spell) (hr : ReadsBack limit right)
    (hright : IsOperand right.spell) : ReadsBack limit (.binary op left right) := by
  intro room source rest hroom hrest
  have hlength : (Tree.binary op left right).spell.length =
      left.spell.length + right.spell.length + 6 := by
    rcases hop with rfl | rfl <;>
      simp [Tree.spell, BinaryOp.spell, BinaryOp.symbol, Text.within] <;> omega
  rw [hlength] at hroom
  exact atom_extremum hop hleft hright (hl.expression_eq hleft (by omega) (by omega))
    (hr.expression_eq hright (by omega) (by omega)) rest

/-- An expression is read back from its spelling. -/
theorem readsBack_expression (limit : Nat) {tree : Tree} (h : tree.IsExpression) :
    ReadsBack limit tree := by
  induction h with
  | number hn => exact readsBack_number hn
  | name hx => exact readsBack_name hx
  | element hx hindex ih => exact readsBack_element hx ih hindex.isOperand
  | cell hx hrow hcolumn ihr ihc =>
    exact readsBack_cell hx ihr hrow.isOperand ihc hcolumn.isOperand
  | negate h ih => exact readsBack_prefixed (.inl ⟨rfl, rfl⟩) ih h.isOperand
  | not h ih => exact readsBack_prefixed (.inr ⟨rfl, rfl⟩) ih h.isOperand
  | step hop htarget h ih =>
    rcases hop with rfl | rfl | rfl | rfl
    · exact readsBack_preStep (.inl ⟨rfl, rfl⟩) htarget ih h.isOperand
    · exact readsBack_preStep (.inr ⟨rfl, rfl⟩) htarget ih h.isOperand
    · exact readsBack_postStep (.inl ⟨rfl, rfl⟩) htarget ih h.isOperand
    · exact readsBack_postStep (.inr ⟨rfl, rfl⟩) htarget ih h.isOperand
  | size hx => exact readsBack_size hx
  | rowSize hx hindex ih => exact readsBack_rowSize hx ih hindex.isOperand
  | sort hx => exact readsBack_sort hx
  | @binary op left right hop hl hr ihl ihr =>
    by_cases hcall : op = .max ∨ op = .min
    · exact readsBack_extremum hcall ihl hl.isOperand ihr hr.isOperand
    · exact readsBack_chain (not_or.mp hcall) ihl hl.isOperand ihr hr.isOperand
        fun h => absurd h hop
  | assign htarget ht hv iht ihv =>
    exact readsBack_chain (by decide) iht ht.isOperand ihv hv.isOperand fun _ => htarget

end RuleLang.Grammar

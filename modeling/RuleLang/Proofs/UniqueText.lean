import RuleLang.Proofs.Building
import RuleLang.Proofs.Spanning
import RuleLang.Proofs.Spelling
import RuleLang.Proofs.Unfolding

/-!
Unique readability of the written form. A tree is written either in parentheses, with a label and
its children after it, or as a word with its children in brackets after it. Labels and words end
at the first character that cannot stand in one, and every child ends before a blank or a closing
bracket; so the label or the word is read off the text first, and then one child after the other.

A label does not quite tell the kind of a tree, since two operations share one and an `if` has the
same label with and without `else`. The number of children and what they are settles the rest, for
the trees that a source can give.
-/
namespace RuleLang

/-- What stands before the first character of another kind is known from the whole text. -/
theorem Text.append_inj_of_stop {p : Char → Prop} {front front' back back' : Text}
    (hfront : ∀ c ∈ front, p c) (hfront' : ∀ c ∈ front', p c) (hback : ∀ c ∈ back.head?, ¬ p c)
    (hback' : ∀ c ∈ back'.head?, ¬ p c) (h : front ++ back = front' ++ back') :
    front = front' ∧ back = back' := by
  induction front generalizing front' with
  | nil =>
    cases front' with
    | nil => exact ⟨rfl, h⟩
    | cons c front' => exact absurd (hfront' c List.mem_cons_self) (hback c (by simp_all))
  | cons c front ih =>
    cases front' with
    | nil =>
      have hhead : back'.head? = some c := congrArg List.head? h.symm
      exact absurd (hfront c List.mem_cons_self) (hback' c hhead)
    | cons c' front' =>
      obtain ⟨rfl, hrest⟩ := List.cons.inj h
      obtain ⟨rfl, hback⟩ := ih (fun d hd => hfront d (List.mem_cons_of_mem _ hd))
        (fun d hd => hfront' d (List.mem_cons_of_mem _ hd)) hrest
      exact ⟨rfl, hback⟩

theorem Text.ofNat_ne_minus (k : Nat) (rest : Text) : Text.ofNat k ≠ '-' :: rest := by
  intro h
  have hmem : '-' ∈ Nat.toDigits 10 k := by
    rw [show Nat.toDigits 10 k = '-' :: rest from h]
    exact List.mem_cons_self
  exact absurd (Nat.isDigit_of_mem_toDigits (by decide) (by decide) hmem) (by decide)

theorem Text.ofNat_inj {j k : Nat} (h : Text.ofNat j = Text.ofNat k) : j = k := by
  have hvalue := congrArg Text.natValue h
  simpa [Text.natValue, Text.ofNat] using hvalue

theorem Text.ofInt_inj {m n : Int} (h : Text.ofInt m = Text.ofInt n) : m = n := by
  cases m with
  | ofNat j =>
    cases n with
    | ofNat k => rw [Text.ofNat_inj h]
    | negSucc k => exact absurd h (Text.ofNat_ne_minus j _)
  | negSucc j =>
    cases n with
    | ofNat k => exact absurd h.symm (Text.ofNat_ne_minus k _)
    | negSucc k => rw [Nat.succ.inj (Text.ofNat_inj (List.cons.inj h).2)]

theorem ofInt_ne_nil (n : Int) :
    Text.ofInt n ≠ [] ∧ ∀ c ∈ Text.ofInt n, inWord c ∨ c = '-' := by
  cases n with
  | ofNat k => exact ⟨Nat.toDigits_ne_nil, fun c hc => .inl (inWord_ofNat k c hc)⟩
  | negSucc k =>
    refine ⟨nofun, fun c hc => ?_⟩
    rcases List.mem_cons.mp hc with rfl | hc
    · exact .inr rfl
    · exact .inl (inWord_ofNat _ c hc)

/-- A number begins with a digit or with its sign. -/
theorem ne_ofInt_of_head {text : Text} (h : ∀ c ∈ text.head?, ¬ c.isDigit ∧ c ≠ '-') (n : Int) :
    text ≠ Text.ofInt n := by
  rintro rfl
  cases n with
  | ofNat k =>
    have hne : Text.ofNat k ≠ [] := Nat.toDigits_ne_nil
    exact (h _ (List.head?_eq_some_head hne)).1
      (Nat.isDigit_of_mem_toDigits (by decide) (by decide) (List.head_mem hne))
  | negSucc k => exact (h '-' rfl).2 rfl

theorem IsIdentifier.ne_ofInt {x : String} (hx : IsIdentifier x) (n : Int) :
    x.toList ≠ Text.ofInt n := by
  refine ne_ofInt_of_head (fun c hc => ⟨hx.no_number c hc, ?_⟩) n
  rintro rfl
  exact absurd (hx.inWord '-' (List.mem_of_mem_head? hc)) (by decide)

theorem IsIdentifier.ne_break {x : String} (hx : IsIdentifier x) : x.toList ≠ "break".toList := by
  intro h
  exact absurd (h ▸ hx.no_keyword) (by decide)

/-- Only the two operations that tell sizes share their label. -/
theorem UnaryOp.label_inj {op op' : UnaryOp} (h : op.label = op'.label) :
    op = op' ∨ op = .size ∧ op' = .rowSize ∨ op = .rowSize ∧ op' = .size := by
  cases op <;> cases op' <;> first | decide | exact absurd h (by decide)

theorem BinaryOp.symbol_inj {op op' : BinaryOp} (h : op.symbol = op'.symbol) : op = op' := by
  cases op <;> cases op' <;> first | rfl | exact absurd h (by decide)

theorem UnaryOp.label_ne_seq (op : UnaryOp) : op.label ≠ "seq".toList := by
  cases op <;> decide

theorem BinaryOp.symbol_ne (op : BinaryOp) :
    op.symbol ∉ ["if".toList, "while".toList, "seq".toList] := by
  cases op <;> decide

namespace Tree

/-- What a tree that is written in parentheses begins with. -/
def label? : Tree → Option Text
  | empty => some []
  | unary op _ => some op.label
  | binary op _ _ => some op.symbol
  | ifThen .. | ifElse .. => some "if".toList
  | whileLoop .. => some "while".toList
  | forLoop .. => some "for".toList
  | block _ => some "seq".toList
  | number _ | name _ | element .. | cell .. | breakLoop => none

/-- The word that a tree written without parentheses begins with. -/
def word : Tree → Text
  | number n => Text.ofInt n.toInt
  | name x | element x _ | cell x _ _ => x.toList
  | breakLoop => "break".toList
  | _ => []

/-- Each tree in brackets. -/
def indicesOnto (tail : Text) : List Tree → Text
  | [] => tail
  | index :: indices => '[' :: index.renderOnto (']' :: indicesOnto tail indices)

theorem renderOnto_labelled {tree : Tree} {label : Text} (h : tree.label? = some label)
    (tail : Text) :
    tree.renderOnto tail = '(' :: (label ++ renderAllOnto (')' :: tail) tree.children) := by
  cases tree <;> cases h <;> rfl

theorem renderOnto_worded {tree : Tree} (h : tree.label? = none) (tail : Text) :
    tree.renderOnto tail = tree.word ++ indicesOnto tail tree.children := by
  cases tree with
  | number | name | element | cell | breakLoop => rfl
  | _ => cases h

/-- A statement or an expression, wherever it stands. -/
def IsPart (tree : Tree) : Prop := ∃ loops, tree.IsStatement loops

theorem IsExpression.isPart {tree : Tree} (h : tree.IsExpression) : tree.IsPart :=
  ⟨0, .expression h⟩

theorem IsClause.isPart {tree : Tree} (h : tree.IsClause) : tree.IsPart := by
  rcases h with rfl | h
  · exact ⟨0, .empty⟩
  · exact h.isPart

theorem IsExpression.isPart_child {tree : Tree} (h : tree.IsExpression) :
    ∀ t ∈ tree.children, t.IsPart := by
  cases h with
  | number | name => exact nofun
  | element _ h | negate h | not h | step _ _ h => exact List.forall_mem_singleton.mpr h.isPart
  | size hx | sort hx => exact List.forall_mem_singleton.mpr (IsExpression.name hx).isPart
  | rowSize hx h => exact List.forall_mem_singleton.mpr (IsExpression.element hx h).isPart
  | cell _ hl hr | binary _ hl hr | assign _ hl hr => simp [children, hl.isPart, hr.isPart]

theorem IsPart.child {tree : Tree} (h : tree.IsPart) : ∀ t ∈ tree.children, t.IsPart := by
  obtain ⟨loops, h⟩ := h
  cases h with
  | empty | breakLoop => exact nofun
  | expression h => exact h.isPart_child
  | returning h => exact List.forall_mem_singleton.mpr h.isPart
  | ifThen hc hy => simp [children, hc.isPart, show IsPart _ from ⟨_, hy⟩]
  | ifElse hc hy hn =>
    simp [children, hc.isPart, show IsPart _ from ⟨_, hy⟩, show IsPart _ from ⟨_, hn⟩]
  | whileLoop hc hb => simp [children, hc.isPart, show IsPart _ from ⟨_, hb⟩]
  | forLoop hs hc hu hb =>
    simp [children, hs.isPart, hc.isPart, hu.isPart, show IsPart _ from ⟨_, hb⟩]
  | block _ h => exact fun t ht => ⟨_, h t ht⟩

theorem IsPart.isIdentifier {tree : Tree} {x : String} (h : tree.IsPart)
    (htree : tree = name x ∨ (∃ i, tree = element x i) ∨ ∃ r c, tree = cell x r c) :
    IsIdentifier x := by
  obtain ⟨loops, h⟩ := h
  rcases htree with rfl | ⟨i, rfl⟩ | ⟨r, c, rfl⟩
  all_goals
    cases h with
    | expression h => cases h; assumption

theorem IsPart.eq_name {operand : Tree} (h : (unary .size operand).IsPart) :
    ∃ x, operand = name x := by
  obtain ⟨loops, h⟩ := h
  cases h with
  | expression h =>
    cases h with
    | step hop => simp [UnaryOp.IsStep] at hop
    | size => exact ⟨_, rfl⟩

theorem IsPart.eq_element {operand : Tree} (h : (unary .rowSize operand).IsPart) :
    ∃ x index, operand = element x index := by
  obtain ⟨loops, h⟩ := h
  cases h with
  | expression h =>
    cases h with
    | step hop => simp [UnaryOp.IsStep] at hop
    | rowSize => exact ⟨_, _, rfl⟩

/-- The two operations that tell sizes are told apart by what they are applied to. -/
theorem IsPart.op_eq {op op' : UnaryOp} {operand : Tree} (h : (unary op operand).IsPart)
    (h' : (unary op' operand).IsPart) (hlabel : op.label = op'.label) : op = op' := by
  rcases UnaryOp.label_inj hlabel with rfl | ⟨rfl, rfl⟩ | ⟨rfl, rfl⟩
  · rfl
  · obtain ⟨x, rfl⟩ := h.eq_name
    simpa using h'.eq_element
  · obtain ⟨x, rfl⟩ := h'.eq_name
    simpa using h.eq_element

/-- A tree in parentheses is known from its label and its children. -/
theorem eq_of_label? {tree tree' : Tree} (h : tree.IsPart) (h' : tree'.IsPart)
    (hsome : tree.label? ≠ none) (hlabel : tree.label? = tree'.label?)
    (hchildren : tree.children = tree'.children) : tree = tree' := by
  cases tree with
  | number | name | element | cell | breakLoop => contradiction
  | empty =>
    cases tree' with
    | empty => rfl
    | unary | binary => cases hchildren
    | _ => cases hlabel
  | unary op operand =>
    cases tree' with
    | unary op' operand' =>
      obtain rfl : operand = operand' := List.head_eq_of_cons_eq hchildren
      rw [h.op_eq h' (Option.some.inj hlabel)]
    | block => exact absurd (Option.some.inj hlabel) (UnaryOp.label_ne_seq op)
    | number | name | element | cell | breakLoop => cases hlabel
    | _ => cases hchildren
  | binary op left right =>
    cases tree' with
    | binary op' left' right' =>
      cases hchildren
      rw [BinaryOp.symbol_inj (Option.some.inj hlabel)]
    | ifThen | whileLoop | block =>
      exact absurd (by simp [Option.some.inj hlabel]) (BinaryOp.symbol_ne op)
    | number | name | element | cell | breakLoop => cases hlabel
    | _ => cases hchildren
  | ifThen condition yes =>
    cases tree' with
    | ifThen => cases hchildren; rfl
    | binary op' => exact absurd (by simp [← Option.some.inj hlabel]) (BinaryOp.symbol_ne op')
    | unary | ifElse => cases hchildren
    | _ => cases hlabel
  | ifElse condition yes no =>
    cases tree' with
    | ifElse => cases hchildren; rfl
    | unary | binary | ifThen => cases hchildren
    | _ => cases hlabel
  | whileLoop condition body =>
    cases tree' with
    | whileLoop => cases hchildren; rfl
    | binary op' => exact absurd (by simp [← Option.some.inj hlabel]) (BinaryOp.symbol_ne op')
    | unary => cases hchildren
    | _ => cases hlabel
  | forLoop start condition update body =>
    cases tree' with
    | forLoop => cases hchildren; rfl
    | unary | binary => cases hchildren
    | _ => cases hlabel
  | block statements =>
    cases tree' with
    | block => rw [show statements = _ from hchildren]; rfl
    | unary op' => exact absurd (Option.some.inj hlabel).symm (UnaryOp.label_ne_seq op')
    | binary op' => exact absurd (by simp [← Option.some.inj hlabel]) (BinaryOp.symbol_ne op')
    | _ => cases hlabel

/-- A tree without parentheses is known from its word and its children. -/
theorem eq_of_word {tree tree' : Tree} (h : tree.IsPart) (h' : tree'.IsPart)
    (hnone : tree.label? = none) (hnone' : tree'.label? = none) (hword : tree.word = tree'.word)
    (hchildren : tree.children = tree'.children) : tree = tree' := by
  cases tree with
  | number n =>
    cases tree' with
    | number n' => rw [Int32.toInt_inj.mp (Text.ofInt_inj hword)]
    | name x => exact absurd hword.symm ((h'.isIdentifier (.inl rfl)).ne_ofInt _)
    | breakLoop => exact absurd hword.symm (ne_ofInt_of_head (by decide) _)
    | element | cell => cases hchildren
    | _ => cases hnone'
  | name x =>
    have hx := h.isIdentifier (.inl rfl)
    cases tree' with
    | number n => exact absurd hword (hx.ne_ofInt _)
    | name y => rw [String.toList_inj.mp hword]
    | breakLoop => exact absurd hword hx.ne_break
    | element | cell => cases hchildren
    | _ => cases hnone'
  | element x index =>
    cases tree' with
    | element y index' =>
      rw [String.toList_inj.mp hword, List.head_eq_of_cons_eq hchildren]
    | number | name | breakLoop | cell => cases hchildren
    | _ => cases hnone'
  | cell x row column =>
    cases tree' with
    | cell y row' column' =>
      obtain ⟨rfl, hcolumn⟩ := List.cons.inj hchildren
      rw [String.toList_inj.mp hword, List.head_eq_of_cons_eq hcolumn]
    | number | name | breakLoop | element => cases hchildren
    | _ => cases hnone'
  | breakLoop =>
    cases tree' with
    | number n => exact absurd hword (ne_ofInt_of_head (by decide) _)
    | name x => exact absurd hword.symm (h'.isIdentifier (.inl rfl)).ne_break
    | breakLoop => rfl
    | element | cell => cases hchildren
    | _ => cases hnone'
  | _ => cases hnone

/-- A text that can stand after a tree: nothing, or what ends an operand. -/
def Ends (tail : Text) : Prop := ∀ c ∈ tail.head?, c ∈ [' ', ')', ']']

theorem ends_cons {c : Char} (hc : c ∈ [' ', ')', ']']) (tail : Text) : Ends (c :: tail) := by
  intro d hd
  rwa [← Option.mem_some_iff.mp hd]

/-- Whatever is written after it, the tree is read off a text that begins with it. -/
def ReadsUniquely (tree : Tree) : Prop :=
  ∀ (tree' : Tree) (tail tail' : Text), tree'.IsPart → Ends tail → Ends tail' →
    tree.renderOnto tail = tree'.renderOnto tail' → tree = tree' ∧ tail = tail'

variable {trees trees' : List Tree} {tail tail' : Text}

theorem head?_renderAllOnto (trees : List Tree) (tail : Text) :
    ∀ c ∈ (renderAllOnto (')' :: tail) trees).head?, c = ' ' ∨ c = ')' := by
  cases trees <;> simp [renderAllOnto]

theorem head?_indicesOnto (trees : List Tree) (htail : Ends tail) :
    ∀ c ∈ (indicesOnto tail trees).head?, ¬ (inWord c ∨ c = '-') := by
  have hstops : ∀ c ∈ ['[', ' ', ')', ']'], ¬ (inWord c ∨ c = '-') := by decide
  intro c hc
  cases trees with
  | nil => exact hstops c (List.mem_cons_of_mem _ (htail c hc))
  | cons tree trees =>
    cases hc
    exact hstops '[' (by decide)

theorem renderAllOnto_inj (h : ∀ t ∈ trees, t.ReadsUniquely) (h' : ∀ t ∈ trees', t.IsPart)
    (heq : renderAllOnto (')' :: tail) trees = renderAllOnto (')' :: tail') trees') :
    trees = trees' ∧ tail = tail' := by
  induction trees generalizing trees' with
  | nil =>
    cases trees' with
    | nil => exact ⟨rfl, (List.cons.inj heq).2⟩
    | cons => cases heq
  | cons tree trees ih =>
    cases trees' with
    | nil => cases heq
    | cons tree' trees' =>
      obtain ⟨htree, htrees⟩ := List.forall_mem_cons.mp h
      obtain ⟨htree', htrees'⟩ := List.forall_mem_cons.mp h'
      have hends (trees : List Tree) (tail : Text) : Ends (renderAllOnto (')' :: tail) trees) := by
        intro c hc
        rcases head?_renderAllOnto trees tail c hc with rfl | rfl <;> decide
      obtain ⟨rfl, hrest⟩ := htree _ _ _ htree' (hends _ _) (hends _ _) (List.cons.inj heq).2
      obtain ⟨rfl, rfl⟩ := ih htrees htrees' hrest
      exact ⟨rfl, rfl⟩

theorem indicesOnto_inj (h : ∀ t ∈ trees, t.ReadsUniquely) (h' : ∀ t ∈ trees', t.IsPart)
    (htail : Ends tail) (htail' : Ends tail')
    (heq : indicesOnto tail trees = indicesOnto tail' trees') : trees = trees' ∧ tail = tail' := by
  have hopen {tail : Text} (htail : Ends tail) (rest : Text) : tail ≠ '[' :: rest := by
    rintro rfl
    exact absurd (htail '[' rfl) (by decide)
  induction trees generalizing trees' with
  | nil =>
    cases trees' with
    | nil => exact ⟨rfl, heq⟩
    | cons => exact absurd heq (hopen htail _)
  | cons tree trees ih =>
    cases trees' with
    | nil => exact absurd heq.symm (hopen htail' _)
    | cons tree' trees' =>
      obtain ⟨htree, htrees⟩ := List.forall_mem_cons.mp h
      obtain ⟨htree', htrees'⟩ := List.forall_mem_cons.mp h'
      obtain ⟨rfl, hrest⟩ := htree _ _ _ htree' (ends_cons (by decide) _) (ends_cons (by decide) _)
        (List.cons.inj heq).2
      obtain ⟨rfl, rfl⟩ := ih htrees htrees' (List.cons.inj hrest).2
      exact ⟨rfl, rfl⟩

theorem label?_no_stop {tree : Tree} {label : Text} (h : tree.label? = some label) :
    ∀ c ∈ label, ¬ (c = ' ' ∨ c = ')') := by
  cases tree with
  | unary op => cases h; cases op <;> decide
  | binary op => cases h; cases op <;> decide
  | number | name | element | cell | breakLoop => cases h
  | _ => cases h; decide

theorem IsPart.word_ne_nil {tree : Tree} (h : tree.IsPart) (hnone : tree.label? = none) :
    tree.word ≠ [] ∧ ∀ c ∈ tree.word, inWord c ∨ c = '-' := by
  have hnames {x : String} (hx : IsIdentifier x) :
      x.toList ≠ [] ∧ ∀ c ∈ x.toList, inWord c ∨ c = '-' :=
    ⟨hx.nonempty, fun c hc => .inl (hx.inWord c hc)⟩
  cases tree with
  | number n => exact ofInt_ne_nil _
  | name x => exact hnames (h.isIdentifier (.inl rfl))
  | element x index => exact hnames (h.isIdentifier (.inr (.inl ⟨_, rfl⟩)))
  | cell x row column => exact hnames (h.isIdentifier (.inr (.inr ⟨_, _, rfl⟩)))
  | breakLoop => exact ⟨nofun, by decide⟩
  | _ => cases hnone

theorem readsUniquely {tree : Tree} (h : tree.IsPart) : tree.ReadsUniquely := by
  induction tree using childInduction with
  | step tree ih =>
  have hchildren : ∀ t ∈ tree.children, t.ReadsUniquely := fun t ht => ih t ht (h.child t ht)
  have hparen {t u : Tree} {label : Text} {tail tail' : Text} (hu : u.IsPart)
      (ht : t.label? = some label) (hnone : u.label? = none) :
      t.renderOnto tail ≠ u.renderOnto tail' := by
    obtain ⟨hne, hword⟩ := hu.word_ne_nil hnone
    obtain ⟨c, word, hcons⟩ := List.exists_cons_of_ne_nil hne
    rw [renderOnto_labelled ht, renderOnto_worded hnone, hcons]
    intro heq
    have hc := hword c (by simp [hcons])
    rw [← (List.cons.inj heq).1] at hc
    exact absurd hc (by decide)
  intro tree' tail tail' h' htail htail' heq
  cases hlabel : tree.label? with
  | none =>
    cases hlabel' : tree'.label? with
    | none =>
      rw [renderOnto_worded hlabel, renderOnto_worded hlabel'] at heq
      obtain ⟨hword, hrest⟩ := Text.append_inj_of_stop (h.word_ne_nil hlabel).2
        (h'.word_ne_nil hlabel').2 (head?_indicesOnto _ htail) (head?_indicesOnto _ htail') heq
      obtain ⟨htrees, rfl⟩ := indicesOnto_inj hchildren h'.child htail htail' hrest
      exact ⟨eq_of_word h h' hlabel hlabel' hword htrees, rfl⟩
    | some label' => exact absurd heq.symm (hparen h hlabel' hlabel)
  | some label =>
    cases hlabel' : tree'.label? with
    | none => exact absurd heq (hparen h' hlabel hlabel')
    | some label' =>
      rw [renderOnto_labelled hlabel, renderOnto_labelled hlabel'] at heq
      obtain ⟨rfl, hrest⟩ := Text.append_inj_of_stop (label?_no_stop hlabel)
        (label?_no_stop hlabel') (fun c hc => not_not.mpr (head?_renderAllOnto _ _ c hc))
        (fun c hc => not_not.mpr (head?_renderAllOnto _ _ c hc)) (List.cons.inj heq).2
      obtain ⟨htrees, rfl⟩ := renderAllOnto_inj hchildren h'.child hrest
      exact ⟨eq_of_label? h h' (by simp [hlabel]) (hlabel.trans hlabel'.symm) htrees, rfl⟩

/-- The written form of a rule determines the rule. -/
theorem eq_of_render {tree tree' : Tree} (h : tree.IsRule) (h' : tree'.IsRule)
    (heq : tree.render = tree'.render) : tree = tree' :=
  (readsUniquely ⟨0, h.2⟩ tree' [] [] ⟨0, h'.2⟩ nofun nofun heq).1

end Tree

/-- The text of a parsed program identifies it, with the numbers of its nodes. -/
theorem Program.eq_of_text {limit limit' : Nat} {source source' : String}
    {program program' : Program} (h : parse limit source = .ok program)
    (h' : parse limit' source' = .ok program') (htext : program.text = program'.text) :
    program = program' := by
  obtain ⟨tree, htree, rfl⟩ := parse_eq_ok h
  obtain ⟨tree', htree', rfl⟩ := parse_eq_ok h'
  rw [text_eq, text_eq, tree_ofTree, tree_ofTree] at htext
  rw [Tree.eq_of_render htree htree' htext]

/-- Neither layout nor a sign without effect nor parentheses show in the text. -/
theorem Program.eq_of_text_ifElse :
    ∃ program program', parse 4 "if(a)b;else c[1]" = .ok program ∧
      parse 5 "if (+a) b;\nelse c[(1)]" = .ok program' ∧ program.text = program'.text ∧
      program = program' := by
  have hparse : parse 4 "if(a)b;else c[1]" =
      .ok ⟨#[.name "a", .name "b", .ifElse 0 1 4, .number 1, .element "c" 3, .block [2]], 5⟩ := by
    rw [parse_eq]
    cbv
  have hparse' : parse 5 "if (+a) b;\nelse c[(1)]" =
      .ok ⟨#[.name "a", .name "b", .ifElse 0 1 4, .number 1, .element "c" 3, .block [2]], 5⟩ := by
    rw [parse_eq]
    cbv
  exact ⟨_, _, hparse, hparse', rfl, eq_of_text hparse hparse' rfl⟩

end RuleLang

import RuleLang.Grammar.Statement
import RuleLang.Proofs.Messages
import RuleLang.Proofs.Text
import RuleLang.Proofs.WellFormed

/-!
What reading a source gives: a well-formed rule, or a fault of syntax that fills its template. One
lemma for each reader says what it makes of the readers that are passed to it; nesting comes in only
at the end, where the recursion on the room for it is.
-/
namespace RuleLang

/-- A fault that a source is to blame for, and not the data or the run. -/
def Fault.IsSyntactic (fault : Fault) : Prop := fault.report.category = .syntactic

namespace Grammar

variable {α β : Type}

/-- The reading succeeds with something good, or fails with a fault of syntax that fills its
template. -/
def Reads (reading : Except Fault α) (good : α → Prop) : Prop :=
  match reading with
  | .ok a => good a
  | .error fault => fault.IsSyntactic ∧ fault.Fills

theorem reads_return {a : α} {good : α → Prop} (h : good a) :
    Reads (pure a : Except Fault α) good := h

theorem reads_throw {template : Template} {args : List Text} {good : α → Prop}
    (hcategory : template.category = .syntactic) (hargs : args.length = template.placeholders) :
    Reads (throw (.syntactic ⟨template, args⟩) : Except Fault α) good :=
  ⟨rfl, hcategory.symm, hargs⟩

theorem Reads.mono {reading : Except Fault α} {good good' : α → Prop} (h : Reads reading good)
    (himp : ∀ a, good a → good' a) : Reads reading good' := by
  cases reading with
  | ok a => exact himp a h
  | error fault => exact h

theorem Reads.bind {reading : Except Fault α} {next : α → Except Fault β} {good : α → Prop}
    {good' : β → Prop} (h : Reads reading good) (hnext : ∀ a, good a → Reads (next a) good') :
    Reads (reading >>= next) good' := by
  cases reading with
  | ok a => exact hnext a h
  | error fault => exact h

theorem Reads.map {reading : Except Fault α} {f : α → β} {good : α → Prop} {good' : β → Prop}
    (h : Reads reading good) (himp : ∀ a, good a → good' (f a)) : Reads (f <$> reading) good' := by
  cases reading with
  | ok a => exact himp a h
  | error fault => exact h

theorem reads_enclosed (opening closing : Char) (text : Text) :
    Reads (enclosed opening closing text) fun _ => True := by
  unfold enclosed
  split
  · trivial
  · exact reads_throw rfl rfl

/-- A piece is blank only where blank pieces are kept. -/
theorem nonblank_put {division : Division} {piece : Text} {others : List Text}
    (hothers : division.keepsBlank = false → ∀ p ∈ others, ¬ p.isBlank) :
    division.keepsBlank = false → ∀ p ∈ division.put piece others, ¬ p.isBlank := by
  intro hkeep
  unfold Division.put
  split
  case isTrue h =>
    have hpiece : ¬ piece.isBlank := by simpa [hkeep] using h
    rw [List.forall_mem_cons, Text.isBlank_trim, Text.isBlank_reverse]
    exact ⟨hpiece, hothers hkeep⟩
  case isFalse => exact hothers hkeep

theorem reads_piecesFrom (division : Division) (whole : Text) (pairs : List (Char × Char))
    (piece text : Text) :
    Reads (division.piecesFrom whole pairs piece text) fun pieces =>
      division.keepsBlank = false → ∀ p ∈ pieces, ¬ p.isBlank := by
  induction text generalizing pairs piece with
  | nil =>
    unfold Division.piecesFrom
    split
    · exact reads_throw rfl rfl
    · exact nonblank_put fun _ => nofun
  | cons c text ih =>
    unfold Division.piecesFrom
    split
    · exact ih _ _
    · split
      · split
        · exact reads_throw rfl rfl
        · split
          · exact reads_throw rfl rfl
          · split
            · exact (ih _ _).map fun _ => nonblank_put
            · exact ih _ _
      · split
        · exact (ih _ _).map fun _ => nonblank_put
        · exact ih _ _

theorem reads_pieces (division : Division) (text : Text) :
    Reads (division.pieces text) fun pieces =>
      division.keepsBlank = false → ∀ p ∈ pieces, ¬ p.isBlank := by
  unfold Division.pieces
  split
  · exact fun _ => nofun
  · exact reads_piecesFrom division text [] [] text

theorem reads_word (text : Text) :
    Reads (Word.atStart? text) fun word =>
      (∀ n, word = some (.number n) → IsLiteral n) ∧
      ∀ letters, word = some (.name letters) → letters ≠ [] ∧ (∀ c ∈ letters, inWord c) ∧
        ∀ c ∈ letters.head?, ¬ c.isDigit := by
  have hall : ∀ c ∈ text.firstWord, inWord c := fun c hc => List.mem_takeWhile_imp hc
  unfold Word.atStart?
  generalize text.firstWord = letters at *
  cases letters with
  | nil => exact ⟨nofun, nofun⟩
  | cons c letters =>
    rw [Word.ofLetters?]
    split
    case isTrue hc =>
      refine ⟨nofun, ?_⟩
      rintro _ ⟨⟩
      exact ⟨nofun, hall, by simpa using hc⟩
    case isFalse =>
      split
      case isTrue h =>
        refine ⟨?_, nofun⟩
        rintro _ ⟨⟩
        rw [Bool.and_eq_true] at h
        have hle : Text.natValue (c :: letters) ≤ 2147483647 := of_decide_eq_true h.2
        left
        rw [Int32.le_iff_toInt_le, Int32.toInt_ofNat_of_lt (by omega)]
        exact Int.natCast_nonneg _
      case isFalse => exact reads_throw rfl rfl

/-- A chain that has been read so far: its first operand and the links after it. -/
def GoodLinks (links : List (BinaryOp × Tree)) : Prop :=
  ∀ link ∈ links, link.1 ≠ .assign ∧ link.2.IsExpression

theorem goodLinks_nil : GoodLinks [] := fun _ => nofun

theorem good_joinLevel (level : Nat) {first : Tree} {links : List (BinaryOp × Tree)}
    (hfirst : first.IsExpression) (hlinks : GoodLinks links) :
    (joinLevel level first links).1.IsExpression ∧ GoodLinks (joinLevel level first links).2 := by
  induction links generalizing first with
  | nil => exact ⟨hfirst, hlinks⟩
  | cons link links ih =>
    obtain ⟨⟨hop, hnext⟩, hrest⟩ := List.forall_mem_cons.mp hlinks
    unfold joinLevel
    split
    · exact ih (.binary hop hfirst hnext) hrest
    · have h := ih hnext hrest
      exact ⟨hfirst, List.forall_mem_cons.mpr ⟨⟨hop, h.1⟩, h.2⟩⟩

theorem isExpression_join {first : Tree} {links : List (BinaryOp × Tree)}
    (hfirst : first.IsExpression) (hlinks : GoodLinks links) :
    (join first links).IsExpression := by
  have h3 := good_joinLevel 3 hfirst hlinks
  have h2 := good_joinLevel 2 h3.1 h3.2
  have h1 := good_joinLevel 1 h2.1 h2.2
  exact (good_joinLevel 0 h1.1 h1.2).1

/-- The reader gives an expression, whatever the text. -/
def ReadsExpressions (reader : Text → Read) : Prop :=
  ∀ text, Reads (reader text) fun found => found.1.IsExpression

/-- The binary operation that a text begins with, and how many characters spell it. -/
def linkAt? (text : Text) : Option (BinaryOp × Nat) :=
  (Operator.atStart? text).bind fun (op, n) => op.binary?.map (·, n)

theorem operator_of_linkAt? {text : Text} {op : BinaryOp} {k : Nat}
    (h : linkAt? text = some (op, k)) :
    ∃ operator, Operator.atStart? text = some (operator, k) := by
  obtain ⟨⟨operator, length⟩, hoperator, hbinary⟩ := Option.bind_eq_some_iff.mp h
  obtain ⟨_, _, hpair⟩ := Option.map_eq_some_iff.mp hbinary
  obtain rfl := (Prod.mk.inj hpair).2
  exact ⟨operator, hoperator⟩

section Links

variable {operand : Text → Read} {bound n : Nat} {start text : Text} {first : Tree}
  {read : List (BinaryOp × Tree)}

theorem links_assign (h : linkAt? text.trimStart = some (.assign, n)) :
    links operand (bound + 1) start first read text =
      if (join first read.reverse).isLvalue then do
        let (value, rest) ← operand (Text.trimStart (text.trimStart.drop n))
        let (value, rest) ←
          links operand bound (Text.trimStart (text.trimStart.drop n)) value [] rest
        return (.binary .assign (join first read.reverse) value, rest)
      else throw (.syntactic ⟨.notAssignable, [start.upTo text.trimStart]⟩) :=
  links.eq_1 operand start first read text bound n h

theorem links_operator {op : BinaryOp} (hop : op ≠ .assign)
    (h : linkAt? text.trimStart = some (op, n)) :
    links operand (bound + 1) start first read text = (do
      let (next, rest) ← operand (text.trimStart.drop n)
      links operand bound start first ((op, next) :: read) rest) :=
  links.eq_2 operand start first read text bound op n hop h

theorem links_end (h : bound = 0 ∨ linkAt? text.trimStart = none) :
    links operand bound start first read text =
      pure (join first read.reverse, text.trimStart) := by
  refine links.eq_3 operand start first read text bound ?_ ?_
  · intro bound' n hbound hlink
    rcases h with rfl | hnone
    · exact absurd hbound (Nat.succ_ne_zero bound').symm
    · exact Option.some_ne_none _ (hlink.symm.trans hnone)
  · intro bound' op n hbound hlink
    rcases h with rfl | hnone
    · exact absurd hbound (Nat.succ_ne_zero bound').symm
    · exact Option.some_ne_none _ (hlink.symm.trans hnone)

end Links

theorem reads_links {operand : Text → Read} (hoperand : ReadsExpressions operand) (bound : Nat)
    (start : Text) {first : Tree} {read : List (BinaryOp × Tree)} (text : Text)
    (hfirst : first.IsExpression) (hread : GoodLinks read) :
    Reads (links operand bound start first read text) fun found => found.1.IsExpression := by
  induction bound generalizing start first read text with
  | zero =>
    rw [links_end (.inl rfl)]
    exact isExpression_join hfirst fun link hlink => hread link (List.mem_reverse.mp hlink)
  | succ bound ih =>
    have hjoin : (join first read.reverse).IsExpression :=
      isExpression_join hfirst fun link hlink => hread link (List.mem_reverse.mp hlink)
    cases hlink : linkAt? text.trimStart with
    | none =>
      rw [links_end (.inr hlink)]
      exact hjoin
    | some link =>
      obtain ⟨op, n⟩ := link
      by_cases hop : op = .assign
      · subst hop
        rw [links_assign hlink]
        split
        case isTrue htarget =>
          apply (hoperand _).bind
          intro found hfound
          apply (ih _ _ hfound goodLinks_nil).bind
          intro value hvalue
          exact .assign htarget hjoin hvalue
        case isFalse => exact reads_throw rfl rfl
      · rw [links_operator hop hlink]
        apply (hoperand _).bind
        intro found hfound
        exact ih _ _ hfirst (List.forall_mem_cons.mpr ⟨⟨hop, hfound⟩, hread⟩)

theorem reads_chain {operand : Text → Read} (hoperand : ReadsExpressions operand) (text : Text) :
    Reads (chain operand text) fun found => found.1.IsExpression := by
  unfold chain
  apply (hoperand _).bind
  intro found hfound
  exact reads_links hoperand _ _ _ hfound goodLinks_nil

/-- The reader of what stands in brackets gives an expression, whatever the text. -/
def ReadsInner (inner : Inner) : Prop := ∀ text after, Reads (inner text after) Tree.IsExpression

theorem reads_index? {inner : Inner} (hinner : ReadsInner inner) (name text : Text) :
    Reads (index? inner name text) fun found => ∀ index ∈ found, index.1.IsExpression := by
  unfold index?
  split
  · apply (reads_enclosed _ _ _).bind
    intro parts _
    apply (hinner _ _).bind
    intro index hindex
    exact reads_return (by simpa using hindex)
  · exact reads_return nofun

theorem reads_methodOp (method : Text) {target : Tree} (source : Text)
    (htarget : target.IsExpression) :
    Reads (methodOp method target source) fun op => (Tree.unary op target).IsExpression := by
  unfold methodOp
  split
  · split
    · cases htarget with | name hx => exact .size hx
    · cases htarget with | element hx hindex => exact .rowSize hx hindex
    · exact reads_throw rfl rfl
  · split
    · split
      · cases htarget with | name hx => exact .sort hx
      · exact reads_throw rfl rfl
    · exact reads_throw rfl rfl

theorem reads_call (start : Text) {target : Tree} (text : Text) (htarget : target.IsExpression) :
    Reads (call start target text) fun found => found.1.IsExpression := by
  unfold call
  split
  · dsimp only
    apply (reads_word _).bind
    intro word _
    split
    · split
      · apply (reads_enclosed _ _ _).bind
        intro parts _
        split
        · apply (reads_methodOp _ _ htarget).bind
          intro op hop
          exact reads_return hop
        · exact reads_throw rfl rfl
      · exact reads_throw rfl rfl
    · exact reads_throw rfl rfl
  · exact htarget

theorem reads_reference {inner : Inner} (hinner : ReadsInner inner) {name : Text}
    (start text : Text) (hname : IsIdentifier (.ofList name)) :
    Reads (reference inner name start text) fun found => found.1.IsExpression := by
  unfold reference
  apply (reads_index? hinner _ _).bind
  intro row hrow
  split
  · exact reads_call _ _ (.name hname)
  · apply (reads_index? hinner _ _).bind
    intro column hcolumn
    split
    · exact reads_call _ _ (.element hname (hrow _ rfl))
    · exact reads_call _ _ (.cell hname (hrow _ rfl) (hcolumn _ rfl))

theorem reads_extremum {inner : Inner} (hinner : ReadsInner inner) {op : BinaryOp}
    (hop : op ≠ .assign) (word text : Text) :
    Reads (extremum inner op word text) fun found => found.1.IsExpression := by
  unfold extremum
  apply (reads_enclosed _ _ _).bind
  intro parts _
  apply (reads_pieces _ _).bind
  intro pieces _
  split
  · apply (hinner _ _).bind
    intro left hleft
    apply (hinner _ _).bind
    intro right hright
    exact reads_return (.binary hop hleft hright)
  · exact reads_throw rfl rfl

theorem extremum?_ne_assign {word : Text} {op : BinaryOp} (h : extremum? word = some op) :
    op ≠ .assign := by
  unfold extremum? at h
  grind

theorem reads_atom {inner : Inner} (hinner : ReadsInner inner) (source text : Text) :
    Reads (atom inner source text) fun found => found.1.IsExpression := by
  unfold atom
  dsimp only
  split
  · exact reads_throw rfl rfl
  · apply (reads_enclosed _ _ _).bind
    intro parts _
    exact (hinner _ _).bind fun tree htree => reads_return htree
  · exact reads_throw rfl rfl
  · apply (reads_word _).bind
    intro word hword
    split
    · exact reads_throw rfl rfl
    · exact reads_return (.number (hword.1 _ rfl))
    · split
      · exact reads_throw rfl rfl
      · case _ letters _ hkeyword =>
        obtain ⟨hne, hall, hhead⟩ := hword.2 _ rfl
        have hname : IsIdentifier (.ofList letters) := by
          constructor <;> rwa [String.toList_ofList]
        split
        · case _ op _ hop _ => exact reads_extremum hinner (extremum?_ne_assign hop) _ _
        · exact reads_reference hinner _ _ hname

theorem reads_step {op : UnaryOp} (hop : op.IsStep) {target : Tree} (start rest : Text)
    (htarget : target.IsExpression) : Reads (step op target start rest) Tree.IsExpression := by
  unfold step
  split
  case isTrue hlvalue => exact .step hop hlvalue htarget
  case isFalse => exact reads_throw rfl rfl

theorem reads_stepped {inner : Inner} (hinner : ReadsInner inner) (source text : Text) :
    Reads (stepped inner source text) fun found => found.1.IsExpression := by
  unfold stepped
  apply (reads_atom hinner _ _).bind
  intro target htarget
  dsimp only
  split
  · exact (reads_step (by simp [UnaryOp.IsStep]) _ _ htarget).bind fun _ => reads_return
  · exact (reads_step (by simp [UnaryOp.IsStep]) _ _ htarget).bind fun _ => reads_return
  · exact htarget

theorem reads_operand {inner : Inner} {below : Text → Read} (hinner : ReadsInner inner)
    (hbelow : ReadsExpressions below) (source : Text) :
    ReadsExpressions (operand inner below source) := by
  intro text
  unfold operand
  dsimp only
  split
  · apply (reads_stepped hinner _ _).bind
    intro target htarget
    exact (reads_step (by simp [UnaryOp.IsStep]) _ _ htarget).bind fun _ => reads_return
  · apply (reads_stepped hinner _ _).bind
    intro target htarget
    exact (reads_step (by simp [UnaryOp.IsStep]) _ _ htarget).bind fun _ => reads_return
  · split
    · exact reads_return (.number (.inr rfl))
    · exact (hbelow _).bind fun target htarget => reads_return (.negate htarget)
  · exact (hbelow _).bind fun target htarget => reads_return (.not htarget)
  · exact hbelow _
  · exact reads_stepped hinner _ _

/-- Both readers give expressions, by induction on the room for nesting. -/
theorem reads_expression_prefixed (limit room : Nat) :
    ReadsInner (expression limit room) ∧
      ∀ source, ReadsExpressions (prefixed limit room source) := by
  induction room with
  | zero =>
    refine ⟨fun text after => ?_, fun source text => ?_⟩
    · unfold expression
      split <;> exact reads_throw rfl rfl
    · exact reads_throw rfl rfl
  | succ room ih =>
    refine ⟨fun text after => ?_, fun source text => ?_⟩
    · unfold expression
      split
      · exact reads_throw rfl rfl
      · apply (reads_chain (reads_operand ih.1 (ih.2 text) text) _).bind
        intro found hfound
        dsimp only
        split
        · exact reads_return hfound
        · exact reads_throw rfl rfl
    · exact reads_operand ih.1 (ih.2 source) source text

theorem reads_expression (limit room : Nat) : ReadsInner (expression limit room) :=
  (reads_expression_prefixed limit room).1

/-- The reader gives statements inside the loops it is told, and an empty one from blanks only. -/
def ReadsStatements (statement : Within) : Prop :=
  ∀ loops text, Reads (statement loops text) fun tree =>
    tree.IsStatement loops ∧ (¬ text.isBlank → tree ≠ .empty)

/-- A piece that begins with no `else` is a statement of its own. -/
theorem arrange_of_not_else {statement : Within} {loops : Nat} {done : List Tree} {piece : Text}
    {pieces : List Text} (h : ¬ ∃ rest, Keyword.atStart? piece = some (.elseWord, rest)) :
    arrange statement loops done (piece :: pieces) =
      (do
        let tree ← statement loops piece
        arrange statement loops (tree :: done) pieces) := by
  rw [arrange.eq_def]
  dsimp only
  split
  · exact absurd ⟨_, ‹_›⟩ h
  · exact absurd ⟨_, ‹_›⟩ h
  · rfl

theorem reads_arrange {statement : Within} (hstatement : ReadsStatements statement) (loops : Nat)
    {done : List Tree} {pieces : List Text} (hpieces : ∀ p ∈ pieces, ¬ p.isBlank)
    (hdone : ∀ s ∈ done, s ≠ .empty ∧ s.IsStatement loops) :
    Reads (arrange statement loops done pieces) fun statements =>
      ∀ s ∈ statements, s ≠ .empty ∧ s.IsStatement loops := by
  induction pieces generalizing done with
  | nil => exact reads_return fun s hs => hdone s (List.mem_reverse.mp hs)
  | cons piece pieces ih =>
    obtain ⟨hpiece, hpieces⟩ := List.forall_mem_cons.mp hpieces
    unfold arrange
    split
    · case _ rest last earlier _ =>
      obtain ⟨hlast, hearlier⟩ := List.forall_mem_cons.mp hdone
      split
      · case _ crossed hopen =>
        apply (hstatement _ _).bind
        intro branch hbranch
        refine ih hpieces (List.forall_mem_cons.mpr ⟨?_, hearlier⟩)
        obtain ⟨extended, hextended⟩ : ∃ t, last.withElse? branch = some t :=
          Option.isSome_iff_exists.mp (by rw [Tree.isSome_withElse?, hopen]; rfl)
        have h := hlast.2.withElse? hopen hbranch.1 hextended
        rw [hextended]
        exact h.symm
      · exact reads_throw rfl rfl
    · exact reads_throw rfl rfl
    · apply (hstatement _ _).bind
      intro tree htree
      exact ih hpieces (List.forall_mem_cons.mpr ⟨⟨htree.2 hpiece, htree.1⟩, hdone⟩)

theorem reads_block {statement : Within} (hstatement : ReadsStatements statement) (loops : Nat)
    (text : Text) :
    Reads (block statement loops text) fun tree =>
      (∃ statements, tree = .block statements) ∧ tree.IsStatement loops := by
  unfold block
  apply (reads_pieces _ _).bind
  intro pieces hpieces
  have hnil : ∀ s ∈ ([] : List Tree), s ≠ .empty ∧ s.IsStatement loops := fun _ => nofun
  apply (reads_arrange hstatement loops (hpieces rfl) hnil).bind
  intro statements h
  exact reads_return ⟨⟨statements, rfl⟩, .block (fun s hs => (h s hs).1) fun s hs => (h s hs).2⟩

theorem reads_header (keyword : Keyword) (text : Text) :
    Reads (header keyword text) fun _ => True := by
  unfold header
  split
  · exact reads_enclosed _ _ _
  · exact reads_throw rfl rfl

theorem reads_clause {inner : Inner} (hinner : ReadsInner inner) (absent : Tree) (text : Text) :
    Reads (clause inner absent text) fun tree => tree = absent ∨ tree.IsExpression := by
  unfold clause
  split
  · exact .inl rfl
  · exact (hinner _ _).mono fun _ => .inr

theorem isExpression_one : Tree.IsExpression (.number 1) := .number (.inl (by decide))

theorem reads_forLoop {inner : Inner} {statement : Within} (hinner : ReadsInner inner)
    (hstatement : ReadsStatements statement) (loops : Nat) (text : Text) :
    Reads (forLoop inner statement loops text) fun tree =>
      tree.IsStatement loops ∧ tree ≠ .empty := by
  unfold forLoop
  apply (reads_header _ _).bind
  intro parts _
  apply (reads_pieces _ _).bind
  intro pieces _
  split
  · apply (reads_clause hinner _ _).bind
    intro start hstart
    apply (reads_clause hinner _ _).bind
    intro condition hcondition
    apply (reads_clause hinner _ _).bind
    intro update hupdate
    apply (hstatement _ _).bind
    intro body hbody
    have hcondition : condition.IsExpression :=
      hcondition.elim (fun h => h ▸ isExpression_one) id
    exact reads_return ⟨.forLoop hstart hcondition hupdate hbody.1, nofun⟩
  · exact reads_throw rfl rfl

theorem reads_statement (limit room : Nat) : ReadsStatements (statement limit room) := by
  induction room with
  | zero => exact fun loops text => reads_throw rfl rfl
  | succ room ih =>
    intro loops text
    have hinner := reads_expression limit room
    have hblank (htrim : text.trim = []) : text.isBlank := Text.trim_eq_nil_iff.mp htrim
    unfold statement
    dsimp only
    split
    · case _ htrim => exact reads_return ⟨.empty, fun h => absurd (hblank htrim) h⟩
    · apply (reads_enclosed _ _ _).bind
      intro parts _
      split
      · refine (reads_block ih loops _).mono fun tree htree => ⟨htree.2, fun _ => ?_⟩
        obtain ⟨⟨statements, rfl⟩, -⟩ := htree
        exact nofun
      · exact reads_throw rfl rfl
    · split
      · apply (reads_header _ _).bind
        intro parts _
        apply (hinner _ _).bind
        intro condition hcondition
        apply (ih _ _).bind
        intro body hbody
        exact reads_return ⟨.ifThen hcondition hbody.1, nofun⟩
      · apply (reads_header _ _).bind
        intro parts _
        apply (hinner _ _).bind
        intro condition hcondition
        apply (ih _ _).bind
        intro body hbody
        exact reads_return ⟨.whileLoop hcondition hbody.1, nofun⟩
      · exact (reads_forLoop hinner ih loops _).mono fun tree h => ⟨h.1, fun _ => h.2⟩
      · unfold breakLoop
        split
        · exact reads_throw rfl rfl
        · split
          · exact reads_throw rfl rfl
          · exact reads_return ⟨.breakLoop (by omega), nofun⟩
      · exact (hinner _ _).bind fun value hvalue => reads_return ⟨.returning hvalue, nofun⟩
      · exact reads_throw rfl rfl
      · refine (hinner _ _).mono fun tree htree => ⟨.expression htree, fun _ hempty => ?_⟩
        subst hempty
        cases htree

/-- A statement that is neither empty nor in braces is told by the keyword it begins with. -/
theorem statement_of_not_braces {limit room loops : Nat} {text : Text}
    (hnil : text.trim = [] → False) (hbrace : ∀ rest, text.trim = '{' :: rest → False) :
    statement limit (room + 1) loops text =
      let inner := expression limit room
      let nested := statement limit room
      match Keyword.atStart? text.trim with
      | some (.ifWord, rest) => conditional inner nested loops rest
      | some (.whileWord, rest) => whileLoop inner nested loops rest
      | some (.forWord, rest) => forLoop inner nested loops rest
      | some (.breakWord, rest) => breakLoop loops rest
      | some (.returnWord, rest) => returning inner rest
      | some (.elseWord, _) => throw (.syntactic ⟨.strayElse, [text.trim]⟩)
      | none => inner text.trim text.trim := by
  rw [statement]
  dsimp only
  split
  · case _ heq => exact (hnil heq).elim
  · case _ rest heq => exact (hbrace rest heq).elim
  · rfl

theorem reads_rule (limit : Nat) (source : Text) : Reads (rule limit source) Tree.IsRule :=
  reads_block (reads_statement limit limit) 0 source.stripComments

end Grammar

end RuleLang

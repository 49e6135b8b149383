import RuleLang.Proofs.Tree
import RuleLang.Token.Keyword

/-!
The trees that a source can give. Expressions and statements share one type of trees; here they
are told apart. A statement stands inside some number of loops, for `break` needs one. Giving a
statement an `else` branch leaves it a statement, if the branch is one inside the loops crossed.
-/
namespace RuleLang

/-- A word of ASCII letters, digits and underscores that is no number and no keyword. -/
structure IsIdentifier (x : String) : Prop where
  nonempty : x.toList ≠ []
  inWord : ∀ c ∈ x.toList, inWord c
  no_number : ∀ c ∈ x.toList.head?, ¬ c.isDigit
  no_keyword : Keyword.ofWord? x.toList = none

/-- A number that has a literal: the least one is written with its sign. -/
def IsLiteral (n : Int32) : Prop := 0 ≤ n ∨ n = Int32.minValue

def UnaryOp.IsStep (op : UnaryOp) : Prop :=
  op = .preIncrement ∨ op = .preDecrement ∨ op = .postIncrement ∨ op = .postDecrement

namespace Tree

/-- Steps and assignments change something that has a name, and methods are called on names. -/
inductive IsExpression : Tree → Prop
  | number {n : Int32} (hn : IsLiteral n) : IsExpression (number n)
  | name {x : String} (hx : IsIdentifier x) : IsExpression (name x)
  | element {x : String} {index : Tree} (hx : IsIdentifier x) (hindex : IsExpression index) :
      IsExpression (element x index)
  | cell {x : String} {row column : Tree} (hx : IsIdentifier x) (hrow : IsExpression row)
      (hcolumn : IsExpression column) : IsExpression (cell x row column)
  | negate {operand : Tree} (h : IsExpression operand) : IsExpression (unary .negate operand)
  | not {operand : Tree} (h : IsExpression operand) : IsExpression (unary .not operand)
  | step {op : UnaryOp} {target : Tree} (hop : op.IsStep) (htarget : target.isLvalue)
      (h : IsExpression target) : IsExpression (unary op target)
  | size {x : String} (hx : IsIdentifier x) : IsExpression (unary .size (.name x))
  | rowSize {x : String} {index : Tree} (hx : IsIdentifier x) (hindex : IsExpression index) :
      IsExpression (unary .rowSize (.element x index))
  | sort {x : String} (hx : IsIdentifier x) : IsExpression (unary .sort (.name x))
  | binary {op : BinaryOp} {left right : Tree} (hop : op ≠ .assign) (hl : IsExpression left)
      (hr : IsExpression right) : IsExpression (binary op left right)
  | assign {target value : Tree} (htarget : target.isLvalue) (ht : IsExpression target)
      (hv : IsExpression value) : IsExpression (.binary .assign target value)

/-- A clause at the start or the end of a loop header, which may be left out. -/
def IsClause (tree : Tree) : Prop := tree = empty ∨ tree.IsExpression

/-- A statement inside `loops` loops. A branch or a loop body may be empty; what stands in a
block may not. -/
inductive IsStatement : Nat → Tree → Prop
  | empty {loops : Nat} : IsStatement loops empty
  | expression {loops : Nat} {tree : Tree} (h : tree.IsExpression) : IsStatement loops tree
  | returning {loops : Nat} {value : Tree} (h : value.IsExpression) :
      IsStatement loops (unary .returning value)
  | breakLoop {loops : Nat} (h : 0 < loops) : IsStatement loops breakLoop
  | ifThen {loops : Nat} {condition yes : Tree} (hc : condition.IsExpression)
      (hy : IsStatement loops yes) : IsStatement loops (ifThen condition yes)
  | ifElse {loops : Nat} {condition yes no : Tree} (hc : condition.IsExpression)
      (hy : IsStatement loops yes) (hn : IsStatement loops no) :
      IsStatement loops (ifElse condition yes no)
  | whileLoop {loops : Nat} {condition body : Tree} (hc : condition.IsExpression)
      (hb : IsStatement (loops + 1) body) : IsStatement loops (whileLoop condition body)
  | forLoop {loops : Nat} {start condition update body : Tree} (hs : start.IsClause)
      (hc : condition.IsExpression) (hu : update.IsClause) (hb : IsStatement (loops + 1) body) :
      IsStatement loops (forLoop start condition update body)
  | block {loops : Nat} {statements : List Tree} (hne : ∀ s ∈ statements, s ≠ .empty)
      (h : ∀ s ∈ statements, IsStatement loops s) : IsStatement loops (block statements)

/-- A whole rule is a block outside of all loops. -/
def IsRule (tree : Tree) : Prop := (∃ statements, tree = block statements) ∧ tree.IsStatement 0

theorem IsExpression.openIf? {tree : Tree} (h : tree.IsExpression) : tree.openIf? = none := by
  cases h <;> rfl

/-- The branch stands inside the loops that are crossed on the way to its `if`. -/
theorem IsStatement.withElse? {loops crossed : Nat} {tree branch extended : Tree}
    (htree : tree.IsStatement loops) (hopen : tree.openIf? = some crossed)
    (hbranch : branch.IsStatement (loops + crossed))
    (hextended : tree.withElse? branch = some extended) :
    extended.IsStatement loops ∧ extended ≠ .empty := by
  induction htree generalizing crossed extended with
  | empty | returning | breakLoop | block => simp [Tree.openIf?] at hopen
  | expression h => simp [h.openIf?] at hopen
  | @ifThen loops condition yes hc hy ih =>
    cases hinner : yes.openIf? with
    | none =>
      have hnone : yes.withElse? branch = none := by
        simpa [hinner] using isSome_withElse? yes branch
      have hopen : 0 = crossed := by simpa [Tree.openIf?, hinner] using hopen
      simp only [Tree.withElse?, hnone, Option.some.injEq] at hextended
      subst hopen hextended
      exact ⟨.ifElse hc hy hbranch, by simp⟩
    | some inner =>
      obtain ⟨yes', hyes'⟩ : ∃ t, yes.withElse? branch = some t :=
        Option.isSome_iff_exists.mp (by rw [isSome_withElse?, hinner]; rfl)
      have hopen : inner = crossed := by simpa [Tree.openIf?, hinner] using hopen
      simp only [Tree.withElse?, hyes', Option.some.injEq] at hextended
      subst hopen hextended
      exact ⟨.ifThen hc (ih hinner hbranch hyes').1, by simp⟩
  | ifElse hc hy hn _ ih =>
    obtain ⟨no', hno', rfl⟩ := Option.map_eq_some_iff.mp hextended
    exact ⟨.ifElse hc hy (ih hopen hbranch hno').1, by simp⟩
  | whileLoop hc hb ih =>
    obtain ⟨body', hbody', rfl⟩ := Option.map_eq_some_iff.mp hextended
    obtain ⟨inner, hinner, rfl⟩ := Option.map_eq_some_iff.mp hopen
    rw [Nat.add_comm inner, ← Nat.add_assoc] at hbranch
    exact ⟨.whileLoop hc (ih hinner hbranch hbody').1, by simp⟩
  | forLoop hs hc hu hb ih =>
    obtain ⟨body', hbody', rfl⟩ := Option.map_eq_some_iff.mp hextended
    obtain ⟨inner, hinner, rfl⟩ := Option.map_eq_some_iff.mp hopen
    rw [Nat.add_comm inner, ← Nat.add_assoc] at hbranch
    exact ⟨.forLoop hs hc hu (ih hinner hbranch hbody').1, by simp⟩

end Tree
end RuleLang

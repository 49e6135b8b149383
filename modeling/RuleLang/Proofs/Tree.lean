import Mathlib
import RuleLang.Program.Layout

/-!
Induction on trees, and the sizes of trees. A block holds a list of trees, so the induction
hypothesis of a block speaks about each of its statements. Where the kind of a tree plays no part,
there is one hypothesis about all its children.
-/
namespace RuleLang.Tree

/-- Induction on trees in which a block is treated like a node with any number of children. -/
@[elab_as_elim, induction_eliminator]
theorem blockInduction {P : Tree → Prop} (empty : P empty) (number : ∀ value, P (number value))
    (name : ∀ x, P (name x)) (element : ∀ x index, P index → P (element x index))
    (cell : ∀ x row column, P row → P column → P (cell x row column))
    (unary : ∀ op operand, P operand → P (unary op operand))
    (binary : ∀ op left right, P left → P right → P (binary op left right))
    (ifThen : ∀ condition yes, P condition → P yes → P (ifThen condition yes))
    (ifElse : ∀ condition yes no, P condition → P yes → P no → P (ifElse condition yes no))
    (whileLoop : ∀ condition body, P condition → P body → P (whileLoop condition body))
    (forLoop : ∀ start condition update body,
      P start → P condition → P update → P body → P (forLoop start condition update body))
    (block : ∀ statements, (∀ s ∈ statements, P s) → P (block statements))
    (breakLoop : P breakLoop) (tree : Tree) : P tree := by
  refine @Tree.rec P (fun trees => ∀ s ∈ trees, P s) empty number name element cell unary binary
    ifThen ifElse whileLoop forLoop block breakLoop ?_ ?_ tree
  · intro s hs
    simp at hs
  · intro tree trees htree htrees s hs
    rcases List.mem_cons.mp hs with rfl | hs
    · exact htree
    · exact htrees s hs

/-- The trees just below a tree, in the order in which they are written. -/
def children : Tree → List Tree
  | empty | number _ | name _ | breakLoop => []
  | element _ index => [index]
  | cell _ row column => [row, column]
  | unary _ operand => [operand]
  | binary _ left right => [left, right]
  | ifThen condition yes => [condition, yes]
  | ifElse condition yes no => [condition, yes, no]
  | whileLoop condition body => [condition, body]
  | forLoop start condition update body => [start, condition, update, body]
  | block statements => statements

theorem childInduction {P : Tree → Prop} (step : ∀ tree, (∀ t ∈ tree.children, P t) → P tree)
    (tree : Tree) : P tree := by
  induction tree with
  | block statements ih => exact step _ ih
  | _ => exact step _ (by simp_all [children])

/-- The number of nodes that are put off when a tree is laid out. -/
def lateSize : Tree → Nat
  | empty | number _ | name _ | block _ | breakLoop => 0
  | element _ index => index.lateSize
  | cell _ row column => row.lateSize + column.lateSize
  | unary _ operand => operand.lateSize
  | binary _ left right => left.lateSize + right.lateSize
  | ifThen condition yes => condition.lateSize + yes.lateSize
  | ifElse condition yes no => condition.lateSize + yes.lateSize + no.size
  | whileLoop condition body => condition.lateSize + body.lateSize
  | forLoop start condition update body =>
    start.lateSize + condition.lateSize + update.lateSize + body.lateSize

theorem stemSize_add_lateSize (tree : Tree) : tree.stemSize + tree.lateSize = tree.size := by
  induction tree with
  | empty | number | name | block | breakLoop => rfl
  | _ => simp only [stemSize, lateSize, size]; omega

theorem stemSize_pos (tree : Tree) : 0 < tree.stemSize := by
  cases tree <;> exact Nat.succ_pos _

theorem sizeAll_append (front back : List Tree) :
    sizeAll (front ++ back) = sizeAll front + sizeAll back := by
  induction front with
  | nil => simp [sizeAll]
  | cons tree front ih =>
    simp only [List.cons_append, sizeAll, ih]
    omega

theorem sizeAll_concat (front : List Tree) (tree : Tree) :
    sizeAll (front ++ [tree]) = sizeAll front + tree.size :=
  sizeAll_append front [tree]

end RuleLang.Tree

import Mathlib
import RuleLang.RuleSet

/-!
A semantics without signals. Expressions are evaluated against the store alone. A statement ends
in one of four ways: normally with a yield, in a `break` with the yield so far, in a `return` with
its value, or in a fault, which is that of the underlying monad. Sequences, conditionals and
loops pass the ending of a part on, or end the part's `break` themselves.
-/
namespace RuleLang

/-- How a statement ends that does not fail. -/
inductive Ending
  | normal (yielded : Yield)
  | broke (yielded : Yield)
  | returned (value : Int32)

/-- The value of a rule that ends this way. -/
def Ending.result : Ending → Int32
  | normal yielded | broke yielded => if yielded.counts then yielded.value else 0
  | returned value => value

namespace Tree

open Store

/-- The value of a binary operation, or a fault about the quotient as it is written. -/
def quotient (op : BinaryOp) (left right : Tree) (l r : Int32) : Write Yield :=
  match op.apply? l r with
  | some n => return .counted n
  | none => throw (.arithmetic ⟨.divisionByZero, [(binary op left right).render]⟩)

mutual

/-- Evaluates an expression. -/
def eval : Tree → Write Yield
  | number n => return .counted n
  | name x => return .counted (← reading (·.read x))
  | element x index => do
    let index ← index.eval
    return .counted (← reading (·.readElement x index.value))
  | cell x row column => do
    let row ← row.eval
    let column ← column.eval
    return .counted (← reading (·.readCell x row.value column.value))
  | unary .negate operand => return .counted (-(← operand.eval).value)
  | unary .not operand => return .counted (ofTruth ((← operand.eval).value = 0))
  | unary .preIncrement target => return .counted (← target.evalStep 1).2
  | unary .preDecrement target => return .counted (← target.evalStep (-1)).2
  | unary .postIncrement target => return .counted (← target.evalStep 1).1
  | unary .postDecrement target => return .counted (← target.evalStep (-1)).1
  | unary .size (name x) => return .counted (← reading (·.size x))
  | unary .rowSize (element x index) => do
    let index ← index.eval
    return .counted (← reading (·.rowSize x index.value))
  | unary .sort (name x) => do
    sort x
    return .silent 0
  | binary .assign (name x) (name y) => return .silent (← copy x y)
  | binary .assign (name x) source => do
    let value ← source.eval
    assign x value.value
    return .silent value.value
  | binary .assign (element x index) source => do
    let index ← index.eval
    let value ← source.eval
    assignElement x index.value value.value
    return .silent value.value
  | binary op left right => do
    let l ← left.eval
    let r ← right.eval
    quotient op left right l.value r.value
  | _ => return .silent 0

/-- Adds to what an expression names; gives the number before and after. -/
def evalStep (delta : Int32) : Tree → Write (Int32 × Int32)
  | name x => increment x delta
  | element x index => do
    let index ← index.eval
    incrementElement x index.value delta
  | _ => return (0, 0)

end

/-- Goes through a loop that has yielded `last` so far and may run its body `left` more times. -/
def iterate (ceiling : Nat) (condition : Write Int32) (body : Write Ending) (update : Write Unit)
    (left : Nat) (last : Yield) : Write Ending := do
  if (← condition) = 0 then return .normal last
  match left with
  | 0 => throw (.runaway ⟨.stalled, [.ofNat ceiling]⟩)
  | left + 1 =>
    match ← body with
    | .normal yielded =>
      update
      iterate ceiling condition body update left (last.orElse yielded)
    | .broke yielded => return .normal (last.orElse yielded)
    | .returned value => return .returned value

mutual

/-- Executes a statement in which loops may run as often as `ceiling` says. -/
def exec (ceiling : Nat) : Tree → Write Ending
  | unary .returning operand => return .returned (← operand.eval).value
  | ifThen condition yes => do
    if (← condition.eval).value ≠ 0 then yes.exec ceiling else return .normal (.silent 0)
  | ifElse condition yes no => do
    if (← condition.eval).value ≠ 0 then yes.exec ceiling else no.exec ceiling
  | whileLoop condition body =>
    iterate ceiling (return (← condition.eval).value) (body.exec ceiling) (return ()) ceiling
      (.silent 0)
  | forLoop start condition update body => do
    discard start.eval
    iterate ceiling (return (← condition.eval).value) (body.exec ceiling) (discard update.eval)
      ceiling (.silent 0)
  | block statements => execAll ceiling (.silent 0) statements
  | breakLoop => return .broke (.silent 0)
  | expression => return .normal (← expression.eval)

/-- Executes statements up to the first that does not end normally. -/
def execAll (ceiling : Nat) (last : Yield) : List Tree → Write Ending
  | [] => return .normal last
  | statement :: statements => do
    match ← statement.exec ceiling with
    | .normal yielded => execAll ceiling (last.orElse yielded) statements
    | .broke yielded => return .broke (last.orElse yielded)
    | .returned value => return .returned value

end

end Tree

/-- Evaluates a rule by its execution, with no variables at the beginning. -/
def RuleSet.execute (rule : Tree) : Host Int32 := fun ⟨limits, store⟩ =>
  match rule.exec limits.loopCeiling { store with scratch := [] } with
  | .ok ending store => .ok ending.result ⟨limits, store⟩
  | .error fault store => .error fault ⟨limits, store⟩

end RuleLang

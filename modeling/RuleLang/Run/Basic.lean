import RuleLang.Run.Signals
import RuleLang.Store.Basic
import RuleLang.Tree.Render

/-!
Running a tree. Every tree yields an integer, and its yield counts or not: a sequence reports
the last yield that counts. Assignments, sorting, `break`, and conditionals and loops of which
no branch or body ran yield something that does not count.

Both operands of a binary operation are always run, the left one first. A loop may run its body
as often as the ceiling says, each time it is entered.
-/
namespace RuleLang

structure Yield where
  value : Int32
  counts : Bool
  deriving DecidableEq

namespace Yield

def counted (value : Int32) : Yield := ⟨value, true⟩

def silent (value : Int32) : Yield := ⟨value, false⟩

/-- The later of two yields, unless it does not count. -/
def orElse (earlier later : Yield) : Yield := if later.counts then later else earlier

end Yield

/-- Truth as a number. -/
def ofTruth (truth : Bool) : Int32 := if truth then 1 else 0

/-- The result of an operation on two numbers; none for a division by zero. An assignment has
the value of its right side. -/
def BinaryOp.apply? (op : BinaryOp) (l r : Int32) : Option Int32 :=
  match op with
  | add => some (l + r)
  | subtract => some (l - r)
  | multiply => some (l * r)
  | divide => if r = 0 then none else some (l / r)
  | remainder => if r = 0 then none else some (l % r)
  | equal => some (ofTruth (l = r))
  | notEqual => some (ofTruth (l ≠ r))
  | less => some (ofTruth (l < r))
  | greater => some (ofTruth (l > r))
  | lessEqual => some (ofTruth (l ≤ r))
  | greaterEqual => some (ofTruth (l ≥ r))
  | and => some (ofTruth (l ≠ 0 ∧ r ≠ 0))
  | or => some (ofTruth (l ≠ 0 ∨ r ≠ 0))
  | max => some (if l < r then r else l)
  | min => some (if r < l then r else l)
  | assign => some r

/-- What a run changes. -/
structure RunState where
  store : Store
  signals : Signals

abbrev Run (α : Type) := EStateM Fault RunState α

namespace Run

def read (get : Store → Except Fault α) : Run α := fun state =>
  match get state.store with
  | .ok a => .ok a state
  | .error fault => .error fault state

def write (act : Write α) : Run α := fun ⟨store, signals⟩ =>
  match act store with
  | .ok a store => .ok a ⟨store, signals⟩
  | .error fault store => .error fault ⟨store, signals⟩

def signals : Run Signals := fun state => .ok state.signals state

def signal (change : Signals → Signals) : Run Unit := fun state =>
  .ok () { state with signals := change state.signals }

def takeBreak : Run Bool := fun state =>
  .ok state.signals.takeBreak.1 { state with signals := state.signals.takeBreak.2 }

def value (act : Run Yield) : Run Int32 := return (← act).value

def returned : Run Bool := return (← signals).returned?.isSome

/-- Runs a loop that has yielded `last` so far and may run its body `left` more times. -/
def repeatLoop (ceiling : Nat) (condition : Run Int32) (body : Run Yield) (update : Run Unit)
    (left : Nat) (last : Yield) : Run Yield := do
  if ← returned then return last
  if (← condition) = 0 then return last
  match left with
  | 0 => throw (.runaway ⟨.stalled, [.ofNat ceiling]⟩)
  | left + 1 =>
    let last := last.orElse (← body)
    let broken ← takeBreak
    if broken || (← returned) then return last
    update
    repeatLoop ceiling condition body update left last

/-- Runs a loop from its beginning. -/
def loop (ceiling : Nat) (condition : Run Int32) (body : Run Yield) (update : Run Unit) :
    Run Yield :=
  repeatLoop ceiling condition body update ceiling (.silent 0)

/-- The value of a whole rule: that of the first `return`, else the last one that counts, else
zero. -/
def result (act : Run Yield) : Run Int32 := do
  let last ← act
  match (← signals).returned? with
  | some value => return value
  | none => return if last.counts then last.value else 0

end Run

namespace Tree

open Run

mutual

/-- Runs a tree in which loops may run as often as `ceiling` says. -/
def run (ceiling : Nat) : Tree → Run Yield
  | empty => return .silent 0
  | number n => return .counted n
  | name x => return .counted (← read (·.read x))
  | element x index => do
    let index ← value (index.run ceiling)
    return .counted (← read (·.readElement x index))
  | cell x row column => do
    let row ← value (row.run ceiling)
    let column ← value (column.run ceiling)
    return .counted (← read (·.readCell x row column))
  | unary .negate operand => return .counted (-(← value (operand.run ceiling)))
  | unary .not operand => return .counted (ofTruth ((← value (operand.run ceiling)) = 0))
  | unary .preIncrement target => return .counted (← runStep ceiling 1 target).2
  | unary .preDecrement target => return .counted (← runStep ceiling (-1) target).2
  | unary .postIncrement target => return .counted (← runStep ceiling 1 target).1
  | unary .postDecrement target => return .counted (← runStep ceiling (-1) target).1
  | unary .size (name x) => return .counted (← read (·.size x))
  | unary .size operand =>
    throw (.syntactic ⟨.methodTarget, ["size".toList, (unary .size operand).render]⟩)
  | unary .rowSize (element x index) => do
    let index ← value (index.run ceiling)
    return .counted (← read (·.rowSize x index))
  | unary .rowSize operand =>
    throw (.syntactic ⟨.methodTarget, ["size".toList, (unary .rowSize operand).render]⟩)
  | unary .sort (name x) => do
    write (Store.sort x)
    return .silent 0
  | unary .sort operand =>
    throw (.syntactic ⟨.methodTarget, ["sort".toList, (unary .sort operand).render]⟩)
  | unary .returning operand => do
    let value ← value (operand.run ceiling)
    signal (·.setReturn value)
    return .counted value
  | binary .assign (name x) (name y) => return .silent (← write (Store.copy x y))
  | binary .assign (name x) source => do
    let value ← value (source.run ceiling)
    write (Store.assign x value)
    return .silent value
  | binary .assign (element x index) source => do
    let index ← value (index.run ceiling)
    let value ← value (source.run ceiling)
    write (Store.assignElement x index value)
    return .silent value
  | binary .assign target _ => throw (.syntactic ⟨.notAssignable, [target.render]⟩)
  | binary op left right => do
    let l ← value (left.run ceiling)
    let r ← value (right.run ceiling)
    match op.apply? l r with
    | some n => return .counted n
    | none => throw (.arithmetic ⟨.divisionByZero, [(binary op left right).render]⟩)
  | ifThen condition yes => do
    if (← value (condition.run ceiling)) ≠ 0 then yes.run ceiling else return .silent 0
  | ifElse condition yes no => do
    if (← value (condition.run ceiling)) ≠ 0 then yes.run ceiling else no.run ceiling
  | whileLoop condition body =>
    loop ceiling (value (condition.run ceiling)) (body.run ceiling) (return ())
  | forLoop start condition update body => do
    discard (start.run ceiling)
    loop ceiling (value (condition.run ceiling)) (body.run ceiling)
      (discard (update.run ceiling))
  | block statements => runAll ceiling (.silent 0) statements
  | breakLoop => do
    signal Signals.setBreak
    return .silent 0

/-- Adds to what a tree names; gives the number before and after. -/
def runStep (ceiling : Nat) (delta : Int32) : Tree → Run (Int32 × Int32)
  | name x => write (Store.increment x delta)
  | element x index => do
    let index ← value (index.run ceiling)
    write (Store.incrementElement x index delta)
  | target => throw (.syntactic ⟨.notAssignable, [target.render]⟩)

/-- Runs statements until one of them raises a signal; `last` is the yield so far. -/
def runAll (ceiling : Nat) (last : Yield) : List Tree → Run Yield
  | [] => return last
  | statement :: statements => do
    if (← signals).pending then return last
    let yielded ← statement.run ceiling
    runAll ceiling (last.orElse yielded) statements

end

/-- The value of a whole rule. -/
def result (ceiling : Nat) (rule : Tree) : Run Int32 := Run.result (rule.run ceiling)

end Tree
end RuleLang

import RuleLang.Program.Render
import RuleLang.Run.Basic

/-!
Running programs. A node is run by way of the nodes under it, which are looked up by their numbers
each time they are run. Some operations do not run the node under them but look at what it is: a
step, an assignment or a method call wants a name or an element there.
-/
namespace RuleLang

/-- What a name or an element stands for; the index of an element is still to be run. -/
inductive Place
  | name (x : String)
  | element (x : String) (index : Run Int32)

/-- Goes through runs until one of them raises a signal; `last` is the yield so far. -/
def Run.inTurn (last : Yield) : List (Run Yield) → Run Yield
  | [] => return last
  | act :: acts => do
    if (← signals).pending then return last
    let yielded ← act
    inTurn (last.orElse yielded) acts

namespace Node

open Run

variable (renderAt : Text → Nat → Text) (placeAt? : Nat → Option Place) (runAt : Nat → Run Yield)

/-- What a node stands for, if it is a name or an element with one index. -/
def place? : Node → Option Place
  | name x => some (.name x)
  | element x index => some (.element x (value (runAt index)))
  | _ => none

/-- Adds to what a node stands for; gives the number before and after. -/
def step (delta : Int32) (target : Nat) : Run (Int32 × Int32) :=
  match placeAt? target with
  | some (.name x) => write (Store.increment x delta)
  | some (.element x index) => do
    let index ← index
    write (Store.incrementElement x index delta)
  | none => throw (.syntactic ⟨.notAssignable, [renderAt [] target]⟩)

/-- Assigns what a node yields to what another stands for. From a bare name to a bare name all
elements are copied. -/
def assign (target source : Nat) : Run Yield :=
  match placeAt? target, placeAt? source with
  | some (.name x), some (.name y) => return .silent (← write (Store.copy x y))
  | some (.name x), _ => do
    let value ← value (runAt source)
    write (Store.assign x value)
    return .silent value
  | some (.element x index), _ => do
    let index ← index
    let value ← value (runAt source)
    write (Store.assignElement x index value)
    return .silent value
  | none, _ => throw (.syntactic ⟨.notAssignable, [renderAt [] target]⟩)

/-- Runs a node, given how the nodes under it are written, what they stand for and how they are
run. Loops may run as often as `ceiling` says. -/
def run (ceiling : Nat) : Node → Run Yield
  | empty => return .silent 0
  | number n => return .counted n
  | name x => return .counted (← read (·.read x))
  | element x index => do
    let index ← value (runAt index)
    return .counted (← read (·.readElement x index))
  | cell x row column => do
    let row ← value (runAt row)
    let column ← value (runAt column)
    return .counted (← read (·.readCell x row column))
  | unary .negate operand => return .counted (-(← value (runAt operand)))
  | unary .not operand => return .counted (ofTruth ((← value (runAt operand)) = 0))
  | unary .preIncrement target => return .counted (← step renderAt placeAt? 1 target).2
  | unary .preDecrement target => return .counted (← step renderAt placeAt? (-1) target).2
  | unary .postIncrement target => return .counted (← step renderAt placeAt? 1 target).1
  | unary .postDecrement target => return .counted (← step renderAt placeAt? (-1) target).1
  | unary .size operand =>
    match placeAt? operand with
    | some (.name x) => return .counted (← read (·.size x))
    | _ =>
      let call := unary .size operand
      throw (.syntactic ⟨.methodTarget, ["size".toList, call.renderOnto renderAt []]⟩)
  | unary .rowSize operand =>
    match placeAt? operand with
    | some (.element x index) => do
      let index ← index
      return .counted (← read (·.rowSize x index))
    | _ =>
      let call := unary .rowSize operand
      throw (.syntactic ⟨.methodTarget, ["size".toList, call.renderOnto renderAt []]⟩)
  | unary .sort operand =>
    match placeAt? operand with
    | some (.name x) => do
      write (Store.sort x)
      return .silent 0
    | _ =>
      let call := unary .sort operand
      throw (.syntactic ⟨.methodTarget, ["sort".toList, call.renderOnto renderAt []]⟩)
  | unary .returning operand => do
    let value ← value (runAt operand)
    signal (·.setReturn value)
    return .counted value
  | binary .assign target source => assign renderAt placeAt? runAt target source
  | binary op left right => do
    let l ← value (runAt left)
    let r ← value (runAt right)
    match op.apply? l r with
    | some n => return .counted n
    | none =>
      let quotient := binary op left right
      throw (.arithmetic ⟨.divisionByZero, [quotient.renderOnto renderAt []]⟩)
  | ifThen condition yes => do
    if (← value (runAt condition)) ≠ 0 then runAt yes else return .silent 0
  | ifElse condition yes no => do
    if (← value (runAt condition)) ≠ 0 then runAt yes else runAt no
  | whileLoop condition body => loop ceiling (value (runAt condition)) (runAt body) (return ())
  | forLoop start condition update body => do
    discard (runAt start)
    loop ceiling (value (runAt condition)) (runAt body) (discard (runAt update))
  | block statements => inTurn (.silent 0) (statements.map runAt)
  | breakLoop => do
    signal Signals.setBreak
    return .silent 0

end Node

namespace Program

mutual

/-- Runs the node with a number, and those under it down to the given depth. -/
def run (program : Program) (ceiling : Nat) : Nat → Nat → Run Yield
  | 0, _ => return .silent 0
  | depth + 1, id =>
    (program.node id).run (program.renderOnto depth) (program.place? ceiling depth)
      (program.run ceiling depth) ceiling

def place? (program : Program) (ceiling : Nat) : Nat → Nat → Option Place
  | 0, _ => none
  | depth + 1, id => (program.node id).place? (program.run ceiling depth)

end

def placeAt? (program : Program) (ceiling id : Nat) : Option Place :=
  program.place? ceiling program.nodes.size id

/-- Runs the node with a number. In a tree no path is longer than the number of nodes. -/
def runAt (program : Program) (ceiling id : Nat) : Run Yield :=
  program.run ceiling program.nodes.size id

/-- The value of a program. -/
def result (program : Program) (ceiling : Nat) : Run Int32 :=
  Run.result (program.runAt ceiling program.root)

end Program
end RuleLang

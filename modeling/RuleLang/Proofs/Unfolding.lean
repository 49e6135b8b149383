import Mathlib
import RuleLang.RuleSet

/-!
Programs and the trees that unfold from them. Writing and running a node by way of the numbers of
the nodes under it come to the same as writing and running the tree of the node, to whatever depth
both go down. One lemma for each says so of a node whose children already do, a case for each kind
of node; the induction is on the depth.
-/
namespace RuleLang

namespace Tree

/-- What a tree stands for, if it is a name or an element with one index. -/
def place? (ceiling : Nat) : Tree → Option Place
  | name x => some (.name x)
  | element x index => some (.element x (Run.value (index.run ceiling)))
  | _ => none

theorem renderAllOnto_map (subtree : Nat → Tree) (tail : Text) (ids : List Nat) :
    renderAllOnto tail (ids.map subtree) =
      ids.foldr (fun id tail => ' ' :: (subtree id).renderOnto tail) tail := by
  induction ids with
  | nil => rfl
  | cons id ids ih => rw [List.map_cons, renderAllOnto, ih, List.foldr_cons]

theorem runAll_map (subtree : Nat → Tree) (ceiling : Nat) (last : Yield) (ids : List Nat) :
    runAll ceiling last (ids.map subtree) =
      Run.inTurn last (ids.map fun id => (subtree id).run ceiling) := by
  induction ids generalizing last with
  | nil => rfl
  | cons id ids ih => simp only [List.map_cons, runAll, Run.inTurn, ih]

end Tree

namespace Node

variable (subtree : Nat → Tree) (ceiling : Nat)

theorem renderOnto_tree (tail : Text) (node : Node) :
    (node.tree subtree).renderOnto tail =
      node.renderOnto (fun tail id => (subtree id).renderOnto tail) tail := by
  cases node with
  | block statements => exact congrArg _ (Tree.renderAllOnto_map subtree _ statements)
  | _ => rfl

theorem place?_tree (node : Node) :
    (node.tree subtree).place? ceiling = node.place? fun id => (subtree id).run ceiling := by
  cases node <;> rfl

theorem step_tree (delta : Int32) (target : Nat) :
    (subtree target).runStep ceiling delta =
      step (fun tail id => (subtree id).renderOnto tail) (fun id => (subtree id).place? ceiling)
        delta target := by
  unfold step
  dsimp only
  generalize subtree target = tree
  cases tree <;> rfl

theorem assign_tree (target source : Nat) :
    (Tree.binary .assign (subtree target) (subtree source)).run ceiling =
      assign (fun tail id => (subtree id).renderOnto tail) (fun id => (subtree id).place? ceiling)
        (fun id => (subtree id).run ceiling) target source := by
  unfold assign
  dsimp only
  generalize subtree target = tree, subtree source = tree'
  cases tree <;> cases tree' <;> rfl

theorem run_tree (node : Node) :
    (node.tree subtree).run ceiling =
      node.run (fun tail id => (subtree id).renderOnto tail)
        (fun id => (subtree id).place? ceiling) (fun id => (subtree id).run ceiling) ceiling := by
  cases node with
  | unary op operand =>
    cases op with
    | preIncrement | preDecrement | postIncrement | postDecrement =>
      simp only [tree, run, Tree.run, step_tree]
    | size | rowSize | sort =>
      have htext (node : Node) : node.renderOnto (fun tail id => (subtree id).renderOnto tail) [] =
          (node.tree subtree).render := (renderOnto_tree subtree [] node).symm
      simp only [run, htext, tree]
      generalize subtree operand = tree
      cases tree <;> simp only [Tree.run, Tree.place?]
    | _ => rfl
  | binary op left right =>
    cases op with
    | assign => exact assign_tree subtree ceiling left right
    | _ => rfl
  | block statements => exact Tree.runAll_map subtree ceiling _ statements
  | _ => rfl

end Node

namespace Program

variable (program : Program) (ceiling depth : Nat)

theorem renderOnto_eq (tail : Text) (id : Nat) :
    program.renderOnto depth tail id = (program.unfold depth id).renderOnto tail := by
  induction depth generalizing tail id with
  | zero => rfl
  | succ depth ih =>
    rw [unfold, Node.renderOnto_tree, renderOnto]
    exact congrArg (Node.renderOnto · tail _) (funext fun tail => funext (ih tail))

theorem run_eq_and_place?_eq (id : Nat) :
    program.run ceiling depth id = (program.unfold depth id).run ceiling ∧
      program.place? ceiling depth id = (program.unfold depth id).place? ceiling := by
  induction depth generalizing id with
  | zero => exact ⟨rfl, rfl⟩
  | succ depth ih =>
    have hrender : program.renderOnto depth =
        fun tail id => (program.unfold depth id).renderOnto tail :=
      funext fun tail => funext (program.renderOnto_eq depth tail)
    have hrun : program.run ceiling depth = fun id => (program.unfold depth id).run ceiling :=
      funext fun id => (ih id).1
    have hplace : program.place? ceiling depth =
        fun id => (program.unfold depth id).place? ceiling := funext fun id => (ih id).2
    rw [unfold, Node.run_tree, Node.place?_tree, run, place?, hrender, hrun, hplace]
    exact ⟨rfl, rfl⟩

theorem renderAt_eq :
    program.renderAt = fun tail id => (program.subtree id).renderOnto tail :=
  funext fun tail => funext (program.renderOnto_eq program.nodes.size tail)

theorem runAt_eq : program.runAt ceiling = fun id => (program.subtree id).run ceiling :=
  funext fun id => (program.run_eq_and_place?_eq ceiling program.nodes.size id).1

theorem placeAt?_eq :
    program.placeAt? ceiling = fun id => (program.subtree id).place? ceiling :=
  funext fun id => (program.run_eq_and_place?_eq ceiling program.nodes.size id).2

/-- The text of a program is that of its tree. -/
theorem text_eq : program.text = program.tree.render := by
  rw [text, renderAt_eq]
  rfl

/-- The value of a program is that of its tree, from whatever state. -/
theorem result_eq : program.result ceiling = program.tree.result ceiling := by
  rw [result, runAt_eq]
  rfl

end Program

/-- The evaluation of a program is that of its tree. -/
theorem RuleSet.evaluate_eq (program : Program) (limits : Limits) (store : Store) :
    evaluate program ⟨limits, store⟩ =
      match program.tree.result limits.loopCeiling ⟨{ store with scratch := [] }, .none⟩ with
      | .ok value state => .ok value ⟨limits, state.store⟩
      | .error fault state => .error fault ⟨limits, state.store⟩ := by
  rw [← Program.result_eq]
  rfl

end RuleLang

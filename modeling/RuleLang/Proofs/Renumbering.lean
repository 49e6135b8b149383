import RuleLang.Proofs.TreeCheck
import RuleLang.RuleSet

/-!
Programs with the same tree under other numbers. A renumbering takes the root to the root and every
node that the root reaches to a node of the same kind, whose children are those that its children
are taken to. Whatever else the two programs hold, each node is written and run like the one it is
taken to: from the children of a node to the node this is a matter of its kind, and the induction is
along the nodes. Between any two programs with the same tree there is a renumbering.
-/
namespace RuleLang

namespace Node

/-- The same node with other numbers for its children. -/
def renumber (number : Nat → Nat) : Node → Node
  | empty => empty
  | .number value => .number value
  | name x => name x
  | element x index => element x (number index)
  | cell x row column => cell x (number row) (number column)
  | unary op operand => unary op (number operand)
  | binary op left right => binary op (number left) (number right)
  | ifThen condition yes => ifThen (number condition) (number yes)
  | ifElse condition yes no => ifElse (number condition) (number yes) (number no)
  | whileLoop condition body => whileLoop (number condition) (number body)
  | forLoop start condition update body =>
    forLoop (number start) (number condition) (number update) (number body)
  | block statements => block (statements.map number)
  | breakLoop => breakLoop

theorem children_renumber (number : Nat → Nat) (node : Node) :
    (node.renumber number).children = node.children.map number := by
  cases node <;> rfl

theorem tree_renumber (number : Nat → Nat) (subtree : Nat → Tree) (node : Node) :
    (node.renumber number).tree subtree = node.tree (subtree ∘ number) := by
  cases node with
  | block statements => exact congrArg Tree.block List.map_map
  | _ => rfl

/-- The tree of a node tells its kind and the trees of its children. -/
theorem map_children_eq_of_tree_eq {subtree subtree' : Nat → Tree} {node node' : Node}
    (htree : node.tree subtree = node'.tree subtree') :
    node.children.map subtree = node'.children.map subtree' := by
  cases node <;> cases node' <;> simp_all [tree, children]

theorem eq_renumber {number : Nat → Nat} {subtree subtree' : Nat → Tree} {node node' : Node}
    (htree : node.tree subtree = node'.tree subtree')
    (hchildren : node'.children = node.children.map number) : node' = node.renumber number := by
  cases node <;> cases node' <;> simp_all [tree, children, renumber]

section Below

variable {renderAt renderAt' : Text → Nat → Text} {placeAt? placeAt?' : Nat → Option Place}
  {runAt runAt' : Nat → Run Yield} {number : Nat → Nat} {node : Node}

/-- A node is written by way of its children only. -/
theorem renderOnto_renumber
    (h : ∀ child ∈ node.children, ∀ tail, renderAt' tail (number child) = renderAt tail child)
    (tail : Text) :
    (node.renumber number).renderOnto renderAt' tail = node.renderOnto renderAt tail := by
  cases node with
  | block statements =>
    simp only [renumber, renderOnto, List.foldr_map]
    have hfold : statements.foldr (fun id tail => ' ' :: renderAt' tail (number id)) (')' :: tail) =
        statements.foldr (fun id tail => ' ' :: renderAt tail id) (')' :: tail) :=
      List.foldr_ext _ _ _ fun id hid tail => by rw [h id hid tail]
    rw [hfold]
  | _ =>
    simp only [children, List.forall_mem_cons] at h
    simp only [renumber, renderOnto, h]

theorem place?_renumber (h : ∀ child ∈ node.children, runAt' (number child) = runAt child) :
    (node.renumber number).place? runAt' = node.place? runAt := by
  cases node with
  | element x index => simp only [renumber, place?, h index List.mem_cons_self]
  | _ => rfl

/-- A node is run by way of its children only. -/
theorem run_renumber (ceiling : Nat)
    (hrender : ∀ child ∈ node.children, ∀ tail, renderAt' tail (number child) = renderAt tail child)
    (hplace : ∀ child ∈ node.children, placeAt?' (number child) = placeAt? child)
    (hrun : ∀ child ∈ node.children, runAt' (number child) = runAt child) :
    (node.renumber number).run renderAt' placeAt?' runAt' ceiling =
      node.run renderAt placeAt? runAt ceiling := by
  cases node with
  | unary op operand =>
    simp only [children, List.forall_mem_cons] at hrender hplace hrun
    cases op <;> simp only [renumber, run, step, renderOnto, hrender, hplace, hrun]
  | binary op left right =>
    simp only [children, List.forall_mem_cons] at hrender hplace hrun
    cases op <;> simp only [renumber, run, assign, renderOnto, hrender, hplace, hrun]
  | block statements =>
    have hall : statements.map (runAt' ∘ number) = statements.map runAt :=
      List.map_congr_left hrun
    simp only [renumber, run, List.map_map, hall]
  | _ =>
    simp only [children, List.forall_mem_cons] at hrun
    simp only [renumber, run, hrun]

end Below

end Node

namespace Program

variable {p q : Program} {number : Nat → Nat}

namespace Counted

variable (hp : p.Counted) (hq : q.Counted)

include hp hq

/-- The children of nodes with the same tree have the same trees in turn. -/
theorem map_subtree_children {id id' : Nat} (hid : p.Reached id) (hid' : q.Reached id')
    (h : p.subtree id = q.subtree id') :
    (p.children id).map p.subtree = (q.children id').map q.subtree := by
  obtain ⟨node, hnode, hchildren⟩ := hp.exists_node hid
  obtain ⟨node', hnode', hchildren'⟩ := hq.exists_node hid'
  rw [hp.subtree_eq hid hnode, hq.subtree_eq hid' hnode'] at h
  rw [hchildren, hchildren']
  exact Node.map_children_eq_of_tree_eq h

/-- A path from a node can be followed from every node with the same tree, and leads to nodes with
the same tree. -/
theorem follow?_of_subtree_eq {id id' other : Nat} {path : List Nat} (hid : p.Reached id)
    (hid' : q.Reached id') (h : p.subtree id = q.subtree id')
    (hpath : p.follow? id path = some other) :
    ∃ other', q.follow? id' path = some other' ∧ q.Reached other' ∧
      p.subtree other = q.subtree other' := by
  induction path generalizing id id' with
  | nil =>
    obtain rfl := Option.some.inj hpath
    exact ⟨id', rfl, hid', h⟩
  | cons position path ih =>
    obtain ⟨child, hchild, hpath⟩ := Option.bind_eq_some_iff.mp hpath
    have htrees := congrArg (·[position]?) (hp.map_subtree_children hq hid hid' h)
    simp only [List.getElem?_map, hchild, Option.map_some] at htrees
    obtain ⟨child', hchild', htree⟩ := Option.map_eq_some_iff.mp htrees.symm
    obtain ⟨other', hpath', hother⟩ := ih (hid.tail (List.mem_of_getElem? hchild))
      (hid'.tail (List.mem_of_getElem? hchild')) htree.symm hpath
    exact ⟨other', Option.bind_eq_some_iff.mpr ⟨child', hchild', hpath'⟩, hother⟩

end Counted

/-- The numbers of one program taken to those of another, from the root on. -/
structure Renumbering (p q : Program) (number : Nat → Nat) : Prop where
  root_eq : q.root = number p.root
  nodes_eq : ∀ {id node}, p.Reached id → p.nodes[id]? = some node →
    q.nodes[number id]? = some (node.renumber number)

/-- The trees under the roots are the same but for the numbers of their nodes. -/
def Isomorphic (p q : Program) : Prop := ∃ number, Renumbering p q number

/-- A node of one program and a node of another that are written alike, stand for the same and run
alike. -/
structure SameAt (p q : Program) (id id' : Nat) : Prop where
  renderAt_eq : ∀ tail, q.renderAt tail id' = p.renderAt tail id
  placeAt?_eq : ∀ ceiling, q.placeAt? ceiling id' = p.placeAt? ceiling id
  runAt_eq : ∀ ceiling, q.runAt ceiling id' = p.runAt ceiling id

namespace Renumbering

variable (h : Renumbering p q number) (hp : p.Counted) (hq : q.Counted)

include h hp

theorem children_eq {id : Nat} (hid : p.Reached id) :
    q.children (number id) = (p.children id).map number := by
  obtain ⟨node, hnode, hchildren⟩ := hp.exists_node hid
  simp [children, hnode, h.nodes_eq hid hnode, Node.children_renumber]

theorem child {id child : Nat} (hid : p.Reached id) (hchild : p.Child id child) :
    q.Child (number id) (number child) := by
  rw [Child, h.children_eq hp hid]
  exact List.mem_map_of_mem hchild

theorem reached {id : Nat} (hid : p.Reached id) : q.Reached (number id) := by
  induction hid with
  | refl => exact h.root_eq ▸ .refl
  | tail hid hchild ih => exact ih.tail (h.child hp hid hchild)

include hq

theorem subtree_eq {id : Nat} (hid : p.Reached id) : q.subtree (number id) = p.subtree id := by
  have hunfolds := hp.unfolds_subtree hid
  generalize p.subtree id = tree at hunfolds
  induction hunfolds with
  | @node id node subtree hnode hchildren ih =>
    rw [hq.subtree_eq (h.reached hp hid) (h.nodes_eq hid hnode), Node.tree_renumber]
    exact Node.tree_congr fun child hchild =>
      ih child hchild (hid.tail (child_of_mem hnode hchild))

/-- Every node that the root reaches is written like the one it is taken to, and the two stand for
the same and run alike. -/
theorem sameAt {id : Nat} (hid : p.Reached id) : SameAt p q id (number id) := by
  have hunfolds := hp.unfolds_subtree hid
  generalize p.subtree id = tree at hunfolds
  induction hunfolds with
  | @node id node subtree hnode hchildren ih =>
    have hid' := h.reached hp hid
    have hnode' := h.nodes_eq hid hnode
    have hbelow (child : Nat) (hchild : child ∈ node.children) : SameAt p q child (number child) :=
      ih child hchild (hid.tail (child_of_mem hnode hchild))
    constructor
    · intro tail
      rw [hp.renderAt_of_node hid hnode, hq.renderAt_of_node hid' hnode']
      exact Node.renderOnto_renumber (fun child hchild => (hbelow child hchild).renderAt_eq) tail
    · intro ceiling
      rw [hp.placeAt?_of_node hid hnode, hq.placeAt?_of_node hid' hnode']
      exact Node.place?_renumber fun child hchild => (hbelow child hchild).runAt_eq ceiling
    · intro ceiling
      rw [hp.runAt_of_node hid hnode, hq.runAt_of_node hid' hnode']
      exact Node.run_renumber ceiling (fun child hchild => (hbelow child hchild).renderAt_eq)
        (fun child hchild => (hbelow child hchild).placeAt?_eq ceiling)
        fun child hchild => (hbelow child hchild).runAt_eq ceiling

end Renumbering

section SameTree

variable (hp : p.Counted) (hq : q.Counted) (h : p.tree = q.tree)
  (hnumber : ∀ id path, p.follow? p.root path = some id → q.follow? q.root path = some (number id))

include hp hq h hnumber

theorem exists_path_to_number {id : Nat} (hid : p.Reached id) :
    ∃ path, p.follow? p.root path = some id ∧ q.follow? q.root path = some (number id) ∧
      q.Reached (number id) ∧ p.subtree id = q.subtree (number id) := by
  obtain ⟨path, hpath⟩ := exists_path hid
  obtain ⟨id', hpath', hid', htree⟩ := hp.follow?_of_subtree_eq hq .refl .refl h hpath
  obtain rfl : id' = number id := Option.some.inj (hpath'.symm.trans (hnumber id path hpath))
  exact ⟨path, hpath, hpath', hid', htree⟩

theorem children_of_paths {id : Nat} (hid : p.Reached id) :
    q.children (number id) = (p.children id).map number := by
  obtain ⟨path, hpath, hpath', hid', htree⟩ := exists_path_to_number hp hq h hnumber hid
  have hlength := congrArg List.length (hp.map_subtree_children hq hid hid' htree)
  simp only [List.length_map] at hlength
  apply List.ext_getElem?
  intro position
  rw [List.getElem?_map]
  cases hchild : (p.children id)[position]? with
  | none =>
    rw [List.getElem?_eq_none_iff] at hchild
    rw [Option.map_none, List.getElem?_eq_none (by omega)]
  | some child =>
    have hbelow := hnumber child _ (follow?_concat_eq_some.mpr ⟨id, hpath, hchild⟩)
    obtain ⟨parent, hparent, hlast⟩ := follow?_concat_eq_some.mp hbelow
    obtain rfl : parent = number id := Option.some.inj (hparent.symm.trans hpath')
    exact hlast

/-- If every node is taken to the one at the end of the same path, then to one of its kind. -/
theorem renumbering_of_paths : Renumbering p q number where
  root_eq := Option.some.inj (hnumber p.root [] rfl)
  nodes_eq := by
    intro id node hid hnode
    obtain ⟨-, -, -, hid', htree⟩ := exists_path_to_number hp hq h hnumber hid
    obtain ⟨node', hnode', hchildren'⟩ := hq.exists_node hid'
    have hchildren := children_of_paths hp hq h hnumber hid
    rw [hchildren', children, hnode] at hchildren
    rw [hp.subtree_eq hid hnode, hq.subtree_eq hid' hnode'] at htree
    rw [hnode', Node.eq_renumber htree hchildren]

end SameTree

/-- Where the trees are the same, a node is taken to the one at the end of the same path. -/
theorem isomorphic_of_tree_eq (hp : p.Counted) (hq : q.Counted) (h : p.tree = q.tree) :
    p.Isomorphic q := by
  have hnumber (id : Nat) : ∃ id', ∀ path, p.follow? p.root path = some id →
      q.follow? q.root path = some id' := by
    by_cases hid : p.Reached id
    · obtain ⟨path, hpath⟩ := exists_path hid
      obtain ⟨id', hpath', -⟩ := hp.follow?_of_subtree_eq hq .refl .refl h hpath
      exact ⟨id', fun other hother => hp.path_unique hpath hother ▸ hpath'⟩
    · exact ⟨0, fun path hpath => absurd (reached_of_follow? .refl hpath) hid⟩
  choose number hnumber using hnumber
  exact ⟨number, renumbering_of_paths hp hq h hnumber⟩

/-- Checked programs are isomorphic just if they have the same tree. -/
theorem isomorphic_iff (hp : p.Counted) (hq : q.Counted) : p.Isomorphic q ↔ p.tree = q.tree := by
  constructor
  · rintro ⟨number, h⟩
    rw [tree, tree, h.root_eq, h.subtree_eq hp hq .refl]
  · exact isomorphic_of_tree_eq hp hq

/-- Programs that pass the check are isomorphic just if they have the same tree. Then they have the
same text, and each evaluation of one ends like that of the other, with the same result or fault and
the same variables. -/
theorem text_eq_and_evaluate_eq (hp : p.check = .ok p) (hq : q.check = .ok q) :
    (p.Isomorphic q ↔ p.tree = q.tree) ∧
    (p.Isomorphic q →
      p.text = q.text ∧ ∀ set, RuleSet.evaluate p set = RuleSet.evaluate q set) := by
  have hp := Counted.of_check hp
  have hq := Counted.of_check hq
  refine ⟨isomorphic_iff hp hq, ?_⟩
  rintro ⟨number, h⟩
  have hroot : SameAt p q p.root q.root := h.root_eq ▸ h.sameAt hp hq .refl
  refine ⟨(hroot.renderAt_eq []).symm, fun set => ?_⟩
  have hresult : p.result set.limits.loopCeiling = q.result set.limits.loopCeiling :=
    congrArg Run.result (hroot.runAt_eq set.limits.loopCeiling).symm
  simp only [RuleSet.evaluate, hresult]

/-- One program begins with its root, the other ends with it and has a node that is its own child,
out of reach of the root. -/
theorem evaluate_eq_renumbered :
    let p : Program :=
      ⟨#[.block [1], .unary .returning 2, .binary .divide 3 4, .number 1, .number 0], 0⟩
    let q : Program :=
      ⟨#[.number 0, .number 1, .unary .negate 2, .binary .divide 1 0, .unary .returning 3,
        .block [4]], 5⟩
    p.check = .ok p ∧ q.check = .ok q ∧ p.Isomorphic q ∧
      q.text = "(seq (return (/ 1 0)))".toList ∧
      ∀ set, RuleSet.evaluate q set = .error (.arithmetic ⟨.divisionByZero, ["(/ 1 0)".toList]⟩)
        ⟨set.limits, { set.store with scratch := [] }⟩ := by
  intro p q
  have hp : p.check = .ok p := by decide
  have hq : q.check = .ok q := by decide
  have hisomorphic : p.Isomorphic q := by
    refine ⟨fun id => [5, 4, 3, 1, 0].getD id 0, rfl, ?_⟩
    intro id node hid hnode
    have hlt : id < 5 := (Counted.of_check hp).reached_lt hid
    interval_cases id <;> cases hnode <;> rfl
  obtain ⟨htext, hevaluate⟩ := (text_eq_and_evaluate_eq hp hq).2 hisomorphic
  refine ⟨hp, hq, hisomorphic, ?_, ?_⟩
  · rw [← htext]
    decide
  · intro set
    rw [← hevaluate set]
    rfl

end Program

end RuleLang

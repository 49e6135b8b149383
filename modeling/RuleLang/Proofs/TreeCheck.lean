import RuleLang.Proofs.Spanning
import RuleLang.Proofs.Unfolding

/-!
What the check of a stored program promises. It counts references: each node may be referred to
once, the root by the program alone. This is enough for a tree under the root. A node on a circle
that the root reaches would have two parents, or be the root. So no path from the root comes back
to a node, none is longer than the number of nodes, and the tree of the root unfolds through
nodes that exist. From the root on, writing and running go from nodes that exist to those under
them, and no bound on the depth shows. Nothing follows about nodes that the root does not reach.
-/
namespace RuleLang

/-- The tree of a node depends on the trees of its children only. -/
theorem Node.tree_congr {node : Node} {subtree subtree' : Nat → Tree}
    (h : ∀ child ∈ node.children, subtree child = subtree' child) :
    node.tree subtree = node.tree subtree' := by
  cases node with
  | block statements => exact congrArg Tree.block (List.map_congr_left h)
  | _ => simp_all [children, tree]

namespace Program

variable {program : Program}

/-- The references of a program repeat no number and are all to nodes that exist. -/
structure Counted (program : Program) : Prop where
  nodup : program.references.Nodup
  in_range : ∀ id ∈ program.references, id < program.nodes.size

def Reached (program : Program) (id : Nat) : Prop :=
  Relation.ReflTransGen program.Child program.root id

/-- The node at the end of a path that goes to the child at each of the given positions. -/
def follow? (program : Program) : Nat → List Nat → Option Nat
  | id, [] => some id
  | id, position :: path => do program.follow? (← (program.children id)[position]?) path

/-- The tree can be read off the nodes from a node on. All nodes on the way exist, and the way is
finite. -/
inductive Unfolds (program : Program) : Nat → Tree → Prop
  | node {id : Nat} {node : Node} {subtree : Nat → Tree} (hnode : program.nodes[id]? = some node)
      (hchildren : ∀ child ∈ node.children, program.Unfolds child (subtree child)) :
      program.Unfolds id (node.tree subtree)

/-- The nodes that the root reaches form a tree, which is the one that is rendered and run. -/
structure IsTree (program : Program) : Prop where
  in_range : ∀ id, program.Reached id → id < program.nodes.size
  acyclic : ∀ id, program.Reached id → ¬ Relation.TransGen program.Child id id
  path_unique : ∀ id, program.Reached id → ∃! path, program.follow? program.root path = some id
  no_infinite_path : ¬ ∃ walk : ℕ → ℕ,
    walk 0 = program.root ∧ ∀ n, program.Child (walk n) (walk (n + 1))
  unfolds_iff : ∀ id, program.Reached id →
    ∀ tree, program.Unfolds id tree ↔ tree = program.subtree id
  renderAt_eq : ∀ id, program.Reached id → ∃ node, program.nodes[id]? = some node ∧
    ∀ tail, program.renderAt tail id = node.renderOnto program.renderAt tail
  runAt_eq : ∀ id, program.Reached id → ∃ node, program.nodes[id]? = some node ∧
    ∀ ceiling, program.runAt ceiling id =
      node.run program.renderAt (program.placeAt? ceiling) (program.runAt ceiling) ceiling
  preorder_nodup : program.preorder.Nodup
  mem_preorder : ∀ id, id ∈ program.preorder ↔ program.Reached id

theorem follow?_append (id : Nat) (path path' : List Nat) :
    program.follow? id (path ++ path') =
      (program.follow? id path).bind (program.follow? · path') := by
  induction path generalizing id with
  | nil => rfl
  | cons position path ih =>
    simp only [List.cons_append, follow?, bind, Option.bind_assoc]
    exact Option.bind_congr fun child _ => ih child

theorem follow?_concat_eq_some {id other position : Nat} {path : List Nat} :
    program.follow? id (path ++ [position]) = some other ↔
      ∃ parent, program.follow? id path = some parent ∧
        (program.children parent)[position]? = some other := by
  simp [follow?_append, follow?, Option.bind_eq_some_iff]

theorem exists_path {id other : Nat} (h : Relation.ReflTransGen program.Child id other) :
    ∃ path, program.follow? id path = some other := by
  induction h with
  | refl => exact ⟨[], rfl⟩
  | tail _ hchild ih =>
    obtain ⟨path, hpath⟩ := ih
    obtain ⟨position, hposition⟩ := List.getElem?_of_mem hchild
    exact ⟨path ++ [position], follow?_concat_eq_some.mpr ⟨_, hpath, hposition⟩⟩

theorem reached_of_follow? {program : Program} {id other : Nat} {path : List Nat}
    (hid : program.Reached id) (h : program.follow? id path = some other) :
    program.Reached other := by
  induction path generalizing id with
  | nil =>
    obtain rfl := Option.some.inj h
    exact hid
  | cons position path ih =>
    obtain ⟨child, hchild, hpath⟩ := Option.bind_eq_some_iff.mp h
    exact ih (hid.tail (List.mem_of_getElem? hchild)) hpath

theorem child_of_mem {parent child : Nat} {node : Node} (hnode : program.nodes[parent]? = some node)
    (hchild : child ∈ node.children) : program.Child parent child := by
  simpa [Child, children, hnode] using hchild

theorem children_eq_of_child {parent child : Nat} (h : program.Child parent child) :
    ∃ node, program.nodes[parent]? = some node ∧ program.children parent = node.children := by
  unfold Child children at h
  cases hnode : program.nodes[parent]? with
  | none => simp [hnode] at h
  | some node => exact ⟨node, rfl, by simp [children, hnode]⟩

theorem mem_links_of_child {parent child : Nat} (h : program.Child parent child) :
    child ∈ program.links := by
  obtain ⟨node, hnode, hchildren⟩ := children_eq_of_child h
  have hchild : child ∈ node.children := hchildren ▸ h
  exact List.mem_flatMap.mpr ⟨node, (Array.mem_of_getElem? hnode).val, hchild⟩

namespace Counted

theorem links_nodup (h : program.Counted) :
    ((List.range program.nodes.size).flatMap program.children).Nodup := by
  rw [flatMap_children_range]
  exact h.nodup.of_append_left

theorem root_ne_child (h : program.Counted) (parent : Nat) :
    ¬ program.Child parent program.root := by
  intro hroot
  have hdisjoint := List.disjoint_of_nodup_append h.nodup
  exact hdisjoint (mem_links_of_child hroot) (List.mem_singleton_self _)

theorem child_lt (h : program.Counted) {parent child : Nat} (hchild : program.Child parent child) :
    child < program.nodes.size :=
  h.in_range child (List.mem_append_left _ (mem_links_of_child hchild))

theorem parent_unique (h : program.Counted) {p q child : Nat} (hp : program.Child p child)
    (hq : program.Child q child) : p = q := by
  by_contra hne
  have hlt {parent : Nat} (hparent : program.Child parent child) :
      parent ∈ List.range program.nodes.size := by
    obtain ⟨node, hnode, -⟩ := children_eq_of_child hparent
    exact List.mem_range.mpr (Array.getElem?_eq_some_iff.mp hnode).1
  have hsymm : Std.Symm (Function.onFun List.Disjoint program.children) :=
    ⟨fun _ _ hdisjoint => hdisjoint.symm⟩
  have hdisjoint := (List.nodup_flatMap.mp h.links_nodup).2
  exact hdisjoint.forall (hlt hp) (hlt hq) hne hp hq

theorem children_nodup (h : program.Counted) (id : Nat) : (program.children id).Nodup := by
  by_cases hid : id < program.nodes.size
  · exact (List.nodup_flatMap.mp h.links_nodup).1 id (List.mem_range.mpr hid)
  · simp [children, hid]

theorem reached_lt (h : program.Counted) {id : Nat} (hid : program.Reached id) :
    id < program.nodes.size := by
  cases hid with
  | refl => exact h.in_range _ (List.mem_append_right _ (List.mem_singleton_self _))
  | tail _ hchild => exact h.child_lt hchild

/-- A circle through a child goes through its only parent. -/
theorem acyclic (h : program.Counted) {id : Nat} (hid : program.Reached id) :
    ¬ Relation.TransGen program.Child id id := by
  induction hid with
  | refl =>
    intro hcircle
    cases hcircle with
    | single hroot => exact h.root_ne_child _ hroot
    | tail _ hroot => exact h.root_ne_child _ hroot
  | @tail parent child _ hchild ih =>
    intro hcircle
    apply ih
    cases hcircle with
    | single hself =>
      obtain rfl := h.parent_unique hchild hself
      exact .single hself
    | tail hback hlast =>
      obtain rfl := h.parent_unique hchild hlast
      exact .head hchild hback

/-- What different children of a node reach is different. -/
theorem disjoint_below (h : program.Counted) {id child child' other : Nat}
    (hid : program.Reached id) (hchild : program.Child id child)
    (hchild' : program.Child id child') (hne : child ≠ child')
    (hother : Relation.ReflTransGen program.Child child other) :
    ¬ Relation.ReflTransGen program.Child child' other := by
  have hapart {c c' : Nat} (hc : program.Child id c) (hc' : program.Child id c') (hne : c ≠ c') :
      ¬ Relation.ReflTransGen program.Child c c' := by
    intro hbelow
    rcases Relation.ReflTransGen.cases_tail hbelow with rfl | ⟨parent, hparent, hlast⟩
    · exact hne rfl
    · obtain rfl := h.parent_unique hc' hlast
      exact h.acyclic hid (.head' hc hparent)
  intro hother'
  have hunique : Relator.RightUnique (Function.swap program.Child) :=
    fun _ _ _ hp hq => h.parent_unique hp hq
  rcases Relation.ReflTransGen.total_of_right_unique hunique hother.swap hother'.swap
    with hbelow | hbelow
  · exact hapart hchild' hchild (Ne.symm hne) (Relation.reflTransGen_swap.mp hbelow)
  · exact hapart hchild hchild' hne (Relation.reflTransGen_swap.mp hbelow)

/-- The last step of a path is known from its end, since the end has one parent, at one place. -/
theorem path_unique (h : program.Counted) {id : Nat} {path path' : List Nat}
    (hpath : program.follow? program.root path = some id)
    (hpath' : program.follow? program.root path' = some id) : path = path' := by
  have hroot {path : List Nat} {position : Nat} :
      program.follow? program.root (path ++ [position]) ≠ some program.root := by
    intro hback
    obtain ⟨parent, -, hlast⟩ := follow?_concat_eq_some.mp hback
    exact h.root_ne_child parent (List.mem_of_getElem? hlast)
  induction path using List.reverseRecOn generalizing id path' with
  | nil =>
    cases hpath
    rcases List.eq_nil_or_concat path' with rfl | ⟨front, position, rfl⟩
    · rfl
    · exact absurd (List.concat_eq_append ▸ hpath') hroot
  | append_singleton path position ih =>
    rcases List.eq_nil_or_concat path' with rfl | ⟨front, position', rfl⟩
    · cases hpath'
      exact absurd hpath hroot
    · rw [List.concat_eq_append] at hpath' ⊢
      obtain ⟨parent, hfront, hlast⟩ := follow?_concat_eq_some.mp hpath
      obtain ⟨parent', hfront', hlast'⟩ := follow?_concat_eq_some.mp hpath'
      obtain rfl := h.parent_unique (List.mem_of_getElem? hlast) (List.mem_of_getElem? hlast')
      obtain ⟨hlt, -⟩ := List.getElem?_eq_some_iff.mp hlast
      have hposition :=
        (List.getElem?_inj hlt (h.children_nodup parent)).mp (hlast.trans hlast'.symm)
      rw [ih hfront hfront', hposition]

/-- Induction over what the root reaches, from the leaves up. As no node comes twice on a path, the
number of nodes is depth enough for the root. -/
theorem induction_on_depth (h : program.Counted) {P : Nat → Nat → Prop}
    (step : ∀ depth id, program.Reached id → (∀ child, program.Child id child → P depth child) →
      P (depth + 1) id) {id : Nat} (hid : program.Reached id) : P program.nodes.size id := by
  have hbelow (depth : Nat) : ∀ (above : List Nat) (id : Nat), program.Reached id → above.Nodup →
      (∀ a ∈ above, a < program.nodes.size ∧ Relation.TransGen program.Child a id) →
      program.nodes.size ≤ above.length + depth → P depth id := by
    induction depth with
    | zero =>
      intro above id hid hnodup habove hsize
      have hnew : (id :: above).Nodup :=
        List.nodup_cons.mpr ⟨fun hmem => h.acyclic hid (habove id hmem).2, hnodup⟩
      have hsub : id :: above ⊆ List.range program.nodes.size := by
        intro a ha
        rcases List.mem_cons.mp ha with rfl | ha
        · exact List.mem_range.mpr (h.reached_lt hid)
        · exact List.mem_range.mpr (habove a ha).1
      have hlength := (List.subperm_of_subset hnew hsub).length_le
      simp only [List.length_cons, List.length_range] at hlength
      omega
    | succ depth ih =>
      intro above id hid hnodup habove hsize
      refine step depth id hid fun child hchild => ih (id :: above) child (hid.tail hchild) ?_ ?_ ?_
      · exact List.nodup_cons.mpr ⟨fun hmem => h.acyclic hid (habove id hmem).2, hnodup⟩
      · intro a ha
        rcases List.mem_cons.mp ha with rfl | ha
        · exact ⟨h.reached_lt hid, .single hchild⟩
        · exact ⟨(habove a ha).1, (habove a ha).2.tail hchild⟩
      · simp only [List.length_cons]
        omega
  exact hbelow program.nodes.size [] id hid .nil (by simp) (by simp)

theorem unfolds_subtree (h : program.Counted) {id : Nat} (hid : program.Reached id) :
    program.Unfolds id (program.subtree id) := by
  refine h.induction_on_depth (P := fun depth id => program.Unfolds id (program.unfold depth id))
    (fun depth id hid ih => ?_) hid
  have hlt := h.reached_lt hid
  have hnode := Array.getElem?_eq_getElem hlt
  rw [unfold, node_eq hnode]
  exact .node hnode fun child hchild => ih child (child_of_mem hnode hchild)

theorem mem_preorderTo (h : program.Counted) {id other : Nat} (hid : program.Reached id)
    (hother : Relation.ReflTransGen program.Child id other) :
    other ∈ program.preorderTo program.nodes.size id := by
  refine h.induction_on_depth
    (P := fun depth id => ∀ other, Relation.ReflTransGen program.Child id other →
      other ∈ program.preorderTo depth id)
    (fun depth id hid ih other hother => ?_) hid other hother
  rw [preorderTo]
  rcases Relation.ReflTransGen.cases_head hother with rfl | ⟨child, hchild, hbelow⟩
  · exact List.mem_cons_self
  · exact List.mem_cons_of_mem _ (List.mem_flatMap.mpr ⟨child, hchild, ih child hchild _ hbelow⟩)

theorem preorderTo_nodup (h : program.Counted) {id : Nat} (hid : program.Reached id) :
    (program.preorderTo program.nodes.size id).Nodup := by
  refine h.induction_on_depth (P := fun depth id => (program.preorderTo depth id).Nodup)
    (fun depth id hid ih => ?_) hid
  rw [preorderTo, List.nodup_cons, List.nodup_flatMap]
  refine ⟨?_, ih, ?_⟩
  · intro hmem
    obtain ⟨child, hchild, hback⟩ := List.mem_flatMap.mp hmem
    exact h.acyclic hid (.head' hchild (reached_of_mem_preorderTo hback))
  · refine (h.children_nodup id).imp_of_mem fun hchild hchild' hne other hother hother' => ?_
    exact h.disjoint_below hid hchild hchild' hne (reached_of_mem_preorderTo hother)
      (reached_of_mem_preorderTo hother')

end Counted

theorem Unfolds.unique {id : Nat} {tree tree' : Tree} (h : program.Unfolds id tree)
    (h' : program.Unfolds id tree') : tree = tree' := by
  induction h generalizing tree' with
  | node hnode hchildren ih =>
    cases h' with
    | node hnode' hchildren' =>
      rw [hnode] at hnode'
      cases hnode'
      exact Node.tree_congr fun child hchild => ih child hchild (hchildren' child hchild)

theorem Unfolds.no_infinite_path {id : Nat} {tree : Tree} (h : program.Unfolds id tree)
    (walk : ℕ → ℕ) (hstart : walk 0 = id) : ¬ ∀ n, program.Child (walk n) (walk (n + 1)) := by
  induction h generalizing walk with
  | node hnode hchildren ih =>
    intro hwalk
    have hchild := hwalk 0
    rw [hstart] at hchild
    simp only [Child, children, hnode, Option.map_some, Option.getD_some] at hchild
    exact ih _ hchild (fun n => walk (n + 1)) rfl fun n => hwalk (n + 1)

namespace Counted

theorem of_check (h : program.check = .ok program) : program.Counted := by
  obtain ⟨hnodup, hrange⟩ := (check_eq_ok_iff program).mp h
  exact ⟨hnodup, hrange⟩

theorem exists_node (h : program.Counted) {id : Nat} (hid : program.Reached id) :
    ∃ node, program.nodes[id]? = some node ∧ program.children id = node.children := by
  have hnode := Array.getElem?_eq_getElem (h.reached_lt hid)
  exact ⟨_, hnode, by simp [children, hnode]⟩

/-- The tree of a node is put together from those of its children. -/
theorem subtree_eq (h : program.Counted) {id : Nat} {node : Node} (hid : program.Reached id)
    (hnode : program.nodes[id]? = some node) :
    program.subtree id = node.tree program.subtree := by
  have hunfolds := h.unfolds_subtree hid
  generalize program.subtree id = tree at hunfolds
  cases hunfolds with
  | @node _ node' subtree hnode' hchildren =>
    obtain rfl : node = node' := Option.some.inj (hnode.symm.trans hnode')
    refine Node.tree_congr fun child hchild => ?_
    have hbelow := h.unfolds_subtree (hid.tail (child_of_mem hnode hchild))
    exact (hchildren child hchild).unique hbelow

section Nodes

variable (h : program.Counted) {id : Nat} {node : Node} (hid : program.Reached id)
  (hnode : program.nodes[id]? = some node)

include h hid hnode

/-- A node is written by way of the nodes under it. -/
theorem renderAt_of_node (tail : Text) :
    program.renderAt tail id = node.renderOnto program.renderAt tail := by
  have htree := Node.renderOnto_tree program.subtree tail node
  rw [← h.subtree_eq hid hnode] at htree
  rwa [renderAt_eq]

theorem placeAt?_of_node (ceiling : Nat) :
    program.placeAt? ceiling id = node.place? (program.runAt ceiling) := by
  have htree := Node.place?_tree program.subtree ceiling node
  rw [← h.subtree_eq hid hnode] at htree
  rwa [placeAt?_eq, runAt_eq]

/-- A node is run by way of the nodes under it. -/
theorem runAt_of_node (ceiling : Nat) :
    program.runAt ceiling id =
      node.run program.renderAt (program.placeAt? ceiling) (program.runAt ceiling) ceiling := by
  have htree := Node.run_tree program.subtree ceiling node
  rw [← h.subtree_eq hid hnode] at htree
  rwa [renderAt_eq, placeAt?_eq, runAt_eq]

end Nodes

end Counted

theorem Counted.isTree (h : program.Counted) : program.IsTree where
  in_range _ := h.reached_lt
  acyclic _ := h.acyclic
  path_unique id hid := by
    obtain ⟨path, hpath⟩ := exists_path hid
    exact ⟨path, hpath, fun path' hpath' => h.path_unique hpath' hpath⟩
  no_infinite_path := by
    rintro ⟨walk, hstart, hwalk⟩
    exact (h.unfolds_subtree .refl).no_infinite_path walk hstart hwalk
  unfolds_iff id hid tree := by
    constructor
    · exact fun hunfolds => hunfolds.unique (h.unfolds_subtree hid)
    · rintro rfl
      exact h.unfolds_subtree hid
  renderAt_eq id hid := by
    obtain ⟨node, hnode, -⟩ := h.exists_node hid
    exact ⟨node, hnode, h.renderAt_of_node hid hnode⟩
  runAt_eq id hid := by
    obtain ⟨node, hnode, -⟩ := h.exists_node hid
    exact ⟨node, hnode, h.runAt_of_node hid hnode⟩
  preorder_nodup := h.preorderTo_nodup .refl
  mem_preorder _ := ⟨reached_of_mem_preorderTo, h.mem_preorderTo .refl⟩

/-- The bad reference that is found is the first to a node that has been seen or is none. -/
theorem badReference?_eq_some_iff (seen : Array Bool) (ids : List Nat) (id : Nat) :
    badReference? seen ids = some id ↔
      ∃ before after, ids = before ++ id :: after ∧ before.Nodup ∧
        (∀ x ∈ before, seen[x]? = some false) ∧ (seen[id]? ≠ some false ∨ id ∈ before) := by
  induction ids generalizing seen with
  | nil => simp [badReference?]
  | cons x ids ih =>
    rw [badReference?]
    split
    case isTrue hx =>
      rw [ih]
      constructor
      · rintro ⟨before, after, rfl, hnodup, hbefore, hid⟩
        refine ⟨x :: before, after, rfl, ?_, ?_, ?_⟩
        · exact List.nodup_cons.mpr
            ⟨fun hmem => ((seen_setIfInBounds _ _ _).mp (hbefore x hmem)).1 rfl, hnodup⟩
        · intro y hy
          rcases List.mem_cons.mp hy with rfl | hy
          · exact hx
          · exact ((seen_setIfInBounds _ _ _).mp (hbefore y hy)).2
        · rw [List.mem_cons, or_left_comm]
          rw [Ne, seen_setIfInBounds] at hid
          grind
      · rintro ⟨before, after, heq, hnodup, hbefore, hid⟩
        cases before with
        | nil =>
          cases heq
          simp [hx] at hid
        | cons y before =>
          rw [List.cons_append, List.cons.injEq] at heq
          obtain ⟨rfl, rfl⟩ := heq
          obtain ⟨hy, hnodup⟩ := List.nodup_cons.mp hnodup
          refine ⟨before, after, rfl, hnodup, fun z hz => ?_, ?_⟩
          · exact (seen_setIfInBounds _ _ _).mpr
              ⟨fun hzy => hy (hzy ▸ hz), hbefore z (List.mem_cons_of_mem _ hz)⟩
          · rw [Ne, seen_setIfInBounds]
            rw [List.mem_cons] at hid
            grind
    case isFalse hx =>
      constructor
      · rintro ⟨⟩
        exact ⟨[], ids, rfl, .nil, by simp, .inl hx⟩
      · rintro ⟨before, after, heq, hnodup, hbefore, hid⟩
        cases before with
        | nil => cases heq; rfl
        | cons y before =>
          rw [List.cons_append, List.cons.injEq] at heq
          obtain ⟨rfl, -⟩ := heq
          exact absurd (hbefore x List.mem_cons_self) hx

/-- A reference is refused if it is out of range or repeats an earlier one. -/
theorem check_eq_error_iff (program : Program) (fault : Fault) :
    program.check = .error fault ↔
      ∃ before id after, program.references = before ++ id :: after ∧ before.Nodup ∧
        (∀ x ∈ before, x < program.nodes.size) ∧ (program.nodes.size ≤ id ∨ id ∈ before) ∧
        fault = .syntactic ⟨.notATree, [.ofNat id]⟩ := by
  have hbad (id : Nat) := badReference?_eq_some_iff
    (Array.replicate program.nodes.size false) program.references id
  simp only [Ne, seen_replicate, Nat.not_lt] at hbad
  have hcheck : program.check = .error fault ↔
      ∃ id, badReference? (Array.replicate program.nodes.size false) program.references = some id ∧
        fault = .syntactic ⟨.notATree, [.ofNat id]⟩ := by
    unfold check
    split
    case h_1 hnone => simp [hnone]
    case h_2 id hsome => simp [hsome, eq_comm]
  rw [hcheck]
  constructor
  · rintro ⟨id, hid, hfault⟩
    obtain ⟨before, after, heq, hnodup, hbefore, hlast⟩ := (hbad id).mp hid
    exact ⟨before, id, after, heq, hnodup, hbefore, hlast, hfault⟩
  · rintro ⟨before, id, after, heq, hnodup, hbefore, hlast, hfault⟩
    exact ⟨id, (hbad id).mpr ⟨before, after, heq, hnodup, hbefore, hlast⟩, hfault⟩

/-- The check accepts just the programs in whose references, the root the last of them, no number
is out of range or repeated, and names the first that is. Under the root of what it accepts the
nodes are a tree. -/
theorem check_exact_and_isTree (program : Program) :
    (program.check = .ok program ↔ program.Counted) ∧
    (∀ fault, program.check = .error fault ↔
      ∃ before id after, program.references = before ++ id :: after ∧ before.Nodup ∧
        (∀ x ∈ before, x < program.nodes.size) ∧ (program.nodes.size ≤ id ∨ id ∈ before) ∧
        fault = .syntactic ⟨.notATree, [.ofNat id]⟩) ∧
    (program.check = .ok program → program.IsTree) := by
  have hok : program.check = .ok program ↔ program.Counted := by
    rw [check_eq_ok_iff]
    exact ⟨fun h => ⟨h.1, h.2⟩, fun h => ⟨h.nodup, h.in_range⟩⟩
  exact ⟨hok, check_eq_error_iff program, fun h => (hok.mp h).isTree⟩

/-- Two nodes refer to each other, out of reach of the root. -/
theorem check_detached_circle :
    let program : Program :=
      ⟨#[.block [3], .unary .negate 2, .unary .negate 1, .number 7], 0⟩
    program.check = .ok program ∧ program.IsTree ∧ program.Child 1 2 ∧ program.Child 2 1 := by
  intro program
  have hcheck : program.check = .ok program := by decide
  have hnext : program.Child 1 2 := List.mem_singleton_self _
  have hback : program.Child 2 1 := List.mem_singleton_self _
  exact ⟨hcheck, (check_exact_and_isTree program).2.2 hcheck, hnext, hback⟩

end Program
end RuleLang

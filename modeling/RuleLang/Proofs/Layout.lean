import RuleLang.Proofs.Tree

/-!
Where the nodes of a tree stand. A tree *stands* among nodes at two numbers: the nodes of its stem
from the one on, the late ones from the other. The numbers of all its nodes follow from the two, so
a tree stands in one way only, and a layout makes it stand.

A program *stores* trees at some nodes if unfolding from these nodes gives the trees back, and if a
list of numbers is made of exactly the nodes it walks through: the nodes given at the start and the
children of all nodes in the list. A tree that stands in a program is stored in two stretches of
numbers, one for its stem and one for its late nodes.
-/
namespace RuleLang

namespace Tree

/-- The number of the root of a tree whose stem begins at `next`. It is the last node of the stem. -/
def rootAt (tree : Tree) (next : Nat) : Nat := next + (tree.stemSize - 1)

/-- The roots of trees that stand one after the other, each with its late nodes. -/
def rootsAt (next : Nat) : List Tree → List Nat
  | [] => []
  | tree :: trees => tree.rootAt next :: rootsAt (next + tree.size) trees

variable (nodes : Array Node)

mutual

/-- The nodes of a tree stand among others, those of its stem from the number `next` on and the late
ones from the number `late` on. -/
def Stands : Tree → Nat → Nat → Prop
  | empty, next, _ => nodes[next]? = some .empty
  | number value, next, _ => nodes[next]? = some (.number value)
  | name x, next, _ => nodes[next]? = some (.name x)
  | element x index, next, late =>
    index.Stands next late ∧ nodes[next + index.stemSize]? = some (.element x (index.rootAt next))
  | cell x row column, next, late =>
    row.Stands next late ∧ column.Stands (next + row.stemSize) (late + row.lateSize) ∧
      nodes[next + row.stemSize + column.stemSize]? =
        some (.cell x (row.rootAt next) (column.rootAt (next + row.stemSize)))
  | unary op operand, next, late =>
    operand.Stands next late ∧
      nodes[next + operand.stemSize]? = some (.unary op (operand.rootAt next))
  | binary op left right, next, late =>
    left.Stands next late ∧ right.Stands (next + left.stemSize) (late + left.lateSize) ∧
      nodes[next + left.stemSize + right.stemSize]? =
        some (.binary op (left.rootAt next) (right.rootAt (next + left.stemSize)))
  | ifThen condition yes, next, late =>
    condition.Stands next late ∧
      yes.Stands (next + condition.stemSize) (late + condition.lateSize) ∧
      nodes[next + condition.stemSize + yes.stemSize]? =
        some (.ifThen (condition.rootAt next) (yes.rootAt (next + condition.stemSize)))
  | ifElse condition yes no, next, late =>
    condition.Stands next late ∧
      yes.Stands (next + condition.stemSize) (late + condition.lateSize) ∧
      no.Stands (late + condition.lateSize + yes.lateSize)
        (late + condition.lateSize + yes.lateSize + no.stemSize) ∧
      nodes[next + condition.stemSize + yes.stemSize]? =
        some (.ifElse (condition.rootAt next) (yes.rootAt (next + condition.stemSize))
          (no.rootAt (late + condition.lateSize + yes.lateSize)))
  | whileLoop condition body, next, late =>
    condition.Stands next late ∧
      body.Stands (next + condition.stemSize) (late + condition.lateSize) ∧
      nodes[next + condition.stemSize + body.stemSize]? =
        some (.whileLoop (condition.rootAt next) (body.rootAt (next + condition.stemSize)))
  | forLoop start condition update body, next, late =>
    start.Stands next late ∧
      condition.Stands (next + start.stemSize) (late + start.lateSize) ∧
      update.Stands (next + start.stemSize + condition.stemSize)
        (late + start.lateSize + condition.lateSize) ∧
      body.Stands (next + start.stemSize + condition.stemSize + update.stemSize)
        (late + start.lateSize + condition.lateSize + update.lateSize) ∧
      nodes[next + start.stemSize + condition.stemSize + update.stemSize + body.stemSize]? =
        some (.forLoop (start.rootAt next) (condition.rootAt (next + start.stemSize))
          (update.rootAt (next + start.stemSize + condition.stemSize))
          (body.rootAt (next + start.stemSize + condition.stemSize + update.stemSize)))
  | block statements, next, _ =>
    StandAll statements next ∧
      nodes[next + sizeAll statements]? = some (.block (rootsAt next statements))
  | breakLoop, next, _ => nodes[next]? = some .breakLoop

/-- Trees stand one after the other, each with its late nodes after its stem. -/
def StandAll : List Tree → Nat → Prop
  | [], _ => True
  | tree :: trees, next =>
    tree.Stands next (next + tree.stemSize) ∧ StandAll trees (next + tree.size)

end
end Tree

namespace Layout

/-- The nodes of a row stand one after the other, from the number `first` on. -/
def Holds (nodes : Array Node) (first : Nat) (row : List Node) : Prop :=
  ∀ k, k < row.length → nodes[first + k]? = row[k]?

theorem holds_append {nodes : Array Node} {first : Nat} {front back : List Node} :
    Holds nodes first (front ++ back) ↔
      Holds nodes first front ∧ Holds nodes (first + front.length) back := by
  constructor
  · intro h
    constructor
    · intro k hk
      rw [h k (by rw [List.length_append]; omega), List.getElem?_append_left hk]
    · intro k hk
      rw [Nat.add_assoc, h (front.length + k) (by rw [List.length_append]; omega),
        List.getElem?_append_right (by omega), Nat.add_sub_cancel_left]
  · rintro ⟨hfront, hback⟩ k hk
    rw [List.length_append] at hk
    by_cases hlt : k < front.length
    · rw [hfront k hlt, List.getElem?_append_left hlt]
    · have h := hback (k - front.length) (by omega)
      rw [List.getElem?_append_right (by omega), ← h]
      congr 1
      omega

/-- The step puts `stemSize` nodes into the stem and `lateSize` late ones, and gives `a`. The nodes
stand as `standing` says if both rows stand from their first numbers on. -/
def Lays {α : Type} (act : StateM Layout α) (next nextLate stemSize lateSize : Nat) (a : α)
    (standing : Array Node → Prop) : Prop :=
  ∃ stem late : List Node, stem.length = stemSize ∧ late.length = lateSize ∧
    (∀ before beforeLate, act ⟨before, next, beforeLate, nextLate⟩ =
      (a, ⟨stem.reverse ++ before, next + stemSize,
        late.reverse ++ beforeLate, nextLate + lateSize⟩)) ∧
    ∀ nodes, standing nodes ↔ Holds nodes next stem ∧ Holds nodes nextLate late

variable {α β : Type} {next nextLate s e s' e' : Nat}

theorem Lays.cast {act : StateM Layout α} {a a' : α} {standing standing' : Array Node → Prop}
    (h : Lays act next nextLate s e a standing) (hs : s' = s) (he : e' = e) (ha : a' = a)
    (hstanding : ∀ nodes, standing' nodes ↔ standing nodes) :
    Lays act next nextLate s' e' a' standing' := by
  subst hs he ha
  obtain ⟨stem, late, hstem, hlate, hact, h⟩ := h
  exact ⟨stem, late, hstem, hlate, hact, fun nodes => (hstanding nodes).trans (h nodes)⟩

theorem lays_pure (a : α) : Lays (pure a) next nextLate 0 0 a fun _ => True :=
  ⟨[], [], rfl, rfl, fun _ _ => rfl, fun _ => by simp [Holds]⟩

theorem Lays.bind {act : StateM Layout α} {f : α → StateM Layout β} {a : α} {b : β}
    {first second : Array Node → Prop} (h : Lays act next nextLate s e a first)
    (hf : Lays (f a) (next + s) (nextLate + e) s' e' b second) :
    Lays (act >>= f) next nextLate (s + s') (e + e') b fun nodes => first nodes ∧ second nodes := by
  obtain ⟨stem, late, rfl, rfl, hact, hfirst⟩ := h
  obtain ⟨stem', late', rfl, rfl, hact', hsecond⟩ := hf
  refine ⟨stem ++ stem', late ++ late', List.length_append, List.length_append, ?_, ?_⟩
  · intro before beforeLate
    change f (act _).1 (act _).2 = _
    rw [hact, hact']
    simp only [List.reverse_append, List.append_assoc, Nat.add_assoc]
  · intro nodes
    rw [holds_append, holds_append]
    exact (and_congr (hfirst nodes) (hsecond nodes)).trans and_and_and_comm

theorem lays_push (node : Node) :
    Lays (push node) next nextLate 1 0 next fun nodes => nodes[next]? = some node :=
  ⟨[node], [], rfl, rfl, fun _ _ => rfl, fun nodes => by simp [Holds]⟩

theorem Lays.putOff {place : StateM Layout Nat} {id : Nat} {standing : Array Node → Prop}
    (h : Lays place nextLate (nextLate + s) s e id standing) :
    Lays (Layout.putOff s place) next nextLate 0 (s + e) id standing := by
  obtain ⟨stem, late, rfl, rfl, hplace, h⟩ := h
  refine ⟨[], stem ++ late, rfl, List.length_append, ?_, ?_⟩
  · intro before beforeLate
    unfold Layout.putOff start
    rw [hplace]
    simp [Nat.add_assoc]
  · intro nodes
    rw [h, holds_append]
    simp [Holds]

theorem Lays.putWhole {place : StateM Layout Nat} {id : Nat} {standing : Array Node → Prop}
    (h : Lays place next (next + s) s e id standing) (nextLate : Nat) :
    Lays (Layout.putWhole s place) next nextLate (s + e) 0 id standing := by
  obtain ⟨stem, late, rfl, rfl, hplace, h⟩ := h
  refine ⟨stem ++ late, [], List.length_append, rfl, ?_, ?_⟩
  · intro before beforeLate
    unfold Layout.putWhole start
    rw [hplace]
    simp [Nat.add_assoc]
  · intro nodes
    rw [h, holds_append]
    simp [Holds]

/-- What stands is up to the nodes at the numbers of the two rows. -/
theorem Lays.congr {act : StateM Layout α} {a : α} {standing : Array Node → Prop}
    {nodes nodes' : Array Node} (h : Lays act next nextLate s e a standing) (hnodes : standing nodes)
    (hstem : ∀ k, next ≤ k → k < next + s → nodes'[k]? = nodes[k]?)
    (hlate : ∀ k, nextLate ≤ k → k < nextLate + e → nodes'[k]? = nodes[k]?) : standing nodes' := by
  obtain ⟨stem, late, rfl, rfl, -, hstanding⟩ := h
  obtain ⟨hs, hl⟩ := (hstanding nodes).mp hnodes
  refine (hstanding nodes').mpr ⟨fun k hk => ?_, fun k hk => ?_⟩
  · rw [hstem _ (by omega) (by omega), hs k hk]
  · rw [hlate _ (by omega) (by omega), hl k hk]

end Layout

namespace Tree

open Layout

theorem lays_placeAll {trees : List Tree}
    (h : ∀ t ∈ trees, ∀ next late,
      Lays t.place next late t.stemSize t.lateSize (t.rootAt next) (t.Stands · next late))
    (next late : Nat) :
    Lays (placeAll trees) next late (sizeAll trees) 0 (rootsAt next trees)
      (StandAll · trees next) := by
  induction trees generalizing next with
  | nil => exact lays_pure []
  | cons tree trees ih =>
    obtain ⟨htree, htrees⟩ := List.forall_mem_cons.mp h
    have hwhole := (htree next (next + tree.stemSize)).putWhole late
    rw [stemSize_add_lateSize] at hwhole
    unfold placeAll
    exact .cast (hwhole.bind ((ih htrees _).bind (lays_pure _))) rfl rfl rfl fun nodes => by
      simp [StandAll]

/-- Laying a tree out gives the number of its root, and makes rows of nodes that stand exactly where
the tree stands. -/
theorem lays_place (tree : Tree) (next late : Nat) :
    Lays tree.place next late tree.stemSize tree.lateSize (tree.rootAt next)
      (tree.Stands · next late) := by
  induction tree generalizing next late with
  | empty | number | name | breakLoop => exact lays_push _
  | element x child ih | unary op child ih =>
    unfold place
    exact .cast ((ih next late).bind (lays_push _)) rfl rfl rfl fun nodes => .rfl
  | cell x left right ihl ihr | binary op left right ihl ihr | ifThen left right ihl ihr
  | whileLoop left right ihl ihr =>
    unfold place
    refine .cast ((ihl next late).bind ((ihr _ _).bind (lays_push _))) rfl rfl ?_ fun nodes => .rfl
    simp [rootAt, stemSize, Nat.add_assoc]
  | ifElse condition yes no ihc ihy ihn =>
    have hsize := no.stemSize_add_lateSize
    unfold place
    refine .cast ((ihc next late).bind ((ihy _ _).bind ((ihn _ _).putOff.bind (lays_push _))))
      rfl ?_ ?_ fun nodes => .rfl
    · simp only [lateSize]
      omega
    · simp only [rootAt, stemSize]
      omega
  | forLoop start condition update body ihs ihc ihu ihb => 
    unfold place
    refine .cast ((ihs next late).bind ((ihc _ _).bind ((ihu _ _).bind
      ((ihb _ _).bind (lays_push _))))) ?_ ?_ ?_ fun nodes => .rfl
    all_goals
      simp only [rootAt, stemSize, lateSize]
      omega
  | block statements ih =>
    unfold place
    exact .cast ((lays_placeAll ih next late).bind (lays_push _)) rfl rfl rfl fun nodes => .rfl

/-- How a tree stands is up to the nodes at its own numbers. -/
theorem Stands.congr {tree : Tree} {nodes nodes' : Array Node} {next late : Nat}
    (h : tree.Stands nodes next late)
    (hstem : ∀ k, next ≤ k → k < next + tree.stemSize → nodes'[k]? = nodes[k]?)
    (hlate : ∀ k, late ≤ k → k < late + tree.lateSize → nodes'[k]? = nodes[k]?) :
    tree.Stands nodes' next late :=
  (tree.lays_place next late).congr h hstem hlate

theorem StandAll.congr {trees : List Tree} {nodes nodes' : Array Node} {next : Nat}
    (h : StandAll nodes trees next)
    (hnodes : ∀ k, next ≤ k → k < next + sizeAll trees → nodes'[k]? = nodes[k]?) :
    StandAll nodes' trees next :=
  (lays_placeAll (fun t _ => t.lays_place) next 0).congr h hnodes fun k _ _ => by omega

theorem rootsAt_concat (front : List Tree) (tree : Tree) (next : Nat) :
    rootsAt next (front ++ [tree]) = rootsAt next front ++ [tree.rootAt (next + sizeAll front)] := by
  induction front generalizing next with
  | nil => rfl
  | cons first front ih => simp only [List.cons_append, rootsAt, sizeAll, ih, Nat.add_assoc]

theorem standAll_concat {front : List Tree} {tree : Tree} {nodes : Array Node} {next : Nat} :
    StandAll nodes (front ++ [tree]) next ↔ StandAll nodes front next ∧
      tree.Stands nodes (next + sizeAll front) (next + sizeAll front + tree.stemSize) := by
  induction front generalizing next with
  | nil => simp [StandAll, sizeAll]
  | cons first front ih =>
    simp only [List.cons_append, StandAll, sizeAll, ih, Nat.add_assoc, and_assoc]

end Tree

namespace Program

/-- The trees are stored at the nodes `roots`, and `ids` are the numbers of all their nodes. -/
structure Stores (program : Program) (trees : List Tree) (roots ids : List Nat) : Prop where
  unfold_eq : ∀ depth, Tree.sizeAll trees ≤ depth → roots.map (program.unfold depth) = trees
  preorder_perm : ∀ depth, Tree.sizeAll trees ≤ depth →
    (roots.flatMap (program.preorderTo depth)).Perm ids
  links_perm : (roots ++ ids.flatMap program.children).Perm ids

variable {program : Program}

theorem Stores.nil : program.Stores [] [] [] where
  unfold_eq _ _ := rfl
  preorder_perm _ _ := .refl _
  links_perm := .refl _

theorem Stores.append {trees trees' : List Tree} {roots roots' ids ids' : List Nat}
    (h : program.Stores trees roots ids) (h' : program.Stores trees' roots' ids') :
    program.Stores (trees ++ trees') (roots ++ roots') (ids ++ ids') where
  unfold_eq depth hdepth := by
    rw [Tree.sizeAll_append] at hdepth
    rw [List.map_append, h.unfold_eq depth (by omega), h'.unfold_eq depth (by omega)]
  preorder_perm depth hdepth := by
    rw [Tree.sizeAll_append] at hdepth
    rw [List.flatMap_append]
    exact (h.preorder_perm depth (by omega)).append (h'.preorder_perm depth (by omega))
  links_perm := by
    rw [List.flatMap_append]
    refine .trans ?_ (h.links_perm.append h'.links_perm)
    simp only [List.perm_iff_count, List.count_append]
    omega

theorem Stores.perm {trees : List Tree} {roots ids ids' : List Nat}
    (h : program.Stores trees roots ids) (hids : ids.Perm ids') :
    program.Stores trees roots ids' where
  unfold_eq := h.unfold_eq
  preorder_perm depth hdepth := (h.preorder_perm depth hdepth).trans hids
  links_perm := ((hids.flatMap_right _).append_left _).symm.trans (h.links_perm.trans hids)

/-- A node whose children store the subtrees of a tree stores the tree. -/
theorem Stores.node {node : Node} {tree : Tree} {trees : List Tree} {id : Nat} {ids : List Nat}
    (h : program.Stores trees node.children ids) (hnode : program.nodes[id]? = some node)
    (hsize : tree.size = Tree.sizeAll trees + 1)
    (htree : ∀ subtree, node.children.map subtree = trees → node.tree subtree = tree) :
    program.Stores [tree] [id] (ids ++ [id]) where
  unfold_eq depth hdepth := by
    obtain ⟨depth, rfl⟩ : ∃ d, depth = d + 1 :=
      ⟨depth - 1, by simp only [Tree.sizeAll] at hdepth; omega⟩
    simp only [Tree.sizeAll] at hdepth
    simp [unfold, node_eq hnode, htree _ (h.unfold_eq depth (by omega))]
  preorder_perm depth hdepth := by
    obtain ⟨depth, rfl⟩ : ∃ d, depth = d + 1 :=
      ⟨depth - 1, by simp only [Tree.sizeAll] at hdepth; omega⟩
    simp only [Tree.sizeAll] at hdepth
    have hbelow := h.preorder_perm depth (by omega)
    simp only [List.flatMap_singleton, preorderTo, children, hnode, Option.map_some,
      Option.getD_some]
    exact (hbelow.cons id).trans (List.perm_append_singleton id ids).symm
  links_perm := by
    have hlinks := h.links_perm
    simp only [List.perm_iff_count, List.count_append, List.flatMap_append,
      List.flatMap_singleton] at hlinks ⊢
    intro x
    have hx := hlinks x
    simp only [children, hnode, Option.map_some, Option.getD_some] at hx ⊢
    omega

/-- The trees are stored in a stretch of `stemSize` numbers and one of `lateSize` numbers. -/
def StoresAt (program : Program) (next nextLate stemSize lateSize : Nat) (trees : List Tree)
    (roots : List Nat) : Prop :=
  program.Stores trees roots (List.range' next stemSize ++ List.range' nextLate lateSize)

variable {next nextLate s e s' e' : Nat}

theorem StoresAt.append {trees trees' : List Tree} {roots roots' : List Nat}
    (h : program.StoresAt next nextLate s e trees roots)
    (h' : program.StoresAt (next + s) (nextLate + e) s' e' trees' roots') :
    program.StoresAt next nextLate (s + s') (e + e') (trees ++ trees') (roots ++ roots') := by
  refine (Stores.append h h').perm ?_
  rw [← List.range'_append_1, ← List.range'_append_1]
  simp only [List.perm_iff_count, List.count_append]
  omega

/-- Late nodes that follow a stem at once make one stretch with it. -/
theorem StoresAt.joined {trees : List Tree} {roots : List Nat}
    (h : program.StoresAt next (next + s) s e trees roots) :
    program.StoresAt next nextLate (s + e) 0 trees roots ∧
      program.StoresAt nextLate next 0 (s + e) trees roots := by
  unfold StoresAt at *
  rw [List.range'_append_1] at h
  simpa using h

theorem StoresAt.node {node : Node} {tree : Tree} {trees : List Tree} {roots : List Nat}
    (h : program.StoresAt next nextLate s e trees roots)
    (hnode : program.nodes[next + s]? = some node) (hchildren : node.children = roots)
    (hsize : tree.size = Tree.sizeAll trees + 1)
    (htree : ∀ subtree, node.children.map subtree = trees → node.tree subtree = tree) :
    program.StoresAt next nextLate (s + 1) e [tree] [next + s] := by
  subst hchildren
  refine (Stores.node h hnode hsize htree).perm ?_
  rw [List.range'_1_concat]
  simp only [List.perm_iff_count, List.count_append]
  omega

end Program

namespace Tree

variable {program : Program}

theorem storesAll {trees : List Tree} {next late : Nat}
    (htrees : ∀ t ∈ trees, ∀ {next late : Nat}, t.Stands program.nodes next late →
      program.StoresAt next late t.stemSize t.lateSize [t] [t.rootAt next])
    (h : StandAll program.nodes trees next) :
    program.StoresAt next late (sizeAll trees) 0 trees (rootsAt next trees) := by
  induction trees generalizing next with
  | nil => exact Program.Stores.nil
  | cons tree trees ih =>
    obtain ⟨htree, htrees⟩ := List.forall_mem_cons.mp htrees
    have hall := (htree h.1).joined.1.append (ih htrees (tree.stemSize_add_lateSize ▸ h.2))
    rwa [tree.stemSize_add_lateSize] at hall

/-- Where a tree stands in a program, it is stored. -/
theorem Stands.storesAt {tree : Tree} {next late : Nat} (h : tree.Stands program.nodes next late) :
    program.StoresAt next late tree.stemSize tree.lateSize [tree] [tree.rootAt next] := by
  induction tree generalizing next late with
  | empty | number | name | breakLoop =>
    have hnil : program.StoresAt next late 0 0 [] [] := Program.Stores.nil
    exact hnil.node h rfl rfl fun _ _ => rfl
  | element x child ih | unary op child ih =>
    obtain ⟨hchild, hnode⟩ := h
    exact (ih hchild).node hnode rfl rfl (by simp [Node.children, Node.tree])
  | cell x left right ihl ihr | binary op left right ihl ihr | ifThen left right ihl ihr
  | whileLoop left right ihl ihr =>
    obtain ⟨hleft, hright, hnode⟩ := h
    rw [Nat.add_assoc] at hnode
    exact ((ihl hleft).append (ihr hright)).node hnode rfl rfl (by simp [Node.children, Node.tree])
  | ifElse condition yes no ihc ihy ihn =>
    obtain ⟨hcondition, hyes, hno, hnode⟩ := h
    have hlate : program.StoresAt (next + (condition.stemSize + yes.stemSize))
        (late + (condition.lateSize + yes.lateSize)) 0 no.size [no]
        [no.rootAt (late + condition.lateSize + yes.lateSize)] := by
      rw [← Nat.add_assoc late, ← no.stemSize_add_lateSize]
      exact (ihn hno).joined.2
    have hall := ((ihc hcondition).append (ihy hyes)).append hlate
    rw [Nat.add_assoc] at hnode
    exact hall.node hnode rfl (by simp [size, sizeAll]; omega) (by simp [Node.children, Node.tree])
  | forLoop start condition update body ihs ihc ihu ihb =>
    obtain ⟨hs, hc, hu, hb, hnode⟩ := h
    have hall := (ihs hs).append ((ihc hc).append ((ihu hu).append (ihb hb)))
    have hid : next + start.stemSize + condition.stemSize + update.stemSize + body.stemSize =
        next + (start.stemSize + condition.stemSize + update.stemSize + body.stemSize) := by omega
    rw [hid] at hnode
    simp only [← Nat.add_assoc] at hall
    exact hall.node hnode rfl (by simp [size, sizeAll]; omega) (by simp [Node.children, Node.tree])
  | block statements ih => 
    exact (storesAll ih h.1).node h.2 rfl rfl (by simp [Node.children, Node.tree])

end Tree

namespace Program

open Layout

/-- The nodes of a program made of a tree are a row as long as the tree, and the tree stands where
the row does. -/
theorem exists_ofTree_eq (tree : Tree) :
    ∃ row : List Node, ofTree tree = ⟨row.toArray, tree.rootAt 0⟩ ∧ row.length = tree.size ∧
      ∀ nodes, tree.Stands nodes 0 tree.stemSize ↔ Holds nodes 0 row := by
  obtain ⟨stem, late, hstem, hlate, hplace, hstanding⟩ := tree.lays_place 0 tree.stemSize
  refine ⟨stem ++ late, ?_, ?_, fun nodes => ?_⟩
  · unfold ofTree Layout.start
    rw [Nat.zero_add, hplace]
    simp
  · rw [List.length_append, hstem, hlate, tree.stemSize_add_lateSize]
  · rw [holds_append, hstem, Nat.zero_add]
    exact hstanding nodes

theorem stands_ofTree (tree : Tree) :
    (ofTree tree).root = tree.rootAt 0 ∧ (ofTree tree).nodes.size = tree.size ∧
      tree.Stands (ofTree tree).nodes 0 tree.stemSize := by
  obtain ⟨row, hprogram, hsize, hstands⟩ := exists_ofTree_eq tree
  rw [hprogram]
  exact ⟨rfl, List.size_toArray.trans hsize, (hstands _).mpr fun k _ => by simp⟩

/-- Nodes among which a tree stands, and no others, are those of the program made of the tree. -/
theorem ofTree_eq {tree : Tree} {nodes : Array Node} (hsize : nodes.size = tree.size)
    (h : tree.Stands nodes 0 tree.stemSize) : ofTree tree = ⟨nodes, tree.rootAt 0⟩ := by
  obtain ⟨row, hprogram, hrow, hstands⟩ := exists_ofTree_eq tree
  rw [hprogram, Program.mk.injEq]
  refine ⟨Array.ext_getElem? fun k => ?_, rfl⟩
  by_cases hk : k < row.length
  · rw [List.getElem?_toArray, ← (hstands nodes).mp h k hk, Nat.zero_add]
  · rw [Array.getElem?_eq_none (by simpa using hk), Array.getElem?_eq_none (by omega)]

end Program
end RuleLang

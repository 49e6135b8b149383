import RuleLang.Proofs.Layout

/-!
Programs that are spanning trees of their nodes. A program laid out from a tree has no nodes
besides those of the tree: every node is reached from the root, and every node but the root is
the child of one node, at one place. The tree unfolds again from the root.

The check of a stored program accepts it if the references repeat no number and leave no range;
this says less, since nodes that refer to each other in a circle pass it.
-/
namespace RuleLang.Program

variable {program : Program}

/-- The children of all nodes in turn. -/
def links (program : Program) : List Nat := program.nodes.toList.flatMap Node.children

def Child (program : Program) (parent child : Nat) : Prop := child ∈ program.children parent

structure Spanning (program : Program) : Prop where
  root_last : program.root + 1 = program.nodes.size
  in_range : ∀ id ∈ program.links, id < program.nodes.size
  child_once : ∀ id < program.nodes.size, id ≠ program.root → program.links.count id = 1
  root_free : program.root ∉ program.links
  reached : ∀ id < program.nodes.size, Relation.ReflTransGen program.Child program.root id

theorem flatMap_children_range (program : Program) :
    (List.range program.nodes.size).flatMap program.children = program.links := by
  have hmap : (List.range program.nodes.size).map program.children =
      program.nodes.toList.map Node.children := by
    apply List.ext_getElem (by simp)
    intro i hi hi'
    simp only [List.length_map, List.length_range] at hi
    simp [children, hi]
  rw [links, List.flatMap_def, List.flatMap_def, hmap]

theorem reached_of_mem_preorderTo {depth id other : Nat}
    (h : other ∈ program.preorderTo depth id) : Relation.ReflTransGen program.Child id other := by
  induction depth generalizing id with
  | zero => simp [preorderTo] at h
  | succ depth ih =>
    rcases List.mem_cons.mp h with rfl | hbelow
    · exact .refl
    · obtain ⟨child, hchild, hother⟩ := List.mem_flatMap.mp hbelow
      exact .head hchild (ih hother)

/-- The nodes of a tree that is laid out are numbered without gaps, and store the tree. -/
theorem ofTree_stores (tree : Tree) :
    (ofTree tree).nodes.size = tree.size ∧ (ofTree tree).root + 1 = tree.stemSize ∧
      (ofTree tree).Stores [tree] [(ofTree tree).root] (List.range tree.size) := by
  obtain ⟨hroot, hsize, hstands⟩ := stands_ofTree tree
  have hpos := tree.stemSize_pos
  have hstores := hstands.storesAt
  refine ⟨hsize, ?_, ?_⟩
  · rw [hroot, Tree.rootAt]
    omega
  · rw [hroot, List.range_eq_range', ← tree.stemSize_add_lateSize, ← List.range'_append_1,
      Nat.zero_add]
    exact hstores

/-- A tree unfolds from the program that it is laid out as. -/
theorem tree_ofTree (tree : Tree) : (ofTree tree).tree = tree := by
  obtain ⟨hsize, -, hstores⟩ := ofTree_stores tree
  have h := hstores.unfold_eq (ofTree tree).nodes.size (by simp [Tree.sizeAll, hsize])
  simpa [Program.tree, subtree] using h

theorem references_ofTree_perm (tree : Tree) :
    (ofTree tree).references.Perm (List.range (ofTree tree).nodes.size) := by
  obtain ⟨hsize, -, hstores⟩ := ofTree_stores tree
  have hlinks := hstores.links_perm
  rw [← hsize, flatMap_children_range] at hlinks
  exact List.perm_append_comm.trans hlinks

/-- A rule is a block, all of whose nodes are laid out before its own. -/
theorem spanning_ofTree (statements : List Tree) : (ofTree (.block statements)).Spanning := by
  obtain ⟨hsize, hroot, hstores⟩ := ofTree_stores (.block statements)
  have hperm := references_ofTree_perm (.block statements)
  generalize ofTree (.block statements) = program at *
  have hcount (id : Nat) : program.links.count id + (if program.root = id then 1 else 0) =
      if id < program.nodes.size then 1 else 0 := by
    have h := List.perm_iff_count.mp hperm id
    simpa [references, links, List.count_append, List.count_range, List.count_singleton] using h
  have hlast : program.root + 1 = program.nodes.size := by
    simpa [hsize, Tree.size, Tree.stemSize] using hroot
  refine ⟨hlast, ?_, ?_, ?_, ?_⟩
  · intro id hid
    have hpos := List.count_pos_iff.mpr hid
    have h := hcount id
    grind
  · intro id hid hne
    have h := hcount id
    grind
  · intro hmem
    have hpos := List.count_pos_iff.mpr hmem
    have h := hcount program.root
    grind
  · intro id hid
    have hpre := hstores.preorder_perm program.nodes.size (by simp [Tree.sizeAll, hsize])
    rw [List.flatMap_singleton] at hpre
    exact reached_of_mem_preorderTo (hpre.mem_iff.mpr (by simpa [hsize] using hid))

theorem seen_setIfInBounds (seen : Array Bool) (id x : Nat) :
    (seen.setIfInBounds id true)[x]? = some false ↔ x ≠ id ∧ seen[x]? = some false := by
  grind

theorem seen_replicate (size id : Nat) :
    (Array.replicate size false)[id]? = some false ↔ id < size := by
  grind

/-- No bad reference is found if no number repeats and all are those of nodes not seen yet. -/
theorem badReference?_eq_none_iff (seen : Array Bool) (ids : List Nat) :
    badReference? seen ids = none ↔ ids.Nodup ∧ ∀ id ∈ ids, seen[id]? = some false := by
  induction ids generalizing seen with
  | nil => simp [badReference?]
  | cons id ids ih =>
    simp only [badReference?, List.nodup_cons, List.forall_mem_cons]
    split
    case isTrue h =>
      simp only [ih, seen_setIfInBounds, h, true_and]
      grind
    case isFalse h => simp [h]

theorem check_eq_ok_iff (program : Program) :
    program.check = .ok program ↔
      program.references.Nodup ∧ ∀ id ∈ program.references, id < program.nodes.size := by
  simp only [check, ← seen_replicate, ← badReference?_eq_none_iff]
  split <;> simp_all

theorem check_ofTree (tree : Tree) : (ofTree tree).check = .ok (ofTree tree) := by
  have hperm := references_ofTree_perm tree
  refine (check_eq_ok_iff _).mpr ⟨hperm.nodup_iff.mpr List.nodup_range, fun id hid => ?_⟩
  exact List.mem_range.mp (hperm.mem_iff.mp hid)

end RuleLang.Program

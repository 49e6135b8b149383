import RuleLang.Proofs.OpenTrees

/-!
Allocating nodes. A tree without late nodes is allocated by adding its nodes after those that are
there, its children first, so that it stands there wherever its late nodes are looked for. The
statements of a block are allocated one after the other. When the last of them is given an `else`
branch, the branch is allocated after it and one of its nodes is changed; then the statements stand
as if the last one had been read with its branch.
-/
namespace RuleLang

namespace Building

/-- Nodes have been added after others. -/
structure Grows (nodes nodes' : Array Node) (count : Nat) : Prop where
  size_eq : nodes'.size = nodes.size + count
  keeps : ∀ k < nodes.size, nodes'[k]? = nodes[k]?

/-- A tree without late nodes has been allocated. -/
structure Allocated (nodes : Array Node) (tree : Tree) (id : Nat) (nodes' : Array Node) : Prop where
  no_late : tree.lateSize = 0
  id_eq : id = tree.rootAt nodes.size
  grows : Grows nodes nodes' tree.stemSize
  stands : ∀ late, tree.Stands nodes' nodes.size late

/-- Statements have been allocated, each with its `else` branches. -/
structure Arranged (nodes : Array Node) (trees : List Tree) (ids : List Nat)
    (nodes' : Array Node) : Prop where
  ids_eq : ids = Tree.rootsAt nodes.size trees
  grows : Grows nodes nodes' (Tree.sizeAll trees)
  stand : Tree.StandAll nodes' trees nodes.size

variable {nodes nodes₁ nodes₂ nodes₃ nodes₄ : Array Node} {m n : Nat}

theorem Grows.trans (h : Grows nodes nodes₁ m) (h' : Grows nodes₁ nodes₂ n) :
    Grows nodes nodes₂ (m + n) where
  size_eq := by rw [h'.size_eq, h.size_eq, Nat.add_assoc]
  keeps k hk := (h'.keeps k (by rw [h.size_eq]; omega)).trans (h.keeps k hk)

theorem grows_push (nodes : Array Node) (node : Node) : Grows nodes (nodes.push node) 1 where
  size_eq := Array.size_push node
  keeps k hk := by rw [Array.getElem?_push, if_neg (Nat.ne_of_lt hk)]

theorem Allocated.stands_of_grows {tree : Tree} {id : Nat} (h : Allocated nodes tree id nodes₁)
    (hgrows : Grows nodes₁ nodes₂ n) (late : Nat) : tree.Stands nodes₂ nodes.size late :=
  (h.stands late).congr
    (fun k _ hk => hgrows.keeps k (by rw [h.grows.size_eq]; exact hk))
    fun k _ hk => by rw [h.no_late] at hk; omega

/-- A node is allocated when the trees before it fill all numbers up to its own. -/
theorem Grows.allocated {tree : Tree} {node : Node} (h : Grows nodes nodes₁ n)
    (hstem : tree.stemSize = n + 1) (hlate : tree.lateSize = 0)
    (hstands : ∀ late, (nodes₁.push node)[nodes.size + n]? = some node →
      tree.Stands (nodes₁.push node) nodes.size late) :
    Allocated nodes tree nodes₁.size (nodes₁.push node) where
  no_late := hlate
  id_eq := by rw [h.size_eq, Tree.rootAt, hstem, Nat.add_sub_cancel]
  grows := hstem ▸ h.trans (grows_push nodes₁ node)
  stands late := hstands late (by rw [← h.size_eq, Array.getElem?_push_size])

theorem allocated_leaf {tree : Tree} {node : Node} (hstem : tree.stemSize = 1)
    (hlate : tree.lateSize = 0)
    (hstands : ∀ nodes next late, nodes[next]? = some node → tree.Stands nodes next late) :
    Allocated nodes tree nodes.size (nodes.push node) :=
  Grows.allocated ⟨rfl, fun _ _ => rfl⟩ hstem hlate fun late => hstands _ _ late

theorem Allocated.single {tree child : Tree} {a : Nat} {node : Node}
    (h : Allocated nodes child a nodes₁) (hstem : tree.stemSize = child.stemSize + 1)
    (hlate : tree.lateSize = child.lateSize)
    (hstands : ∀ nodes' next late, a = child.rootAt next → child.Stands nodes' next late →
      nodes'[next + child.stemSize]? = some node → tree.Stands nodes' next late) :
    Allocated nodes tree nodes₁.size (nodes₁.push node) :=
  h.grows.allocated hstem (hlate.trans h.no_late) fun late hnode =>
    hstands _ _ late h.id_eq (h.stands_of_grows (grows_push _ _) late) hnode

theorem Allocated.pair {tree left right : Tree} {a b : Nat} {node : Node}
    (hl : Allocated nodes left a nodes₁) (hr : Allocated nodes₁ right b nodes₂)
    (hstem : tree.stemSize = left.stemSize + right.stemSize + 1)
    (hlate : tree.lateSize = left.lateSize + right.lateSize)
    (hstands : ∀ nodes' next late, a = left.rootAt next → b = right.rootAt (next + left.stemSize) →
      left.Stands nodes' next late →
      right.Stands nodes' (next + left.stemSize) (late + left.lateSize) →
      nodes'[next + left.stemSize + right.stemSize]? = some node → tree.Stands nodes' next late) :
    Allocated nodes tree nodes₂.size (nodes₂.push node) := by
  have hlast := grows_push nodes₂ node
  have hsize := hl.grows.size_eq
  refine (hl.grows.trans hr.grows).allocated hstem ?_ fun late hnode => ?_
  · rw [hlate, hl.no_late, hr.no_late]
  · rw [← Nat.add_assoc] at hnode
    exact hstands _ _ late hl.id_eq (hsize ▸ hr.id_eq)
      (hl.stands_of_grows (hr.grows.trans hlast) late)
      (hsize ▸ hr.stands_of_grows hlast _) hnode

theorem Allocated.forLoop {start condition update body : Tree} {a b c d : Nat}
    (hs : Allocated nodes start a nodes₁) (hc : Allocated nodes₁ condition b nodes₂)
    (hu : Allocated nodes₂ update c nodes₃) (hb : Allocated nodes₃ body d nodes₄) :
    Allocated nodes (.forLoop start condition update body) nodes₄.size
      (nodes₄.push (.forLoop a b c d)) := by
  have hlast := grows_push nodes₄ (.forLoop a b c d)
  have hsize := hs.grows.size_eq
  have hsize' := hc.grows.size_eq
  have hsize'' := hu.grows.size_eq
  refine (((hs.grows.trans hc.grows).trans hu.grows).trans hb.grows).allocated rfl ?_ ?_
  · simp only [Tree.lateSize, hs.no_late, hc.no_late, hu.no_late, hb.no_late]
  · intro late hnode
    have hc' := hc.stands_of_grows (hu.grows.trans (hb.grows.trans hlast)) (late + start.lateSize)
    have hu' := hu.stands_of_grows (hb.grows.trans hlast)
      (late + start.lateSize + condition.lateSize)
    have hb' := hb.stands_of_grows hlast
      (late + start.lateSize + condition.lateSize + update.lateSize)
    rw [hsize] at hc'
    rw [hsize', hsize] at hu'
    rw [hsize'', hsize', hsize] at hb'
    simp only [← Nat.add_assoc] at hnode
    refine ⟨hs.stands_of_grows (hc.grows.trans (hu.grows.trans (hb.grows.trans hlast))) late,
      hc', hu', hb', hnode.trans ?_⟩
    rw [hs.id_eq, hc.id_eq, hu.id_eq, hb.id_eq, hsize'', hsize', hsize]

variable {front : List Tree} {tree last branch : Tree} {ids : List Nat} {id target loops : Nat}

theorem Arranged.concat (h : Arranged nodes front ids nodes₁)
    (htree : Allocated nodes₁ tree id nodes₂) :
    Arranged nodes (front ++ [tree]) (ids ++ [id]) nodes₂ := by
  have hsize := h.grows.size_eq
  have hwhole := tree.stemSize_add_lateSize
  rw [htree.no_late, Nat.add_zero] at hwhole
  refine ⟨?_, ?_, Tree.standAll_concat.mpr ⟨?_, ?_⟩⟩
  · rw [Tree.rootsAt_concat, ← h.ids_eq, ← hsize, ← htree.id_eq]
  · rw [Tree.sizeAll_concat, ← hwhole]
    exact h.grows.trans htree.grows
  · exact h.stand.congr fun k _ hk => htree.grows.keeps k (by omega)
  · exact hsize ▸ htree.stands _

/-- What has been arranged ends in the last statement with its late nodes. -/
theorem Arranged.ends_in_last (h : Arranged nodes (front ++ [last]) ids nodes₁) :
    nodes.size + Tree.sizeAll front + last.stemSize + last.lateSize = nodes₁.size := by
  rw [h.grows.size_eq, Tree.sizeAll_concat, ← last.stemSize_add_lateSize]
  omega

/-- An open statement gets its `else` branch when the branch has been allocated after it. -/
theorem Arranged.attach (h : Arranged nodes (front ++ [last]) ids nodes₁)
    (hopen : last.OpensAt (nodes.size + Tree.sizeAll front)
      (nodes.size + Tree.sizeAll front + last.stemSize) target loops)
    (hbranch : Allocated nodes₁ branch id nodes₂) :
    ∃ extended, last.withElse? branch = some extended ∧
      Arranged nodes (front ++ [extended]) ids (nodes₂.modify target (withElse id)) := by
  obtain ⟨hfront, hlast⟩ := Tree.standAll_concat.mp h.stand
  have hend := h.ends_in_last
  have hcovers := hopen.covers
  have hothers (k : Nat) (hne : k ≠ target) :
      (nodes₂.modify target (withElse id))[k]? = nodes₂[k]? := by
    rw [Array.getElem?_modify, if_neg hne.symm]
  have hkeeps (k : Nat) (hne : k ≠ target) (hk : k < nodes₁.size) :
      (nodes₂.modify target (withElse id))[k]? = nodes₁[k]? :=
    (hothers k hne).trans (hbranch.grows.keeps k hk)
  have htarget : (nodes₂.modify target (withElse id))[target]? =
      nodes₁[target]?.map (withElse id) := by
    rw [Array.getElem?_modify, if_pos rfl, hbranch.grows.keeps target (by omega)]
  have hstands (late : Nat) : branch.Stands (nodes₂.modify target (withElse id)) nodes₁.size late :=
    (hbranch.stands late).congr (fun k hk _ => hothers k (by omega))
      fun k _ hk => by rw [hbranch.no_late] at hk; omega
  obtain ⟨extended, hextended, hstem, hlate, hstands'⟩ := hopen.attach hlast (Nat.le_refl _)
    (fun k hne hk => hkeeps k hne (hend ▸ hk)) (by rw [hend, ← hbranch.id_eq, htarget])
    (hend ▸ hstands _)
  have hsize := extended.stemSize_add_lateSize
  have hbranchSize := branch.stemSize_add_lateSize
  have hnoLate := hbranch.no_late
  refine ⟨extended, hextended, ?_, ⟨?_, ?_⟩, Tree.standAll_concat.mpr ⟨?_, ?_⟩⟩
  · rw [h.ids_eq, Tree.rootsAt_concat, Tree.rootsAt_concat, Tree.rootAt_congr hstem]
  · rw [Array.size_modify, hbranch.grows.size_eq, Tree.sizeAll_concat]
    omega
  · exact fun k hk => (hkeeps k (by omega) (by omega)).trans (h.grows.keeps k hk)
  · exact hfront.congr fun k _ hk => hkeeps k (by omega) (by omega)
  · rw [hstem]
    exact hstands'

end Building

end RuleLang

import RuleLang.Json.Program
import RuleLang.Proofs.Building
import RuleLang.Proofs.Spanning

/-!
Reading a stored program back. The stored form of a node is read as that node, provided that the
numbers in it have 32 bits, which the numbers of stored nodes do. A program that passes the check
is therefore loaded as it was stored, and every program read from a source passes the check.
-/
namespace RuleLang

open Json

theorem Json.int32?_ofInt32 (n : Int32) : (ofInt32 n).int32? = some n := by
  have hlow := n.le_toInt
  have hhigh := n.toInt_lt
  simp only [ofInt32, int32?]
  rw [if_pos (by omega), Int32.ofInt_toInt]

theorem Json.nodeId?_ofNat {n : Nat} (hn : n < 4294967296) : (ofNat n).nodeId? = some n := by
  simp only [ofNat, nodeId?]
  rw [if_pos (by omega), Int.toNat_natCast]

theorem Json.orNull?_ofNat {α : Type} (read : Json → Option α) (n : Nat) :
    (ofNat n).orNull? read = (read (ofNat n)).map some := rfl

/-- Reading item by item gives the items back if each is read back. -/
theorem Json.list?_array {α : Type} {read : Json → Option α} {write : α → Json} {items : List α}
    (h : ∀ a ∈ items, read (write a) = some a) :
    (Json.array (items.map write)).list? read = some items := by
  have hmap : (items.map write).mapM read = some items := by
    induction items with
    | nil => rfl
    | cons a items ih =>
      have ha := h a List.mem_cons_self
      have hitems := ih fun b hb => h b (List.mem_cons_of_mem _ hb)
      simp [ha, hitems]
  simpa [list?, array?] using hmap

theorem UnaryOp.ofJson?_toJson (op : UnaryOp) : ofJson? op.toJson = some op := by
  cases op <;> rfl

theorem BinaryOp.ofJson?_toJson (op : BinaryOp) : ofJson? op.toJson = some op := by
  cases op <;> rfl

namespace Node

/-- A tag that carries something is read by the reader of its kind. -/
theorem ofJson?_tag {kind : String} {carried : Json} (h : carried ≠ .null) :
    ofJson? (tag kind carried) = ofTagged? kind carried := by
  have hbare : (tag kind carried).bareTag? = none := by
    cases carried <;> first | rfl | contradiction
  simp only [ofJson?, hbare]
  rfl

theorem ofJson?_toJson {node : Node} (h : ∀ id ∈ node.children, id < 4294967296) :
    ofJson? node.toJson = some node := by
  have hnumber (id : Nat) (hid : id ∈ node.children) : (ofNat id).nodeId? = some id :=
    nodeId?_ofNat (h id hid)
  cases node with
  | empty | breakLoop => rfl
  | number value =>
    have hcarried : ofInt32 value ≠ .null := nofun
    simp -implicitDefEqProofs [toJson, ofJson?_tag hcarried, ofTagged?, int32?_ofInt32]
  | name x => rfl
  | element x index =>
    have hindex := hnumber index (by simp [children])
    simp -implicitDefEqProofs [toJson, ofJson?_tag, ofTagged?, field?, string?, maybe?, orNull?,
      hindex]
  | cell x row column =>
    have hrow := hnumber row (by simp [children])
    have hcolumn := hnumber column (by simp [children])
    simp -implicitDefEqProofs [toJson, ofJson?_tag, ofTagged?, field?, string?, maybe?,
      orNull?_ofNat, hrow, hcolumn]
  | unary op operand =>
    have hoperand := hnumber operand (by simp [children])
    simp -implicitDefEqProofs [toJson, ofJson?_tag, ofTagged?, field?, UnaryOp.ofJson?_toJson,
      hoperand]
  | binary op left right =>
    have hleft := hnumber left (by simp [children])
    have hright := hnumber right (by simp [children])
    simp -implicitDefEqProofs [toJson, ofJson?_tag, ofTagged?, field?, BinaryOp.ofJson?_toJson,
      hleft, hright]
  | ifThen condition yes =>
    have hcondition := hnumber condition (by simp [children])
    have hyes := hnumber yes (by simp [children])
    simp -implicitDefEqProofs [toJson, ofJson?_tag, ofTagged?, field?, maybe?, orNull?,
      hcondition, hyes]
  | ifElse condition yes no =>
    have hcondition := hnumber condition (by simp [children])
    have hyes := hnumber yes (by simp [children])
    have hno := hnumber no (by simp [children])
    simp -implicitDefEqProofs [toJson, ofJson?_tag, ofTagged?, field?, maybe?, orNull?_ofNat,
      hcondition, hyes, hno]
  | whileLoop condition body =>
    have hcondition := hnumber condition (by simp [children])
    have hbody := hnumber body (by simp [children])
    simp -implicitDefEqProofs [toJson, ofJson?_tag, ofTagged?, field?, hcondition, hbody]
  | forLoop start condition update body =>
    have hstart := hnumber start (by simp [children])
    have hcondition := hnumber condition (by simp [children])
    have hupdate := hnumber update (by simp [children])
    have hbody := hnumber body (by simp [children])
    simp -implicitDefEqProofs [toJson, ofJson?_tag, ofTagged?, field?, hstart, hcondition,
      hupdate, hbody]
  | block statements =>
    have hstatements : (Json.array (statements.map ofNat)).list? nodeId? = some statements :=
      list?_array hnumber
    simp -implicitDefEqProofs [toJson, ofJson?_tag, ofTagged?, hstatements]

end Node

namespace Program

theorem ofJson?_toJson {program : Program} (h : ∀ id ∈ program.references, id < 4294967296) :
    ofJson? program.toJson = some program := by
  have hnodes : (Json.array (program.nodes.toList.map Node.toJson)).list? Node.ofJson? =
      some program.nodes.toList := by
    refine list?_array fun node hnode => Node.ofJson?_toJson fun id hid => h id ?_
    exact List.mem_append_left _ (List.mem_flatMap.mpr ⟨node, hnode, hid⟩)
  have hroot : (ofNat program.root).nodeId? = some program.root :=
    nodeId?_ofNat (h program.root (by simp [references]))
  simp -implicitDefEqProofs [ofJson?, toJson, field?, hnodes, hroot]

theorem load_toJson {program : Program} (hcheck : program.check = .ok program)
    (hids : ∀ id ∈ program.references, id < 4294967296) : load program.toJson = .ok program := by
  unfold load
  rw [ofJson?_toJson hids]
  dsimp only
  rw [hcheck]
  rfl

/-- Reading a source gives a spanning tree of its nodes, with the root last, and every program
that passes the check, with numbers of 32 bits in it, is loaded as it was stored. -/
theorem parse_spanning_and_load_stored :
    (∀ (limit : Nat) (source : String) (program : Program),
      Program.parse limit source = .ok program →
        program.Spanning ∧ program.check = .ok program) ∧
    ∀ program : Program, program.check = .ok program →
      (∀ id ∈ program.references, id < 2 ^ 32) → load program.toJson = .ok program := by
  refine ⟨fun limit source program hparse => ?_, fun program hcheck hids => ?_⟩
  · obtain ⟨tree, ⟨⟨statements, rfl⟩, -⟩, rfl⟩ := parse_eq_ok hparse
    exact ⟨spanning_ofTree statements, check_ofTree _⟩
  · exact load_toJson hcheck fun id hid => hids id hid

/-- The `else` branch of `if(a)b;else c` is numbered after the rest of its `if`. -/
theorem load_stored_ifElse :
    Program.parse 4 "if(a)b;else c" =
      .ok ⟨#[.name "a", .name "b", .ifElse 0 1 3, .name "c", .block [2]], 4⟩ ∧
    Spanning ⟨#[.name "a", .name "b", .ifElse 0 1 3, .name "c", .block [2]], 4⟩ ∧
    load (toJson ⟨#[.name "a", .name "b", .ifElse 0 1 3, .name "c", .block [2]], 4⟩) =
      .ok ⟨#[.name "a", .name "b", .ifElse 0 1 3, .name "c", .block [2]], 4⟩ := by
  have hparse : Program.parse 4 "if(a)b;else c" =
      .ok ⟨#[.name "a", .name "b", .ifElse 0 1 3, .name "c", .block [2]], 4⟩ := by
    rw [parse_eq]
    cbv
  have hspan := parse_spanning_and_load_stored.1 4 "if(a)b;else c" _ hparse
  exact ⟨hparse, hspan.1, parse_spanning_and_load_stored.2 _ hspan.2 (by decide)⟩

end Program
end RuleLang

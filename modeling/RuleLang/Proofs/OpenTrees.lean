import RuleLang.Program.Source
import RuleLang.Proofs.Layout

/-!
Open statements among nodes. A statement is open at the innermost `if` that can take an `else`. The
number of this `if` follows from where the statement stands, and the search from the root of the
statement finds it. To give the `if` a branch that stands after the late nodes of the statement
changes one node, and the statement then stands, with the branch, where it stood before.
-/
namespace RuleLang

namespace Tree

/-- A tree that stands at the numbers `next` and `late` is open at the `if` with the number
`target`, inside a number of loops. -/
inductive OpensAt : Tree → (next late target loops : Nat) → Prop
  | inside {condition yes : Tree} {next late target loops : Nat}
      (h : OpensAt yes (next + condition.stemSize) (late + condition.lateSize) target loops) :
      OpensAt (ifThen condition yes) next late target loops
  | here {condition yes : Tree} {next late : Nat} (h : yes.openIf? = none) :
      OpensAt (ifThen condition yes) next late (next + condition.stemSize + yes.stemSize) 0
  | otherwise {condition yes no : Tree} {next late target loops : Nat}
      (h : OpensAt no (late + condition.lateSize + yes.lateSize)
        (late + condition.lateSize + yes.lateSize + no.stemSize) target loops) :
      OpensAt (ifElse condition yes no) next late target loops
  | whileLoop {condition body : Tree} {next late target loops : Nat}
      (h : OpensAt body (next + condition.stemSize) (late + condition.lateSize) target loops) :
      OpensAt (whileLoop condition body) next late target (loops + 1)
  | forLoop {start condition update body : Tree} {next late target loops : Nat}
      (h : OpensAt body (next + start.stemSize + condition.stemSize + update.stemSize)
        (late + start.lateSize + condition.lateSize + update.lateSize) target loops) :
      OpensAt (forLoop start condition update body) next late target (loops + 1)

variable {tree branch : Tree} {nodes nodes' : Array Node} {next late target loops depth : Nat}

theorem exists_opensAt (h : tree.openIf? = some loops) (next late : Nat) :
    ∃ target, tree.OpensAt next late target loops := by
  induction tree generalizing next late loops with
  | ifThen condition yes _ ih =>
    cases hyes : yes.openIf? with
    | none =>
      obtain rfl : 0 = loops := by simpa [openIf?, hyes] using h
      exact ⟨_, .here hyes⟩
    | some inside =>
      obtain rfl : inside = loops := by simpa [openIf?, hyes] using h
      exact (ih hyes _ _).imp fun _ => .inside
  | ifElse condition yes no _ _ ih => exact (ih h _ _).imp fun _ => .otherwise
  | whileLoop condition body _ ih =>
    obtain ⟨inside, hbody, rfl⟩ := Option.map_eq_some_iff.mp h
    exact (ih hbody _ _).imp fun _ => .whileLoop
  | forLoop start condition update body _ _ _ ih =>
    obtain ⟨inside, hbody, rfl⟩ := Option.map_eq_some_iff.mp h
    exact (ih hbody _ _).imp fun _ => .forLoop
  | _ => cases h

/-- The `if` is one of the nodes of the tree. -/
theorem OpensAt.covers (h : tree.OpensAt next late target loops) :
    next ≤ target ∧ target < next + tree.stemSize ∨
      late ≤ target ∧ target < late + tree.lateSize := by
  induction h with
  | here => simp only [stemSize]; omega
  | @otherwise condition yes no _ _ _ _ _ ih =>
    have hsize := no.stemSize_add_lateSize
    simp only [lateSize]
    omega
  | _ => simp only [stemSize, lateSize]; omega

theorem rootAt_eq {n : Nat} (h : tree.stemSize = n + 1) : tree.rootAt next = next + n := by
  rw [rootAt, h]
  rfl

/-- The search from the root of a tree finds nothing if the tree is not open. -/
theorem Stands.openIf?_eq_none (h : tree.Stands nodes next late) (hopen : tree.openIf? = none)
    (depth : Nat) : Building.openIf? nodes depth (tree.rootAt next) = none := by
  induction depth generalizing tree next late with
  | zero => rfl
  | succ depth ih =>
    rw [Building.openIf?]
    cases tree with
    | ifThen => simp [Tree.openIf?] at hopen
    | ifElse condition yes no =>
      obtain ⟨-, -, hno, hnode⟩ := h
      rw [rootAt_eq rfl, ← Nat.add_assoc, hnode]
      exact ih hno hopen
    | whileLoop condition body =>
      obtain ⟨-, hbody, hnode⟩ := h
      rw [rootAt_eq rfl, ← Nat.add_assoc, hnode]
      exact Option.map_eq_none_iff.mpr (ih hbody (Option.map_eq_none_iff.mp hopen))
    | forLoop start condition update body =>
      obtain ⟨-, -, -, hbody, hnode⟩ := h
      rw [rootAt_eq rfl, ← Nat.add_assoc, ← Nat.add_assoc, ← Nat.add_assoc, hnode]
      exact Option.map_eq_none_iff.mpr (ih hbody (Option.map_eq_none_iff.mp hopen))
    | _ => simp_all [rootAt, stemSize, Stands, ← Nat.add_assoc]

/-- The search from the root of an open tree finds the `if`. -/
theorem OpensAt.openIf?_eq (hopen : tree.OpensAt next late target loops)
    (h : tree.Stands nodes next late) (hdepth : tree.size ≤ depth) :
    Building.openIf? nodes depth (tree.rootAt next) = some (target, loops) := by
  induction depth generalizing tree next late loops with
  | zero =>
    have hpos := tree.stemSize_pos
    have hsize := tree.stemSize_add_lateSize
    omega
  | succ depth ih =>
    rw [Building.openIf?]
    cases hopen with
    | inside hyes =>
      obtain ⟨-, hstands, hnode⟩ := h
      have hfound := ih hyes hstands (by simp only [size] at hdepth; omega)
      rw [rootAt_eq rfl, ← Nat.add_assoc, hnode]
      dsimp only
      rw [hfound]
      rfl
    | here hclosed =>
      obtain ⟨-, hstands, hnode⟩ := h
      rw [rootAt_eq rfl, ← Nat.add_assoc, hnode]
      dsimp only
      rw [hstands.openIf?_eq_none hclosed]
      rfl
    | otherwise hno =>
      obtain ⟨-, -, hstands, hnode⟩ := h
      rw [rootAt_eq rfl, ← Nat.add_assoc, hnode]
      exact ih hno hstands (by simp only [size] at hdepth; omega)
    | whileLoop hbody =>
      obtain ⟨-, hstands, hnode⟩ := h
      have hfound := ih hbody hstands (by simp only [size] at hdepth; omega)
      rw [rootAt_eq rfl, ← Nat.add_assoc, hnode]
      dsimp only
      rw [hfound]
      rfl
    | forLoop hbody =>
      obtain ⟨-, -, -, hstands, hnode⟩ := h
      have hfound := ih hbody hstands (by simp only [size] at hdepth; omega)
      rw [rootAt_eq rfl, ← Nat.add_assoc, ← Nat.add_assoc, ← Nat.add_assoc, hnode]
      dsimp only
      rw [hfound]
      rfl

theorem rootAt_congr {other : Tree} (h : other.stemSize = tree.stemSize) :
    other.rootAt next = tree.rootAt next := by
  rw [rootAt, h]
  rfl

/-- Where one node is changed, the trees that it does not belong to stand as before. -/
theorem Stands.elsewhere {bound : Nat} (h : tree.Stands nodes next late)
    (hothers : ∀ k, k ≠ target → k < bound → nodes'[k]? = nodes[k]?)
    (htarget : ¬ (next ≤ target ∧ target < next + tree.stemSize ∨
      late ≤ target ∧ target < late + tree.lateSize))
    (hbound : next + tree.stemSize ≤ bound ∧ late + tree.lateSize ≤ bound) :
    tree.Stands nodes' next late :=
  h.congr (fun k _ _ => hothers k (by omega) (by omega)) fun k _ _ =>
    hothers k (by omega) (by omega)

/-- A tree with a branch given to its innermost open `if` stands where the tree stood, and the late
nodes of the branch come after those of the tree. -/
structure Takes (tree branch : Tree) (nodes : Array Node) (next late : Nat) (extended : Tree) :
    Prop where
  withElse?_eq : tree.withElse? branch = some extended
  stemSize_eq : extended.stemSize = tree.stemSize
  lateSize_eq : extended.lateSize = tree.lateSize + branch.size
  stands : extended.Stands nodes next late

variable {extended start condition update yes no body : Tree}

theorem Takes.inside
    (h : yes.Takes branch nodes (next + condition.stemSize) (late + condition.lateSize) extended)
    (hcondition : condition.Stands nodes next late)
    (hnode : nodes[next + condition.stemSize + yes.stemSize]? =
      some (.ifThen (condition.rootAt next) (yes.rootAt (next + condition.stemSize)))) :
    (ifThen condition yes).Takes branch nodes next late (ifThen condition extended) where
  withElse?_eq := by rw [withElse?, h.withElse?_eq]
  stemSize_eq := by simp only [stemSize, h.stemSize_eq]
  lateSize_eq := by simp only [lateSize, h.lateSize_eq, Nat.add_assoc]
  stands := ⟨hcondition, h.stands, by rw [h.stemSize_eq, hnode, rootAt_congr h.stemSize_eq]⟩

theorem takes_here (hclosed : yes.openIf? = none) (hcondition : condition.Stands nodes next late)
    (hyes : yes.Stands nodes (next + condition.stemSize) (late + condition.lateSize))
    (hbranch : branch.Stands nodes (late + condition.lateSize + yes.lateSize)
      (late + condition.lateSize + yes.lateSize + branch.stemSize))
    (hnode : nodes[next + condition.stemSize + yes.stemSize]? =
      some (.ifElse (condition.rootAt next) (yes.rootAt (next + condition.stemSize))
        (branch.rootAt (late + condition.lateSize + yes.lateSize)))) :
    (ifThen condition yes).Takes branch nodes next late (ifElse condition yes branch) where
  withElse?_eq := by
    have hnone : yes.withElse? branch = none := by
      simpa [hclosed] using isSome_withElse? yes branch
    rw [withElse?, hnone]
  stemSize_eq := rfl
  lateSize_eq := rfl
  stands := ⟨hcondition, hyes, hbranch, hnode⟩

theorem Takes.otherwise
    (h : no.Takes branch nodes (late + condition.lateSize + yes.lateSize)
      (late + condition.lateSize + yes.lateSize + no.stemSize) extended)
    (hcondition : condition.Stands nodes next late)
    (hyes : yes.Stands nodes (next + condition.stemSize) (late + condition.lateSize))
    (hnode : nodes[next + condition.stemSize + yes.stemSize]? =
      some (.ifElse (condition.rootAt next) (yes.rootAt (next + condition.stemSize))
        (no.rootAt (late + condition.lateSize + yes.lateSize)))) :
    (ifElse condition yes no).Takes branch nodes next late (ifElse condition yes extended) where
  withElse?_eq := by
    rw [withElse?, h.withElse?_eq]
    rfl
  stemSize_eq := rfl
  lateSize_eq := by
    have hsize := h.lateSize_eq
    simp only [lateSize, ← stemSize_add_lateSize no, ← stemSize_add_lateSize extended,
      h.stemSize_eq]
    omega
  stands := ⟨hcondition, hyes, by rw [h.stemSize_eq]; exact h.stands, by
    rw [hnode, rootAt_congr h.stemSize_eq]⟩

theorem Takes.whileLoop
    (h : body.Takes branch nodes (next + condition.stemSize) (late + condition.lateSize) extended)
    (hcondition : condition.Stands nodes next late)
    (hnode : nodes[next + condition.stemSize + body.stemSize]? =
      some (.whileLoop (condition.rootAt next) (body.rootAt (next + condition.stemSize)))) :
    (Tree.whileLoop condition body).Takes branch nodes next late
      (.whileLoop condition extended) where
  withElse?_eq := by
    rw [withElse?, h.withElse?_eq]
    rfl
  stemSize_eq := by simp only [stemSize, h.stemSize_eq]
  lateSize_eq := by simp only [lateSize, h.lateSize_eq, Nat.add_assoc]
  stands := ⟨hcondition, h.stands, by rw [h.stemSize_eq, hnode, rootAt_congr h.stemSize_eq]⟩

theorem Takes.forLoop
    (h : body.Takes branch nodes (next + start.stemSize + condition.stemSize + update.stemSize)
      (late + start.lateSize + condition.lateSize + update.lateSize) extended)
    (hstart : start.Stands nodes next late)
    (hcondition : condition.Stands nodes (next + start.stemSize) (late + start.lateSize))
    (hupdate : update.Stands nodes (next + start.stemSize + condition.stemSize)
      (late + start.lateSize + condition.lateSize))
    (hnode : nodes[next + start.stemSize + condition.stemSize + update.stemSize + body.stemSize]? =
      some (.forLoop (start.rootAt next) (condition.rootAt (next + start.stemSize))
        (update.rootAt (next + start.stemSize + condition.stemSize))
        (body.rootAt (next + start.stemSize + condition.stemSize + update.stemSize)))) :
    (Tree.forLoop start condition update body).Takes branch nodes next late
      (.forLoop start condition update extended) where
  withElse?_eq := by
    rw [withElse?, h.withElse?_eq]
    rfl
  stemSize_eq := by simp only [stemSize, h.stemSize_eq]
  lateSize_eq := by simp only [lateSize, h.lateSize_eq, Nat.add_assoc]
  stands := ⟨hstart, hcondition, hupdate, h.stands, by
    rw [h.stemSize_eq, hnode, rootAt_congr h.stemSize_eq]⟩

/-- Giving the `if` of an open tree a branch that stands after its late nodes gives the tree with
the branch. -/
theorem OpensAt.attach (hopen : tree.OpensAt next late target loops)
    (h : tree.Stands nodes next late) (hapart : next + tree.stemSize ≤ late)
    (hothers : ∀ k, k ≠ target → k < late + tree.lateSize → nodes'[k]? = nodes[k]?)
    (htarget : nodes'[target]? =
      nodes[target]?.map (Building.withElse (branch.rootAt (late + tree.lateSize))))
    (hbranch : branch.Stands nodes' (late + tree.lateSize)
      (late + tree.lateSize + branch.stemSize)) :
    ∃ extended, tree.Takes branch nodes' next late extended := by
  induction hopen with
  | inside hyes ih =>
    obtain ⟨hcondition, hstands, hnode⟩ := h
    have hcovers := hyes.covers
    simp only [stemSize, lateSize, ← Nat.add_assoc] at *
    obtain ⟨extended, htakes⟩ :=
      ih hstands (by omega) (fun k hne hk => hothers k hne (by omega)) htarget hbranch
    refine ⟨_, htakes.inside (hcondition.elsewhere hothers (by omega) (by omega)) ?_⟩
    rw [hothers _ (by omega) (by omega), hnode]
  | here hclosed =>
    obtain ⟨hcondition, hyes, hnode⟩ := h
    simp only [stemSize, lateSize, ← Nat.add_assoc] at *
    refine ⟨_, takes_here hclosed (hcondition.elsewhere hothers (by omega) (by omega))
      (hyes.elsewhere hothers (by omega) (by omega)) hbranch ?_⟩
    rw [htarget, hnode]
    rfl
  | @otherwise condition yes no next late target loops hno ih =>
    obtain ⟨hcondition, hyes, hstands, hnode⟩ := h
    have hcovers := hno.covers
    simp only [stemSize, lateSize, ← stemSize_add_lateSize no, ← Nat.add_assoc] at *
    obtain ⟨extended, htakes⟩ :=
      ih hstands (by omega) (fun k hne hk => hothers k hne (by omega)) htarget hbranch
    refine ⟨_, htakes.otherwise (hcondition.elsewhere hothers (by omega) (by omega))
      (hyes.elsewhere hothers (by omega) (by omega)) ?_⟩
    rw [hothers _ (by omega) (by omega), hnode]
  | whileLoop hbody ih =>
    obtain ⟨hcondition, hstands, hnode⟩ := h
    have hcovers := hbody.covers
    simp only [stemSize, lateSize, ← Nat.add_assoc] at *
    obtain ⟨extended, htakes⟩ :=
      ih hstands (by omega) (fun k hne hk => hothers k hne (by omega)) htarget hbranch
    refine ⟨_, htakes.whileLoop (hcondition.elsewhere hothers (by omega) (by omega)) ?_⟩
    rw [hothers _ (by omega) (by omega), hnode]
  | forLoop hbody ih =>
    obtain ⟨hstart, hcondition, hupdate, hstands, hnode⟩ := h
    have hcovers := hbody.covers
    simp only [stemSize, lateSize, ← Nat.add_assoc] at *
    obtain ⟨extended, htakes⟩ :=
      ih hstands (by omega) (fun k hne hk => hothers k hne (by omega)) htarget hbranch
    refine ⟨_, htakes.forLoop (hstart.elsewhere hothers (by omega) (by omega))
      (hcondition.elsewhere hothers (by omega) (by omega))
      (hupdate.elsewhere hothers (by omega) (by omega)) ?_⟩
    rw [hothers _ (by omega) (by omega), hnode]

end Tree

end RuleLang

import RuleLang.Proofs.Allocation
import RuleLang.Proofs.Reading

/-!
Reading into nodes follows the grammar: it fails with the same fault, or the nodes that have been
allocated are those of the tree that the grammar gives. One lemma for each reader compares it with
that of the grammar, and the recursion on the room for nesting comes at the end. So a program that
is read from a source is the layout of its tree.
-/
namespace RuleLang

namespace Building

variable {α α' β β' : Type} {nodes nodes₁ : Array Node}

/-- What is built follows what the grammar reads: it fails with the same fault, or both give
something, and `good` relates the two and the nodes allocated. -/
def Builds (nodes : Array Node) (building : Building α) (reading : Except Fault β)
    (good : α → Array Node → β → Prop) : Prop :=
  match reading with
  | .ok b => ∃ a nodes', building nodes = .ok (a, nodes') ∧ good a nodes' b
  | .error fault => building nodes = .error fault

theorem builds_return {a : α} {b : β} {good : α → Array Node → β → Prop} (h : good a nodes b) :
    Builds nodes (pure a) (pure b) good := ⟨a, nodes, rfl, h⟩

theorem builds_throw (fault : Fault) (good : α → Array Node → β → Prop) :
    Builds nodes (throw fault) (throw fault) good := rfl

theorem bind_ok {building : Building α} {a : α} (h : building nodes = .ok (a, nodes₁))
    (next : α → Building α') : (building >>= next) nodes = next a nodes₁ := by
  change building nodes >>= _ = _
  rw [h]
  rfl

theorem Builds.bind {building : Building α} {reading : Except Fault β}
    {next : α → Building α'} {next' : β → Except Fault β'} {good : α → Array Node → β → Prop}
    {good' : α' → Array Node → β' → Prop} (h : Builds nodes building reading good)
    (hnext : ∀ a nodes' b, good a nodes' b → Builds nodes' (next a) (next' b) good') :
    Builds nodes (building >>= next) (reading >>= next') good' := by
  cases reading with
  | ok b =>
    obtain ⟨a, nodes', hbuilding, hgood⟩ := h
    have hrest := hnext a nodes' b hgood
    unfold Builds at hrest
    rw [← bind_ok hbuilding next] at hrest
    exact hrest
  | error fault =>
    change building nodes >>= _ = _
    rw [show building nodes = .error fault from h]
    rfl

theorem builds_lift {reading : Except Fault β} {good : β → Prop} (h : Grammar.Reads reading good) :
    Builds nodes (liftM reading) reading fun a nodes' b => a = b ∧ nodes' = nodes ∧ good b := by
  cases reading with
  | ok b => exact ⟨b, nodes, rfl, rfl, rfl, h⟩
  | error fault => rfl

/-- A tree that can be read without statements in it is allocated as it should be. -/
def Allocates (tree : Tree) : Prop :=
  ∀ nodes, ∃ id nodes', allocTree tree nodes = .ok (id, nodes') ∧ Allocated nodes tree id nodes'

theorem allocates_leaf {tree : Tree} {node : Node} (h : allocTree tree = alloc node)
    (hstem : tree.stemSize = 1) (hlate : tree.lateSize = 0)
    (hstands : ∀ nodes next late, nodes[next]? = some node → tree.Stands nodes next late) :
    Allocates tree :=
  fun nodes => ⟨_, _, congrFun h nodes, allocated_leaf hstem hlate hstands⟩

theorem allocates_single {tree child : Tree} {node : Nat → Node} (h : Allocates child)
    (htree : allocTree tree = do alloc (node (← allocTree child)))
    (hstem : tree.stemSize = child.stemSize + 1) (hlate : tree.lateSize = child.lateSize)
    (hstands : ∀ nodes next late, child.Stands nodes next late →
      nodes[next + child.stemSize]? = some (node (child.rootAt next)) →
      tree.Stands nodes next late) : Allocates tree := by
  intro nodes
  obtain ⟨a, nodes₁, hrun, hallocated⟩ := h nodes
  rw [htree]
  refine ⟨_, _, bind_ok hrun _, hallocated.single hstem hlate ?_⟩
  rintro nodes' next late rfl
  exact hstands nodes' next late

theorem allocates_pair {tree left right : Tree} {node : Nat → Nat → Node} (hl : Allocates left)
    (hr : Allocates right)
    (htree : allocTree tree = do
      let a ← allocTree left
      let b ← allocTree right
      alloc (node a b))
    (hstem : tree.stemSize = left.stemSize + right.stemSize + 1)
    (hlate : tree.lateSize = left.lateSize + right.lateSize)
    (hstands : ∀ nodes next late, left.Stands nodes next late →
      right.Stands nodes (next + left.stemSize) (late + left.lateSize) →
      nodes[next + left.stemSize + right.stemSize]? =
        some (node (left.rootAt next) (right.rootAt (next + left.stemSize))) →
      tree.Stands nodes next late) : Allocates tree := by
  intro nodes
  obtain ⟨a, nodes₁, hrun, hleft⟩ := hl nodes
  obtain ⟨b, nodes₂, hrun', hright⟩ := hr nodes₁
  rw [htree]
  refine ⟨_, _, (bind_ok hrun _).trans (bind_ok hrun' _), hleft.pair hright hstem hlate ?_⟩
  rintro nodes' next late rfl rfl
  exact hstands nodes' next late

theorem allocates_unary {op : UnaryOp} {operand : Tree} (h : Allocates operand) :
    Allocates (.unary op operand) :=
  allocates_single h rfl rfl rfl fun _ _ _ => And.intro

theorem allocates_expression {tree : Tree} (h : tree.IsExpression) : Allocates tree := by
  induction h with
  | number | name => exact allocates_leaf rfl rfl rfl fun _ _ _ => id
  | element _ _ ih => exact allocates_single ih rfl rfl rfl fun _ _ _ => And.intro
  | negate _ ih | not _ ih | step _ _ _ ih => exact allocates_unary ih
  | size | sort => exact allocates_unary (allocates_leaf rfl rfl rfl fun _ _ _ => id)
  | rowSize _ _ ih =>
    exact allocates_unary (allocates_single ih rfl rfl rfl fun _ _ _ => And.intro)
  | cell _ _ _ ihl ihr | binary _ _ _ ihl ihr | assign _ _ _ ihl ihr =>
    exact allocates_pair ihl ihr rfl rfl rfl fun _ _ _ hl hr hnode => ⟨hl, hr, hnode⟩

/-- A reader of statements that follows the grammar. -/
def BuildsStatements (statement : Within) (read : Grammar.Within) : Prop :=
  ∀ nodes loops text, Builds nodes (statement loops text) (read loops text) fun id nodes' tree =>
    Allocated nodes tree id nodes'

variable {statement : Within} {read : Grammar.Within}

theorem arrange_of_not_else {loops : Nat} {ids : List Nat} {piece : Text} {pieces : List Text}
    (h : ¬ ∃ rest, Keyword.atStart? piece = some (.elseWord, rest)) :
    arrange statement loops ids (piece :: pieces) =
      (do
        let id ← statement loops piece
        arrange statement loops (id :: ids) pieces) := by
  rw [arrange.eq_def]
  dsimp only
  split
  · exact absurd ⟨_, ‹_›⟩ h
  · exact absurd ⟨_, ‹_›⟩ h
  · rfl

theorem builds_else (hstatement : BuildsStatements statement read) {loops id : Nat}
    {last : Tree} {done : List Tree} {ids : List Nat} {piece rest : Text} {pieces : List Text}
    (hdone : Arranged nodes (last :: done).reverse (id :: ids).reverse nodes₁)
    (hrest : ∀ {nodes₁ : Array Node} {done : List Tree} {ids : List Nat},
      Arranged nodes done.reverse ids.reverse nodes₁ →
      Builds nodes₁ (arrange statement loops ids pieces) (Grammar.arrange read loops done pieces)
        fun ids nodes' trees => Arranged nodes trees ids nodes') :
    Builds nodes₁
      (match openIf? nodes₁ nodes₁.size id with
        | some (target, crossed) => do
          let branch ← statement (loops + crossed) rest
          attach target branch
          arrange statement loops (id :: ids) pieces
        | none => throw (.syntactic ⟨.strayElse, [piece]⟩))
      (match last.openIf? with
        | some crossed => do
          let branch ← read (loops + crossed) rest
          Grammar.arrange read loops ((last.withElse? branch).getD last :: done) pieces
        | none => throw (.syntactic ⟨.strayElse, [piece]⟩))
      fun ids nodes' trees => Arranged nodes trees ids nodes' := by
  have hroot := hdone.ids_eq
  rw [List.reverse_cons] at hdone
  rw [List.reverse_cons, List.reverse_cons, Tree.rootsAt_concat, List.append_singleton_inj] at hroot
  obtain ⟨-, rfl⟩ := hroot
  have hlast := (Tree.standAll_concat.mp hdone.stand).2
  have hend := hdone.ends_in_last
  have hsize := last.stemSize_add_lateSize
  cases hopen : last.openIf? with
  | none =>
    rw [hlast.openIf?_eq_none hopen]
    exact builds_throw _ _
  | some crossed =>
    obtain ⟨target, hopensAt⟩ := Tree.exists_opensAt hopen (nodes.size + Tree.sizeAll done.reverse)
      (nodes.size + Tree.sizeAll done.reverse + last.stemSize)
    rw [hopensAt.openIf?_eq hlast (by omega)]
    refine (hstatement _ _ _).bind fun id nodes₂ branch hbranch => ?_
    obtain ⟨extended, hextended, harranged⟩ := hdone.attach hopensAt hbranch
    rw [hextended]
    rw [← List.reverse_cons] at harranged
    exact hrest harranged

theorem builds_arrange (hstatement : BuildsStatements statement read) (loops : Nat)
    {done : List Tree} {ids : List Nat} (pieces : List Text)
    (hdone : Arranged nodes done.reverse ids.reverse nodes₁) :
    Builds nodes₁ (arrange statement loops ids pieces) (Grammar.arrange read loops done pieces)
      fun ids nodes' trees => Arranged nodes trees ids nodes' := by
  induction pieces generalizing done ids nodes₁ with
  | nil => exact builds_return hdone
  | cons piece pieces ih =>
    by_cases helse : ∃ rest, Keyword.atStart? piece = some (.elseWord, rest)
    · obtain ⟨rest, helse⟩ := helse
      unfold arrange Grammar.arrange
      have hids := hdone.ids_eq
      rw [helse]
      cases done with
      | nil =>
        obtain rfl : ids = [] := List.reverse_eq_nil_iff.mp hids
        exact builds_throw _ _
      | cons last done =>
        cases ids with
        | nil => simp [Tree.rootsAt_concat] at hids
        | cons id ids => exact builds_else hstatement hdone ih
    · rw [arrange_of_not_else helse, Grammar.arrange_of_not_else helse]
      refine (hstatement _ _ _).bind fun id nodes' tree htree => ih ?_
      rw [List.reverse_cons, List.reverse_cons]
      exact hdone.concat htree

theorem builds_block (hstatement : BuildsStatements statement read) :
    BuildsStatements (block statement) (Grammar.block read) := by
  intro nodes loops text
  refine (builds_lift (Grammar.reads_pieces _ _)).bind ?_
  rintro pieces nodes _ ⟨rfl, rfl, -⟩
  have hnil : Arranged nodes (List.reverse []) (List.reverse []) nodes :=
    ⟨rfl, ⟨rfl, fun _ _ => rfl⟩, trivial⟩
  refine (builds_arrange hstatement loops pieces hnil).bind ?_
  rintro ids nodes' trees ⟨rfl, hgrows, hstand⟩
  refine ⟨_, _, rfl, hgrows.allocated rfl rfl fun late hnode => ⟨hstand.congr ?_, hnode⟩⟩
  exact fun k _ hk => (grows_push nodes' _).keeps k (hgrows.size_eq ▸ hk)

variable {reading : Except Fault Tree}

/-- What the grammar reads is allocated, and then comes the rest. -/
theorem Builds.allocTree {next : Nat → Building α} {next' : Tree → Except Fault β}
    {good : α → Array Node → β → Prop} (h : Grammar.Reads reading Allocates)
    (hnext : ∀ id nodes' tree, Allocated nodes tree id nodes' →
      Builds nodes' (next id) (next' tree) good) :
    Builds nodes (do let tree ← reading; let id ← allocTree tree; next id) (reading >>= next')
      good := by
  refine (builds_lift h).bind ?_
  rintro tree nodes _ ⟨rfl, rfl, hallocates⟩
  obtain ⟨id, nodes', hrun, hallocated⟩ := hallocates nodes
  have hrest := hnext id nodes' tree hallocated
  unfold Builds at hrest ⊢
  rwa [bind_ok hrun]

theorem builds_tree (h : Grammar.Reads reading Allocates) :
    Builds nodes (do allocTree (← reading)) reading fun id nodes' tree =>
      Allocated nodes tree id nodes' := by
  cases reading with
  | ok tree =>
    obtain ⟨id, nodes', hrun, hallocated⟩ := h nodes
    exact ⟨id, nodes', (bind_ok rfl _).trans hrun, hallocated⟩
  | error fault => rfl

variable {inner : Grammar.Inner}

theorem allocates_inner (hinner : Grammar.ReadsInner inner) (text after : Text) :
    Grammar.Reads (inner text after) Allocates :=
  (hinner text after).mono fun _ => allocates_expression

theorem allocates_clause (hinner : Grammar.ReadsInner inner) {absent : Tree}
    (habsent : Allocates absent) (text : Text) :
    Grammar.Reads (Grammar.clause inner absent text) Allocates :=
  (Grammar.reads_clause hinner absent text).mono fun _ h =>
    h.elim (fun h => h ▸ habsent) allocates_expression

theorem builds_conditional (hinner : Grammar.ReadsInner inner)
    (hstatement : BuildsStatements statement read) :
    BuildsStatements (conditional inner statement) (Grammar.conditional inner read) := by
  intro nodes loops text
  refine (builds_lift (Grammar.reads_header _ _)).bind ?_
  rintro parts nodes _ ⟨rfl, rfl, -⟩
  refine .allocTree (allocates_inner hinner _ _) fun a nodes₁ condition hcondition => ?_
  refine (hstatement _ _ _).bind fun b nodes₂ yes hyes => ?_
  refine ⟨_, _, rfl, hcondition.pair hyes rfl rfl ?_⟩
  rintro nodes' next late rfl rfl hc hy hnode
  exact ⟨hc, hy, hnode⟩

theorem builds_whileLoop (hinner : Grammar.ReadsInner inner)
    (hstatement : BuildsStatements statement read) :
    BuildsStatements (whileLoop inner statement) (Grammar.whileLoop inner read) := by
  intro nodes loops text
  refine (builds_lift (Grammar.reads_header _ _)).bind ?_
  rintro parts nodes _ ⟨rfl, rfl, -⟩
  refine .allocTree (allocates_inner hinner _ _) fun a nodes₁ condition hcondition => ?_
  refine (hstatement _ _ _).bind fun b nodes₂ body hbody => ?_
  refine ⟨_, _, rfl, hcondition.pair hbody rfl rfl ?_⟩
  rintro nodes' next late rfl rfl hc hb hnode
  exact ⟨hc, hb, hnode⟩

theorem builds_forLoop (hinner : Grammar.ReadsInner inner)
    (hstatement : BuildsStatements statement read) :
    BuildsStatements (forLoop inner statement) (Grammar.forLoop inner read) := by
  intro nodes loops text
  have hempty : Allocates .empty := allocates_leaf rfl rfl rfl fun _ _ _ => id
  have hone := allocates_expression Grammar.isExpression_one
  refine (builds_lift (Grammar.reads_header _ _)).bind ?_
  rintro parts nodes _ ⟨rfl, rfl, -⟩
  refine (builds_lift (Grammar.reads_pieces _ _)).bind ?_
  rintro pieces nodes _ ⟨rfl, rfl, -⟩
  rcases pieces with _ | ⟨start, _ | ⟨condition, _ | ⟨update, _ | ⟨extra, pieces⟩⟩⟩⟩
  case cons.cons.cons.nil =>
    refine .allocTree (allocates_clause hinner hempty _) fun a nodes₁ start hstart => ?_
    refine .allocTree (allocates_clause hinner hone _) fun b nodes₂ condition hcondition => ?_
    refine .allocTree (allocates_clause hinner hempty _) fun c nodes₃ update hupdate => ?_
    refine (hstatement _ _ _).bind fun d nodes₄ body hbody => ?_
    exact ⟨_, _, rfl, hstart.forLoop hcondition hupdate hbody⟩
  all_goals exact builds_throw _ _

theorem allocates_breakLoop (loops : Nat) (text : Text) :
    Grammar.Reads (Grammar.breakLoop loops text) Allocates := by
  unfold Grammar.breakLoop
  split
  · exact Grammar.reads_throw rfl rfl
  · split
    · exact Grammar.reads_throw rfl rfl
    · exact Grammar.reads_return (allocates_leaf rfl rfl rfl fun _ _ _ => id)

theorem allocates_returning (hinner : Grammar.ReadsInner inner) (text : Text) :
    Grammar.Reads (Grammar.returning inner text) Allocates :=
  (allocates_inner hinner _ _).bind fun _ hvalue => Grammar.reads_return (allocates_unary hvalue)

theorem builds_plain (hinner : Grammar.ReadsInner inner)
    (hstatement : BuildsStatements statement read) :
    BuildsStatements (plain inner statement) fun loops text =>
      match Keyword.atStart? text with
      | some (.ifWord, rest) => Grammar.conditional inner read loops rest
      | some (.whileWord, rest) => Grammar.whileLoop inner read loops rest
      | some (.forWord, rest) => Grammar.forLoop inner read loops rest
      | some (.breakWord, rest) => Grammar.breakLoop loops rest
      | some (.returnWord, rest) => Grammar.returning inner rest
      | some (.elseWord, _) => throw (.syntactic ⟨.strayElse, [text]⟩)
      | none => inner text text := by
  intro nodes loops text
  unfold plain
  beta_reduce
  cases Keyword.atStart? text with
  | none => exact builds_tree (allocates_inner hinner _ _)
  | some found =>
    obtain ⟨keyword, rest⟩ := found
    cases keyword with
    | ifWord => exact builds_conditional hinner hstatement _ _ _
    | whileWord => exact builds_whileLoop hinner hstatement _ _ _
    | forWord => exact builds_forLoop hinner hstatement _ _ _
    | breakWord => exact builds_tree (allocates_breakLoop loops rest)
    | returnWord => exact builds_tree (allocates_returning hinner rest)
    | elseWord => exact builds_throw _ _

theorem builds_statement (limit room : Nat) :
    BuildsStatements (Building.statement limit room) (Grammar.statement limit room) := by
  induction room with
  | zero => exact fun _ _ _ => builds_throw _ _
  | succ room ih =>
    intro nodes loops text
    have hinner := Grammar.reads_expression limit room
    unfold Building.statement
    dsimp only
    split
    · case _ htrim =>
      rw [Grammar.statement]
      dsimp only
      rw [htrim]
      exact ⟨_, _, rfl, allocated_leaf rfl rfl fun _ _ _ => id⟩
    · case _ htrim =>
      rw [Grammar.statement]
      dsimp only
      rw [htrim]
      refine (builds_lift (Grammar.reads_enclosed _ _ _)).bind ?_
      rintro ⟨inside, rest⟩ nodes _ ⟨rfl, rfl, -⟩
      dsimp only
      cases rest.trimStart with
      | nil => exact builds_block ih _ _ _
      | cons => exact builds_throw _ _
    · case _ hnil hbrace =>
      rw [Grammar.statement_of_not_braces hnil hbrace]
      exact builds_plain hinner ih _ _ _

end Building

namespace Program

/-- A program that is read is made of the tree that the grammar reads. -/
theorem parse_eq (limit : Nat) (source : String) :
    parse limit source = ofTree <$> Grammar.rule limit source.toList := by
  have hblock := Building.builds_block (Building.builds_statement limit limit) #[] 0
    (Text.stripComments source.toList)
  unfold parse Grammar.rule
  cases hrule : Grammar.block (Grammar.statement limit limit) 0
      (Text.stripComments source.toList) with
  | ok tree =>
    rw [hrule] at hblock
    obtain ⟨id, nodes, hrun, hallocated⟩ := hblock
    have hsize : nodes.size = tree.size := by
      rw [hallocated.grows.size_eq, ← tree.stemSize_add_lateSize, hallocated.no_late]
      exact Nat.zero_add _
    have hprogram := ofTree_eq hsize (hallocated.stands tree.stemSize)
    dsimp only
    rw [hrun, hallocated.id_eq]
    exact congrArg Except.ok hprogram.symm
  | error fault =>
    rw [hrule] at hblock
    change Building.block _ _ _ _ = _ at hblock
    dsimp only
    rw [hblock]
    rfl

/-- A parsed program is the layout of a well-formed rule. -/
theorem parse_eq_ok {limit : Nat} {source : String} {program : Program}
    (h : parse limit source = .ok program) : ∃ tree, tree.IsRule ∧ program = ofTree tree := by
  have hrule := Grammar.reads_rule limit source.toList
  rw [parse_eq] at h
  cases htree : Grammar.rule limit source.toList with
  | ok tree =>
    rw [htree] at h hrule
    exact ⟨tree, hrule, (Except.ok.inj h).symm⟩
  | error fault =>
    rw [htree] at h
    cases h

theorem parse_eq_error {limit : Nat} {source : String} {fault : Fault}
    (h : parse limit source = .error fault) : fault.IsSyntactic ∧ fault.Fills := by
  have hrule := Grammar.reads_rule limit source.toList
  rw [parse_eq] at h
  cases htree : Grammar.rule limit source.toList with
  | ok tree =>
    rw [htree] at h
    cases h
  | error fault' =>
    rw [htree] at h hrule
    cases h
    exact hrule

end Program

end RuleLang

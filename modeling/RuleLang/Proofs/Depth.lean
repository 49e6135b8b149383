import RuleLang.Proofs.Reading

/-!
How deep the expressions in a parsed source can be. A chain of operators leans to the left, so the
steps to first operands are left out of count. The limit on nesting bounds the other steps on a
path, except for those from an assignment to its value: each level of it lets six steps more be
taken.
-/
namespace RuleLang

namespace Tree

variable {n m : Nat} {tree left right child : Tree}

/-- The kinds of steps from a tree to one just below it: to the first operand of an operation, to
the value of an assignment, and all others. -/
inductive Step
  | first
  | value
  | other
  deriving DecidableEq

/-- The trees just below a tree, each with the step to it. -/
def steps : Tree → List (Step × Tree)
  | binary op left right => [(.first, left), (if op = .assign then .value else .other, right)]
  | tree => tree.children.map fun child => (.other, child)

/-- The steps of a path from the root of a tree downwards. -/
inductive Path : Tree → List Step → Prop
  | stop {tree : Tree} : Path tree []
  | down {tree child : Tree} {step : Step} {path : List Step} (hstep : (step, child) ∈ tree.steps)
      (h : Path child path) : Path tree (step :: path)

/-- All paths down the tree have fewer other steps than a bound. -/
def Shallow (n : Nat) (tree : Tree) : Prop := ∀ path, tree.Path path → path.count .other < n

theorem Shallow.pos (h : tree.Shallow n) : 0 < n := h [] .stop

theorem Shallow.mono (h : tree.Shallow n) (hle : n ≤ m) : tree.Shallow m :=
  fun path hpath => (h path hpath).trans_le hle

theorem shallow_of_steps (hpos : 0 < n)
    (h : ∀ step ∈ tree.steps, ∃ m, step.2.Shallow m ∧ [step.1].count .other + m ≤ n) :
    tree.Shallow n := by
  intro path hpath
  cases hpath with
  | stop => exact hpos
  | @down _ child step path hstep hchild =>
    obtain ⟨m, hshallow, hle⟩ := h _ hstep
    have hlt := hshallow _ hchild
    change List.count .other ([step] ++ path) < n
    rw [List.count_append]
    exact (Nat.add_lt_add_left hlt _).trans_le hle

theorem shallow_leaf (h : tree.steps = []) : tree.Shallow 1 :=
  shallow_of_steps Nat.one_pos (by simp [h])

theorem shallow_of_children (h : ∀ step ∈ tree.steps, step.2.Shallow n) :
    tree.Shallow (n + 1) := by
  refine shallow_of_steps n.succ_pos fun step hstep => ⟨n, h step hstep, ?_⟩
  have hcount : [step.1].count .other ≤ 1 := List.count_le_length
  omega

theorem shallow_unary {op : UnaryOp} (h : child.Shallow n) : (unary op child).Shallow (n + 1) :=
  shallow_of_children (by simp [steps, children, h])

theorem shallow_element {x : String} (h : child.Shallow n) : (element x child).Shallow (n + 1) :=
  shallow_of_children (by simp [steps, children, h])

theorem shallow_cell {x : String} (hl : left.Shallow n) (hr : right.Shallow n) :
    (cell x left right).Shallow (n + 1) :=
  shallow_of_children (by simp [steps, children, hl, hr])

theorem shallow_binary {op : BinaryOp} (hl : left.Shallow (n + 1)) (hr : right.Shallow n) :
    (binary op left right).Shallow (n + 1) := by
  refine shallow_of_steps n.succ_pos ?_
  simp only [steps, List.forall_mem_cons]
  refine ⟨⟨n + 1, hl, by simp⟩, ⟨n, hr, ?_⟩, List.forall_mem_nil _⟩
  split <;> simp [Nat.add_comm]

theorem shallow_assign (hl : left.Shallow n) (hr : right.Shallow n) :
    (binary .assign left right).Shallow n := by
  refine shallow_of_steps hl.pos ?_
  simp only [steps, List.forall_mem_cons, if_true]
  exact ⟨⟨n, hl, by simp⟩, ⟨n, hr, by simp⟩, List.forall_mem_nil _⟩

/-- The expressions that a statement has itself, apart from the statements in it. -/
def heads : Tree → List Tree
  | unary .returning value => [value]
  | ifThen condition _ | ifElse condition _ _ | whileLoop condition _ => [condition]
  | forLoop start condition update _ => [start, condition, update]
  | empty | block _ | breakLoop => []
  | tree => [tree]

/-- The statements just inside a statement. -/
def bodies : Tree → List Tree
  | ifThen _ yes => [yes]
  | ifElse _ yes no => [yes, no]
  | whileLoop _ body | forLoop _ _ _ body => [body]
  | block statements => statements
  | _ => []

/-- A tree that stands somewhere in a statement where an expression is expected: as a statement,
a condition, a clause of a loop header or what is returned. -/
inductive StandsIn (e : Tree) : Tree → Prop
  | head {tree : Tree} (h : e ∈ tree.heads) : StandsIn e tree
  | body {tree part : Tree} (hpart : part ∈ tree.bodies) (h : StandsIn e part) : StandsIn e tree

/-- All expressions in the statement are shallow. -/
def Capped (n : Nat) (tree : Tree) : Prop := ∀ e, StandsIn e tree → e.Shallow n

theorem capped_iff :
    tree.Capped n ↔ (∀ e ∈ tree.heads, e.Shallow n) ∧ ∀ part ∈ tree.bodies, part.Capped n := by
  constructor
  · intro h
    exact ⟨fun e he => h e (.head he), fun part hpart e he => h e (.body hpart he)⟩
  · rintro ⟨hheads, hbodies⟩ e he
    cases he with
    | head h => exact hheads e h
    | body hpart h => exact hbodies _ hpart e h

theorem capped_leaf (hheads : tree.heads = []) (hbodies : tree.bodies = []) : tree.Capped n := by
  rw [capped_iff, hheads, hbodies]
  exact ⟨List.forall_mem_nil _, List.forall_mem_nil _⟩

theorem Capped.withElse? {branch extended : Tree} (h : tree.Capped n) (hbranch : branch.Capped n)
    (hextended : tree.withElse? branch = some extended) : extended.Capped n := by
  induction tree generalizing extended with
  | ifThen condition yes _ ih =>
    obtain ⟨hcondition, hyes⟩ := capped_iff.mp h
    have hyes := hyes yes List.mem_cons_self
    rw [Tree.withElse?] at hextended
    split at hextended
    · case _ yes' hyes' =>
      obtain rfl := Option.some.inj hextended
      exact capped_iff.mpr ⟨hcondition, List.forall_mem_singleton.mpr (ih hyes hyes')⟩
    · obtain rfl := Option.some.inj hextended
      exact capped_iff.mpr ⟨hcondition, by simp [bodies, hyes, hbranch]⟩
  | ifElse condition yes no _ _ ih =>
    obtain ⟨hcondition, hbodies⟩ := capped_iff.mp h
    obtain ⟨hyes, hno⟩ := List.forall_mem_cons.mp hbodies
    obtain ⟨no', hno', rfl⟩ := Option.map_eq_some_iff.mp hextended
    have hno' := ih (hno no List.mem_cons_self) hno'
    exact capped_iff.mpr ⟨hcondition, by simp [bodies, hyes, hno']⟩
  | whileLoop condition body _ ih | forLoop start condition update body _ _ _ ih =>
    obtain ⟨hheads, hbodies⟩ := capped_iff.mp h
    obtain ⟨body', hbody', rfl⟩ := Option.map_eq_some_iff.mp hextended
    have hbody' := ih (hbodies body List.mem_cons_self) hbody'
    exact capped_iff.mpr ⟨hheads, List.forall_mem_singleton.mpr hbody'⟩
  | _ => cases hextended

theorem IsExpression.capped (hexpression : tree.IsExpression) (h : tree.Shallow n) :
    tree.Capped n := by
  rw [capped_iff]
  cases hexpression with
  | step hop =>
    rcases hop with rfl | rfl | rfl | rfl <;> simpa [heads, bodies] using h
  | _ => simpa [heads, bodies] using h

end Tree

namespace Grammar

variable {α β : Type}

/-- The reading gives something good if it succeeds. -/
def Yields (reading : Except Fault α) (good : α → Prop) : Prop :=
  match reading with
  | .ok a => good a
  | .error _ => True

theorem yields_any (reading : Except Fault α) : Yields reading fun _ => True := by
  cases reading <;> trivial

theorem yields_return {a : α} {good : α → Prop} (h : good a) :
    Yields (pure a : Except Fault α) good := h

theorem yields_throw {fault : Fault} {good : α → Prop} :
    Yields (throw fault : Except Fault α) good := trivial

theorem Yields.mono {reading : Except Fault α} {good good' : α → Prop} (h : Yields reading good)
    (himp : ∀ a, good a → good' a) : Yields reading good' := by
  cases reading with
  | ok a => exact himp a h
  | error fault => trivial

theorem Yields.bind {reading : Except Fault α} {next : α → Except Fault β} {good : α → Prop}
    {good' : β → Prop} (h : Yields reading good) (hnext : ∀ a, good a → Yields (next a) good') :
    Yields (reading >>= next) good' := by
  cases reading with
  | ok a => exact hnext a h
  | error fault => trivial

theorem Yields.and {reading : Except Fault α} {good good' : α → Prop} (h : Yields reading good)
    (h' : Yields reading good') : Yields reading fun a => good a ∧ good' a := by
  cases reading with
  | ok a => exact ⟨h, h'⟩
  | error fault => trivial

section Expressions

variable {inner : Inner} {below : Text → Read} {n : Nat}

/-- The reader of what stands in brackets gives shallow trees. -/
def YieldsInner (n : Nat) (inner : Inner) : Prop :=
  ∀ text after, Yields (inner text after) (Tree.Shallow n)

def YieldsRead (n : Nat) (reader : Text → Read) : Prop :=
  ∀ text, Yields (reader text) fun found => found.1.Shallow n

/-- How deep an atom is over the expressions inside its brackets. What can be assigned to is less
deep, so that a step operator adds nothing to the depth of atoms. -/
structure IsAtom (n : Nat) (tree : Tree) : Prop where
  shallow : tree.Shallow (n + 2)
  lvalue : tree.isLvalue → tree.Shallow (n + 1)

theorem isAtom_of_shallow {tree : Tree} (h : tree.Shallow (n + 1)) : IsAtom n tree :=
  ⟨h.mono (Nat.le_succ _), fun _ => h⟩

theorem isAtom_unary {op : UnaryOp} {tree : Tree} (h : tree.Shallow (n + 1)) :
    IsAtom n (.unary op tree) := ⟨Tree.shallow_unary h, nofun⟩

theorem yields_index? (hinner : YieldsInner n inner) (name text : Text) :
    Yields (index? inner name text) fun found => ∀ index ∈ found, index.1.Shallow n := by
  unfold index?
  split
  · apply (yields_any _).bind
    intro parts _
    apply (hinner _ _).bind
    intro index hindex
    exact yields_return fun _ hfound => Option.some.inj hfound ▸ hindex
  · exact yields_return fun _ h => absurd h (Option.not_mem_none _)

theorem yields_call (start : Text) {target : Tree} (text : Text)
    (htarget : target.Shallow (n + 1)) :
    Yields (call start target text) fun found => IsAtom n found.1 := by
  unfold call
  split
  · dsimp only
    apply (yields_any _).bind
    intro word _
    split
    · split
      · apply (yields_any _).bind
        rintro ⟨arguments, rest⟩ _
        dsimp only
        split
        · apply (yields_any _).bind
          intro op _
          exact yields_return (isAtom_unary htarget)
        · exact yields_throw
      · exact yields_throw
    · exact yields_throw
  · exact yields_return (isAtom_of_shallow htarget)

theorem yields_reference (hinner : YieldsInner n inner) (name start text : Text) :
    Yields (reference inner name start text) fun found => IsAtom n found.1 := by
  unfold reference
  apply (yields_index? hinner _ _).bind
  intro row hrow
  split
  · exact yields_call _ _ ((Tree.shallow_leaf rfl).mono (Nat.le_add_left _ _))
  · apply (yields_index? hinner _ _).bind
    intro column hcolumn
    split
    · exact yields_call _ _ (Tree.shallow_element (hrow _ rfl))
    · exact yields_call _ _ (Tree.shallow_cell (hrow _ rfl) (hcolumn _ rfl))

theorem yields_extremum (hinner : YieldsInner n inner) (op : BinaryOp) (word text : Text) :
    Yields (extremum inner op word text) fun found => IsAtom n found.1 := by
  unfold extremum
  apply (yields_any _).bind
  intro parts _
  apply (yields_any _).bind
  intro pieces _
  split
  · apply (hinner _ _).bind
    intro left hleft
    apply (hinner _ _).bind
    intro right hright
    have hbinary : (Tree.binary op left right).Shallow (n + 1) :=
      Tree.shallow_binary (hleft.mono n.le_succ) hright
    exact yields_return (isAtom_of_shallow hbinary)
  · exact yields_throw

theorem yields_atom (hinner : YieldsInner n inner) (source text : Text) :
    Yields (atom inner source text) fun found => IsAtom n found.1 := by
  unfold atom
  dsimp only
  split
  · exact yields_throw
  · apply (yields_any _).bind
    intro parts _
    apply (hinner _ _).bind
    intro tree htree
    exact yields_return (isAtom_of_shallow (htree.mono n.le_succ))
  · exact yields_throw
  · apply (yields_any _).bind
    intro word _
    split
    · exact yields_throw
    · exact yields_return (isAtom_of_shallow ((Tree.shallow_leaf rfl).mono (Nat.le_add_left _ _)))
    · split
      · exact yields_throw
      · split
        · exact yields_extremum hinner _ _ _
        · exact yields_reference hinner _ _ _

theorem yields_step {op : UnaryOp} {target : Tree} (start rest : Text) (htarget : IsAtom n target) :
    Yields (step op target start rest) (IsAtom n) := by
  unfold step
  split
  · case isTrue hlvalue => exact yields_return (isAtom_unary (htarget.lvalue hlvalue))
  · exact yields_throw

theorem yields_stepped (hinner : YieldsInner n inner) (source text : Text) :
    Yields (stepped inner source text) fun found => IsAtom n found.1 := by
  unfold stepped
  apply (yields_atom hinner _ _).bind
  intro found hfound
  dsimp only
  split
  · exact (yields_step _ _ hfound).bind fun _ => yields_return
  · exact (yields_step _ _ hfound).bind fun _ => yields_return
  · exact yields_return hfound

theorem yields_operand (hinner : YieldsInner n inner) (hbelow : YieldsRead (n + 1) below)
    (source : Text) : YieldsRead (n + 2) (operand inner below source) := by
  intro text
  unfold operand
  dsimp only
  split
  · apply (yields_stepped hinner _ _).bind
    intro found hfound
    exact (yields_step _ _ hfound).bind fun _ htree => yields_return htree.shallow
  · apply (yields_stepped hinner _ _).bind
    intro found hfound
    exact (yields_step _ _ hfound).bind fun _ htree => yields_return htree.shallow
  · split
    · exact yields_return ((Tree.shallow_leaf rfl).mono (Nat.le_add_left _ _))
    · exact (hbelow _).bind fun _ hfound => yields_return (Tree.shallow_unary hfound)
  · exact (hbelow _).bind fun _ hfound => yields_return (Tree.shallow_unary hfound)
  · exact (hbelow _).mono fun _ hfound => hfound.mono (Nat.le_succ _)
  · exact (yields_stepped hinner _ _).mono fun _ hfound => hfound.shallow

/-- All operands after the first are shallow. -/
def ShallowLinks (n : Nat) (links : List (BinaryOp × Tree)) : Prop :=
  ∀ link ∈ links, link.2.Shallow n

theorem shallowLinks_nil : ShallowLinks n [] := List.forall_mem_nil _

theorem shallow_joinLevel (level : Nat) {first : Tree} {links : List (BinaryOp × Tree)}
    (hfirst : first.Shallow (n + 1)) (hlinks : ShallowLinks n links) :
    (joinLevel level first links).1.Shallow (n + 1) ∧
      ShallowLinks (n + 1) (joinLevel level first links).2 := by
  induction links generalizing first with
  | nil => exact ⟨hfirst, shallowLinks_nil⟩
  | cons link links ih =>
    obtain ⟨hnext, hrest⟩ := List.forall_mem_cons.mp hlinks
    unfold joinLevel
    split
    · exact ih (Tree.shallow_binary hfirst hnext) hrest
    · obtain ⟨hnext, hrest⟩ := ih (hnext.mono n.le_succ) hrest
      exact ⟨hfirst, List.forall_mem_cons.mpr ⟨hnext, hrest⟩⟩

/-- Each of the four levels adds at most one operand to the right of another. -/
theorem shallow_join {first : Tree} {links : List (BinaryOp × Tree)} (hfirst : first.Shallow n)
    (hlinks : ShallowLinks n links) : (join first links).Shallow (n + 4) := by
  obtain ⟨hfirst, hlinks⟩ := shallow_joinLevel 3 (hfirst.mono (Nat.le_succ _)) hlinks
  obtain ⟨hfirst, hlinks⟩ := shallow_joinLevel 2 (hfirst.mono (Nat.le_succ _)) hlinks
  obtain ⟨hfirst, hlinks⟩ := shallow_joinLevel 1 (hfirst.mono (Nat.le_succ _)) hlinks
  exact (shallow_joinLevel 0 (hfirst.mono (Nat.le_succ _)) hlinks).1

theorem yields_links {operand : Text → Read} (hoperand : YieldsRead n operand) (bound : Nat)
    (start : Text) {first : Tree} {read : List (BinaryOp × Tree)} (text : Text)
    (hfirst : first.Shallow n) (hread : ShallowLinks n read) :
    Yields (links operand bound start first read text) fun found => found.1.Shallow (n + 4) := by
  have hjoin {first : Tree} {read : List (BinaryOp × Tree)} (hfirst : first.Shallow n)
      (hread : ShallowLinks n read) : (join first read.reverse).Shallow (n + 4) :=
    shallow_join hfirst fun link hlink => hread link (List.mem_reverse.mp hlink)
  induction bound generalizing start first read text with
  | zero =>
    rw [links_end (.inl rfl)]
    exact yields_return (hjoin hfirst hread)
  | succ bound ih =>
    cases hlink : linkAt? text.trimStart with
    | none =>
      rw [links_end (.inr hlink)]
      exact yields_return (hjoin hfirst hread)
    | some link =>
      obtain ⟨op, k⟩ := link
      by_cases hop : op = .assign
      · subst hop
        rw [links_assign hlink]
        split
        · apply (hoperand _).bind
          intro found hfound
          apply (ih _ _ hfound shallowLinks_nil).bind
          intro value hvalue
          exact yields_return (Tree.shallow_assign (hjoin hfirst hread) hvalue)
        · exact yields_throw
      · rw [links_operator hop hlink]
        apply (hoperand _).bind
        intro found hfound
        exact ih _ _ hfirst (List.forall_mem_cons.mpr ⟨hfound, hread⟩)

theorem yields_chain {operand : Text → Read} (hoperand : YieldsRead n operand) :
    YieldsRead (n + 4) (chain operand) := by
  intro text
  unfold chain
  apply (hoperand _).bind
  intro found hfound
  exact yields_links hoperand _ _ _ hfound shallowLinks_nil

end Expressions

/-- Each level of the room adds at most six steps. -/
theorem yields_expression_prefixed (limit room : Nat) :
    YieldsInner (6 * room) (expression limit room) ∧
      ∀ source, YieldsRead (6 * room + 1) (prefixed limit room source) := by
  induction room with
  | zero =>
    refine ⟨fun text after => ?_, fun source text => ?_⟩
    · unfold expression
      split <;> exact yields_throw
    · unfold prefixed
      exact yields_throw
  | succ room ih =>
    refine ⟨fun text after => ?_, fun source text => ?_⟩
    · unfold expression
      split
      · exact yields_throw
      · apply (yields_chain (yields_operand ih.1 (ih.2 text) text) _).bind
        intro found hfound
        dsimp only
        split
        · exact yields_return hfound
        · exact yields_throw
    · unfold prefixed
      refine (yields_operand ih.1 (ih.2 source) source text).mono fun _ hfound => ?_
      exact hfound.mono (by omega)

section Statements

variable {inner : Inner} {statement : Within} {n : Nat}

/-- The reader gives statements whose expressions are shallow. -/
def YieldsStatements (n : Nat) (statement : Within) : Prop :=
  ∀ loops text, Yields (statement loops text) (Tree.Capped n)

theorem yields_arrange (hstatement : YieldsStatements n statement) (loops : Nat)
    {done : List Tree} (pieces : List Text) (hdone : ∀ s ∈ done, s.Capped n) :
    Yields (arrange statement loops done pieces) fun statements =>
      ∀ s ∈ statements, s.Capped n := by
  induction pieces generalizing done with
  | nil => exact yields_return fun s hs => hdone s (List.mem_reverse.mp hs)
  | cons piece pieces ih =>
    unfold arrange
    split
    · case _ rest last earlier _ =>
      obtain ⟨hlast, hearlier⟩ := List.forall_mem_cons.mp hdone
      split
      · apply (hstatement _ _).bind
        intro branch hbranch
        refine ih (List.forall_mem_cons.mpr ⟨?_, hearlier⟩)
        cases hextended : last.withElse? branch with
        | none => exact hlast
        | some extended => exact hlast.withElse? hbranch hextended
      · exact yields_throw
    · exact yields_throw
    · apply (hstatement _ _).bind
      intro tree htree
      exact ih (List.forall_mem_cons.mpr ⟨htree, hdone⟩)

theorem yields_block (hstatement : YieldsStatements n statement) (loops : Nat) (text : Text) :
    Yields (block statement loops text) (Tree.Capped n) := by
  unfold block
  apply (yields_any _).bind
  intro pieces _
  apply (yields_arrange hstatement loops pieces (by simp)).bind
  intro statements hstatements
  exact yields_return (Tree.capped_iff.mpr ⟨List.forall_mem_nil _, hstatements⟩)

theorem yields_clause (hinner : YieldsInner n inner) {absent : Tree} (habsent : absent.Shallow 1)
    (text : Text) : Yields (clause inner absent text) fun tree => 0 < n → tree.Shallow n := by
  unfold clause
  split
  · exact yields_return habsent.mono
  · exact (hinner _ _).mono fun _ h _ => h

theorem yields_conditional (hinner : YieldsInner n inner)
    (hstatement : YieldsStatements n statement) (loops : Nat) (text : Text) :
    Yields (conditional inner statement loops text) (Tree.Capped n) := by
  unfold conditional
  apply (yields_any _).bind
  intro parts _
  apply (hinner _ _).bind
  intro condition hcondition
  apply (hstatement _ _).bind
  intro body hbody
  exact yields_return (Tree.capped_iff.mpr (by simp [Tree.heads, Tree.bodies, hcondition, hbody]))

theorem yields_whileLoop (hinner : YieldsInner n inner)
    (hstatement : YieldsStatements n statement) (loops : Nat) (text : Text) :
    Yields (whileLoop inner statement loops text) (Tree.Capped n) := by
  unfold whileLoop
  apply (yields_any _).bind
  intro parts _
  apply (hinner _ _).bind
  intro condition hcondition
  apply (hstatement _ _).bind
  intro body hbody
  exact yields_return (Tree.capped_iff.mpr (by simp [Tree.heads, Tree.bodies, hcondition, hbody]))

/-- The clauses that are left out are no deeper than what else is there if a body can be read. -/
theorem yields_forLoop (hinner : YieldsInner n inner) (hstatement : YieldsStatements n statement)
    (hpos : ∀ loops text, Yields (statement loops text) fun _ => 0 < n) (loops : Nat)
    (text : Text) : Yields (forLoop inner statement loops text) (Tree.Capped n) := by
  have hempty : Tree.empty.Shallow 1 := Tree.shallow_leaf rfl
  have hone : (Tree.number 1).Shallow 1 := Tree.shallow_leaf rfl
  unfold forLoop
  apply (yields_any _).bind
  intro parts _
  apply (yields_any _).bind
  intro pieces _
  split
  · apply (yields_clause hinner hempty _).bind
    intro start hstart
    apply (yields_clause hinner hone _).bind
    intro condition hcondition
    apply (yields_clause hinner hempty _).bind
    intro update hupdate
    apply ((hstatement _ _).and (hpos _ _)).bind
    rintro body ⟨hbody, hpos⟩
    exact yields_return (Tree.capped_iff.mpr (by
      simp [Tree.heads, Tree.bodies, hstart hpos, hcondition hpos, hupdate hpos, hbody]))
  · exact yields_throw

end Statements

theorem yields_statement (limit : Nat) {room n : Nat} (hn : 6 * room ≤ n + 6) :
    YieldsStatements n (statement limit room) := by
  induction room with
  | zero => exact fun _ _ => yields_throw
  | succ room ih =>
    have hinner : YieldsInner n (expression limit room) := fun text after =>
      ((yields_expression_prefixed limit room).1 text after).mono fun _ h => h.mono (by omega)
    have hstatement := ih (by omega)
    have hpos (loops : Nat) (text : Text) :
        Yields (statement limit room loops text) fun _ => 0 < n := by
      cases room with
      | zero => exact yields_throw
      | succ room => exact (yields_any _).mono fun _ _ => by omega
    intro loops text
    unfold statement
    dsimp only
    split
    · exact yields_return (Tree.capped_leaf rfl rfl)
    · apply (yields_any _).bind
      intro parts _
      split
      · exact yields_block hstatement _ _
      · exact yields_throw
    · split
      · exact yields_conditional hinner hstatement _ _
      · exact yields_whileLoop hinner hstatement _ _
      · exact yields_forLoop hinner hstatement hpos _ _
      · unfold breakLoop
        split
        · exact yields_throw
        · split
          · exact yields_throw
          · exact yields_return (Tree.capped_leaf rfl rfl)
      · apply (hinner _ _).bind
        intro value hvalue
        exact yields_return (Tree.capped_iff.mpr (by simp [Tree.heads, Tree.bodies, hvalue]))
      · exact yields_throw
      · have hexpression := reads_expression limit room text.trim text.trim
        have hshallow := hinner text.trim text.trim
        cases hread : expression limit room text.trim text.trim with
        | error fault => trivial
        | ok tree =>
          rw [hread] at hexpression hshallow
          exact Tree.IsExpression.capped hexpression hshallow

theorem yields_rule (limit : Nat) (source : Text) :
    Yields (rule limit source) (Tree.Capped (6 * (limit - 1))) :=
  yields_block (yields_statement limit (by omega)) 0 _

end Grammar
end RuleLang

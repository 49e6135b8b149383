import RuleLang.Proofs.Depth
import RuleLang.Proofs.RoundTrip

/-!
Chains of assignments. The value of an assignment is a chain of its own and is read without using
any room for nesting. A chain of assignments can therefore lean to the right as far as one likes,
and the limit on nesting caps an expression only if its values of assignments are left out of count.
-/
namespace RuleLang

namespace Grammar

variable {limit room n : Nat}

/-- A text with a number of assignments in a row. -/
def assignments : Nat → Text
  | 0 => ['1']
  | n + 1 => 'a' :: '=' :: assignments n

def assignmentTree : Nat → Tree
  | 0 => .number 1
  | n + 1 => .binary .assign (.name "a") (assignmentTree n)

theorem mem_assignments (n : Nat) : ∀ c ∈ assignments n, c ∈ ['a', '=', '1'] := by
  induction n with
  | zero => simp [assignments]
  | succ n ih => simpa [assignments] using ih

theorem isOperand_assignments (n : Nat) : IsOperand (assignments n) where
  nested := by
    have hplain : ∀ c ∈ ['a', '=', '1'], Text.isPlain false c := by decide
    exact Text.nested_of_forall fun c hc => hplain c (mem_assignments n c hc)
  nonempty := by cases n <;> exact List.cons_ne_nil _ _
  head := by
    cases n <;>
    · rintro _ ⟨⟩
      exact .inl (by decide)
  last := by
    have hlast : (assignments n).getLast? = some '1' := by
      induction n with
      | zero => rfl
      | succ n ih => simp [assignments, List.getLast?_cons, ih]
    rw [hlast]
    rintro _ ⟨⟩
    exact .inl (by decide)

theorem isCode_assignments (n : Nat) : Text.IsCode (assignments n) := by
  have hcode : ∀ c ∈ ['a', '=', '1'], c ≠ '\n' ∧ c ≠ '/' := by decide
  exact Text.isCode_of_forall fun c hc => hcode c (mem_assignments n c hc)

theorem trimStart_assignments (n : Nat) : (assignments n).trimStart = assignments n := by
  simpa using (isOperand_assignments n).trimStart_append []

theorem operatorAtStart?_assign (n : Nat) :
    Operator.atStart? ('=' :: assignments n) = some (.assign, 1) := by
  cases n <;> rfl

theorem operand_name_assign (limit room : Nat) (below : Text → Read) (source : Text) (n : Nat) :
    operand (expression limit room) below source (assignments (n + 1)) =
      .ok (.name "a", '=' :: assignments n) := by
  have ha : IsIdentifier "a" := ⟨by decide, by decide, by decide, by decide⟩
  have hlength : (Tree.name "a").spell.length ≤ room + 2 := Nat.le_add_left 1 (room + 1)
  refine (readsBack_name ha).operand_eq (isOperand_word ha.inWord ha.nonempty) hlength ?_ ?_ _ _
  · simp [Follows, operatorChars]
  · intro op k h
    rw [operatorAtStart?_assign] at h
    cases h
    exact ⟨by decide, by decide⟩

theorem operand_one (limit room : Nat) (below : Text → Read) (source : Text) :
    operand (expression limit room) below source (assignments 0) = .ok (.number 1, []) := by
  have hread : ReadsBack limit (.number 1) := readsBack_number (.inl (by decide))
  have hlength : (Tree.number 1).spell.length ≤ room + 2 := Nat.le_add_left 1 (room + 1)
  exact hread.operand_end (isOperand_assignments 0 : IsOperand (Tree.number 1).spell) hlength _ _

theorem links_assign_value (operand : Text → Read) (bound : Nat) (start : Text) (n : Nat) :
    links operand (bound + 1) start (.name "a") [] ('=' :: assignments n) = (do
      let (first, rest) ← operand (assignments n)
      let (value, rest) ← links operand bound (assignments n) first [] rest
      return (.binary .assign (.name "a") value, rest)) := by
  have hsign : Text.trimStart ('=' :: assignments n) = '=' :: assignments n :=
    Text.trimStart_cons_of_not_blank (by decide) _
  have hlink : linkAt? (Text.trimStart ('=' :: assignments n)) = some (.assign, 1) := by
    rw [hsign, linkAt?, operatorAtStart?_assign]
    rfl
  have htarget : join (.name "a") [].reverse = .name "a" := rfl
  have hlvalue : (Tree.name "a").isLvalue := rfl
  rw [links_assign hlink, hsign, List.drop_succ_cons, List.drop_zero, trimStart_assignments,
    htarget, if_pos hlvalue]

/-- The chain goes on to the right without another reader. -/
theorem links_assignments (limit room : Nat) (below : Text → Read) (source start : Text)
    {n bound : Nat} (hbound : n < bound) :
    links (operand (expression limit room) below source) bound start (.name "a") []
      ('=' :: assignments n) = .ok (assignmentTree (n + 1), []) := by
  induction n generalizing start bound with
  | zero =>
    obtain ⟨bound, rfl⟩ : ∃ b, bound = b + 1 := Nat.exists_eq_succ_of_ne_zero (by omega)
    rw [links_assign_value, operand_one]
    simp only [ok_bind]
    rw [links_end (.inr rfl)]
    rfl
  | succ n ih =>
    obtain ⟨bound, rfl⟩ : ∃ b, bound = b + 1 := Nat.exists_eq_succ_of_ne_zero (by omega)
    rw [links_assign_value, operand_name_assign]
    simp only [ok_bind]
    rw [ih _ (Nat.lt_of_succ_lt_succ hbound)]
    rfl

theorem chain_assignments (limit room : Nat) (below : Text → Read) (source : Text) (n : Nat) :
    chain (operand (expression limit room) below source) (assignments n) =
      .ok (assignmentTree n, []) := by
  cases n with
  | zero => exact chain_of_operand (operand_one limit room below source)
  | succ n =>
    have hlength (k : Nat) : k < (assignments k).length := by
      induction k with
      | zero => decide
      | succ k ih =>
        simp only [assignments, List.length_cons]
        omega
    rw [chain, trimStart_assignments, operand_name_assign]
    exact links_assignments limit room below source _ (Nat.lt_of_succ_lt (hlength (n + 1)))

theorem expression_assignments (limit room n : Nat) (after : Text) :
    expression limit (room + 1) (assignments n) after = .ok (assignmentTree n) := by
  have hblank : ¬ (assignments n).isBlank := by
    simpa using (isOperand_assignments n).not_isBlank_append []
  exact expression_of_chain hblank (chain_assignments limit room _ _ n) after

theorem pieces_assignments (n : Nat) :
    Division.statements.pieces (assignments n) = .ok [assignments n] := by
  have hoperand := isOperand_assignments n
  have hblank : ¬ (assignments n).isBlank := by simpa using hoperand.not_isBlank_append []
  have hpieces := Division.pieces_intercalate (List.cons_ne_nil (assignments n) [])
    (List.forall_mem_singleton.mpr
      (Division.isPiece_of_nested Division.statements_mem hoperand.nested))
    (List.forall_mem_singleton.mpr (.inr hblank)) (by rwa [List.intercalate_singleton])
  rwa [List.intercalate_singleton, List.map_singleton, hoperand.trim] at hpieces

theorem rule_assignments (room n : Nat) :
    rule (room + 2) (assignments n) = .ok (.block [assignmentTree n]) := by
  have hkeyword : Keyword.atStart? (assignments n) = none := by cases n <;> rfl
  have hoperand := isOperand_assignments n
  have hstatement : statement (room + 2) (room + 2) 0 (assignments n) = .ok (assignmentTree n) := by
    rw [statement_expression hoperand.trim hoperand hkeyword, expression_assignments]
  rw [rule, (isCode_assignments n).stripComments]
  simp only [block, pieces_assignments, ok_bind, arrange, hkeyword, hstatement]
  rfl

end Grammar

namespace Program

theorem parse_assignments (room n : Nat) :
    Program.parse (room + 2) (.ofList (Grammar.assignments n)) =
      .ok (ofTree (.block [Grammar.assignmentTree n])) := by
  rw [Program.parse_eq, String.toList_ofList, Grammar.rule_assignments]
  rfl

theorem path_assignmentTree (n : Nat) :
    (Grammar.assignmentTree n).Path (List.replicate n .value) := by
  induction n with
  | zero => exact .stop
  | succ n ih => exact .down (by simp [Grammar.assignmentTree, Tree.steps]) ih

theorem standsIn_assignmentTree (n : Nat) :
    (Grammar.assignmentTree n).StandsIn (.block [Grammar.assignmentTree n]) := by
  refine .body List.mem_cons_self (.head ?_)
  cases n <;> simp [Grammar.assignmentTree, Tree.heads]

/-- No limit on nesting bounds how many values of assignments a path goes down to. -/
theorem exists_deep_assignments {limit : Nat} (hlimit : 2 ≤ limit) (n : Nat) :
    ∃ source program, Program.parse limit source = .ok program ∧
      ∃ e : Tree, e.StandsIn program.tree ∧ e.Path (List.replicate n .value) := by
  obtain ⟨room, rfl⟩ : ∃ room, limit = room + 2 := ⟨limit - 2, by omega⟩
  refine ⟨_, _, parse_assignments room n, Grammar.assignmentTree n, ?_, path_assignmentTree n⟩
  rw [tree_ofTree]
  exact standsIn_assignmentTree n

theorem count_other_lt {limit : Nat} {source : String} {program : Program}
    (h : Program.parse limit source = .ok program) {e : Tree} (he : e.StandsIn program.tree)
    {path : List Tree.Step} (hpath : e.Path path) : path.count .other < 6 * (limit - 1) := by
  have hyields := Grammar.yields_rule limit source.toList
  rw [Program.parse_eq] at h
  cases htree : Grammar.rule limit source.toList with
  | ok tree =>
    rw [htree] at h hyields
    obtain rfl := Except.ok.inj h
    rw [tree_ofTree] at he
    exact hyields e he path hpath
  | error fault =>
    rw [htree] at h
    cases h

theorem countP_ne_first (path : List Tree.Step) :
    path.countP (· ≠ .first) = path.count .other + path.count .value := by
  induction path with
  | nil => rfl
  | cons step path ih =>
    rw [List.countP_cons, List.count_cons, List.count_cons, ih]
    cases step <;> simp <;> omega

/-- The limit on nesting bounds the steps on a path down an expression, except for those to first
operands and to values of assignments. If there are not too many of the latter on any path, at most
eight steps for each level lead elsewhere than to a first operand. -/
theorem parse_depth {limit : Nat} {source : String} {program : Program}
    (h : Program.parse limit source = .ok program) {e : Tree} (he : e.StandsIn program.tree) :
    (∀ path, e.Path path → path.count .other < 6 * (limit - 1)) ∧
      ((∀ path, e.Path path → path.count .value ≤ 2 * limit + 7) →
        ∀ path, e.Path path → path.countP (· ≠ .first) ≤ 8 * limit) := by
  refine ⟨fun path hpath => count_other_lt h he hpath, fun hvalues path hpath => ?_⟩
  have hother := count_other_lt h he hpath
  have hvalue := hvalues path hpath
  rw [countP_ne_first]
  omega

/-- Three levels suffice for an index, which is one step down. -/
theorem parse_depth_index :
    (∀ path, (Tree.element "x" (.name "i")).Path path → path.count .other < 12) ∧
      ∀ path, (Tree.element "x" (.name "i")).Path path → path.countP (· ≠ .first) ≤ 24 := by
  have hrule : Grammar.rule 3 "x[i]".toList = .ok (.block [.element "x" (.name "i")]) := by cbv
  have hparse : Program.parse 3 "x[i]" = .ok (ofTree (.block [.element "x" (.name "i")])) := by
    rw [Program.parse_eq, hrule]
    rfl
  have hstands : (Tree.element "x" (.name "i")).StandsIn
      (ofTree (.block [.element "x" (.name "i")])).tree := by
    rw [tree_ofTree]
    exact .body List.mem_cons_self (.head List.mem_cons_self)
  have hvalues (path : List Tree.Step) (hpath : (Tree.element "x" (.name "i")).Path path) :
      path.count .value ≤ 13 := by
    cases hpath with
    | stop => decide
    | down hstep h =>
      obtain ⟨rfl, rfl⟩ : _ = Tree.Step.other ∧ _ = Tree.name "i" := by
        simpa [Tree.steps, Tree.children] using hstep
      cases h with
      | stop => decide
      | down hstep => simp [Tree.steps, Tree.children] at hstep
  obtain ⟨hother, hcounted⟩ := parse_depth hparse hstands
  exact ⟨hother, hcounted hvalues⟩

/-- Thirty-three assignments in a row are read with four levels of nesting. -/
theorem parse_deep_assignments :
    ¬ ∀ limit source program, Program.parse limit source = .ok program →
      ∀ e : Tree, e.StandsIn program.tree →
        ∀ path, e.Path path → path.countP (· ≠ .first) ≤ 8 * limit := by
  intro h
  have hsource : "a=a=a=a=a=a=a=a=a=a=a=a=a=a=a=a=a=a=a=a=a=a=a=a=a=a=a=a=a=a=a=a=a=1" =
      String.ofList (Grammar.assignments 33) := rfl
  have hparse := parse_assignments 2 33
  rw [← hsource] at hparse
  have hstands := standsIn_assignmentTree 33
  rw [← tree_ofTree (.block [Grammar.assignmentTree 33])] at hstands
  exact absurd (h 4 _ _ hparse _ hstands _ (path_assignmentTree 33)) (by decide)

end Program
end RuleLang

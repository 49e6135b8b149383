import RuleLang.Proofs.StoreFaults

/-!
Faults of syntax come from reading a source, and from there only. The store never reports one,
and the execution of a well-formed rule reports nothing but faults of the store, of arithmetic
and of a loop that does not end. What a run has to say about trees that it cannot make sense of
is therefore never said of a tree that was read.
-/
namespace RuleLang

variable {σ α β : Type}

/-- The action fails with a fault of syntax from no state. -/
def Spares (act : EStateM Fault σ α) : Prop :=
  ∀ state fault state', act state = .error fault state' → ¬ fault.IsSyntactic

theorem spares_return (a : α) : Spares (pure a : EStateM Fault σ α) := fun _ _ _ => nofun

theorem spares_throw {fault : Fault} (h : ¬ fault.IsSyntactic) :
    Spares (throw fault : EStateM Fault σ α) := by
  rintro _ _ _ ⟨⟩
  exact h

theorem Spares.bind {act : EStateM Fault σ α} {next : α → EStateM Fault σ β} (h : Spares act)
    (hnext : ∀ a, Spares (next a)) : Spares (act >>= next) := by
  intro state fault state' herror
  cases hact : act state with
  | ok a later =>
    rw [Run.bind_ok hact] at herror
    exact hnext a later fault state' herror
  | error fault' later =>
    rw [Run.bind_error hact] at herror
    cases herror
    exact h state _ _ hact

/-- No fault of the store is one of syntax. -/
theorem Reports.spares {act : EStateM Fault σ α} (h : Reports Store.templates act) :
    Spares act := by
  have hnot : ∀ template ∈ Store.templates, template.category ≠ .syntactic := by decide
  intro state fault state' herror
  obtain ⟨hmem, hfills⟩ := h state fault state' herror
  exact fun hsyntactic => hnot _ hmem (hfills.category_eq.symm.trans hsyntactic)

theorem spares_reading {get : Store → Except Fault α}
    (h : ∀ store, FailsWith Store.templates (get store)) : Spares (Store.reading get) :=
  (Store.reports_reading h).spares

namespace Tree

open Store

theorem spares_quotient (op : BinaryOp) (left right : Tree) (l r : Int32) :
    Spares (quotient op left right l r) := by
  unfold quotient
  split
  · exact spares_return _
  · exact spares_throw nofun

/-- The index of a target is evaluated alone by a step or an assignment. -/
theorem spares_eval_and_index {tree : Tree} (h : tree.IsExpression) :
    Spares tree.eval ∧ ∀ x index, tree = element x index → Spares index.eval := by
  induction h with
  | number => exact ⟨spares_return _, by simp⟩
  | name =>
    refine ⟨?_, by simp⟩
    exact (spares_reading fun _ => failsWith_read _ _).bind fun _ => spares_return _
  | element hx hindex ih =>
    refine ⟨?_, by rintro _ _ ⟨⟩; exact ih.1⟩
    apply ih.1.bind
    intro index
    exact (spares_reading fun _ => failsWith_readElement _ _ _).bind fun _ => spares_return _
  | cell hx hrow hcolumn ihr ihc =>
    refine ⟨?_, by simp⟩
    refine ihr.1.bind fun row => ihc.1.bind fun column => ?_
    exact (spares_reading fun _ => failsWith_readCell _ _ _ _).bind fun _ => spares_return _
  | negate h ih | not h ih => exact ⟨ih.1.bind fun _ => spares_return _, by simp⟩
  | @step op target hop htarget h ih =>
    have hstep (delta : Int32) : Spares (target.evalStep delta) := by
      cases h with
      | name => exact (reports_increment _ _).spares
      | element => exact (ih.2 _ _ rfl).bind fun _ => (reports_incrementElement _ _ _).spares
      | _ => simp [isLvalue] at htarget
    refine ⟨?_, by simp⟩
    rcases hop with rfl | rfl | rfl | rfl <;> exact (hstep _).bind fun _ => spares_return _
  | size hx =>
    exact ⟨(spares_reading fun _ => failsWith_size _ _).bind fun _ => spares_return _, by simp⟩
  | rowSize hx hindex ih =>
    refine ⟨ih.1.bind fun index => ?_, by simp⟩
    exact (spares_reading fun _ => failsWith_rowSize _ _ _).bind fun _ => spares_return _
  | sort hx => exact ⟨(reports_sort _).spares.bind fun _ => spares_return _, by simp⟩
  | binary hop hl hr ihl ihr =>
    refine ⟨?_, by simp⟩
    rw [eval_binary hop]
    exact ihl.1.bind fun l => ihr.1.bind fun r => spares_quotient _ _ _ _ _
  | @assign target source htarget ht hv iht ihv =>
    refine ⟨?_, by simp⟩
    cases ht with
    | name =>
      by_cases hsource : ∃ y, source = name y
      · obtain ⟨y, rfl⟩ := hsource
        exact (reports_copy _ _).spares.bind fun _ => spares_return _
      · rw [eval_assign_name fun y hy => hsource ⟨y, hy⟩]
        apply ihv.1.bind
        intro value
        exact (reports_assign _ _).spares.bind fun _ => spares_return _
    | element =>
      refine (iht.2 _ _ rfl).bind fun index => ihv.1.bind fun value => ?_
      exact (reports_assignElement _ _ _).spares.bind fun _ => spares_return _
    | _ => simp [isLvalue] at htarget

theorem spares_eval {tree : Tree} (h : tree.IsExpression) : Spares tree.eval :=
  (spares_eval_and_index h).1

theorem spares_clause {tree : Tree} (h : tree.IsClause) : Spares (discard tree.eval) := by
  have heval : Spares tree.eval := by
    rcases h with rfl | h
    · exact spares_return _
    · exact spares_eval h
  exact heval.bind fun _ => spares_return _

theorem spares_iterate (ceiling : Nat) {condition : Write Int32} {body : Write Ending}
    {update : Write Unit} (hcondition : Spares condition) (hbody : Spares body)
    (hupdate : Spares update) (left : Nat) (last : Yield) :
    Spares (iterate ceiling condition body update left last) := by
  induction left generalizing last with
  | zero =>
    unfold iterate
    apply hcondition.bind
    intro c
    split
    · exact spares_return _
    · refine spares_throw ?_
      rintro ⟨⟩
  | succ left ih =>
    unfold iterate
    apply hcondition.bind
    intro c
    split
    · exact spares_return _
    · apply hbody.bind
      intro ending
      cases ending with
      | normal yielded => exact hupdate.bind fun _ => ih _
      | broke | returned => exact spares_return _

theorem spares_execAll (ceiling : Nat) {statements : List Tree}
    (h : ∀ s ∈ statements, Spares (s.exec ceiling)) (last : Yield) :
    Spares (execAll ceiling last statements) := by
  induction statements generalizing last with
  | nil => exact spares_return _
  | cons statement statements ih =>
    obtain ⟨hstatement, hstatements⟩ := List.forall_mem_cons.mp h
    apply hstatement.bind
    intro ending
    cases ending with
    | normal yielded => exact ih hstatements _
    | broke | returned => exact spares_return _

theorem spares_exec (ceiling : Nat) {loops : Nat} {tree : Tree} (h : tree.IsStatement loops) :
    Spares (tree.exec ceiling) := by
  induction h with
  | empty | breakLoop => exact spares_return _
  | expression h =>
    rw [exec_expression ceiling h]
    exact (spares_eval h).bind fun _ => spares_return _
  | returning h => exact (spares_eval h).bind fun _ => spares_return _
  | ifThen hc hy ih =>
    apply (spares_eval hc).bind
    intro c
    split
    · exact ih
    · exact spares_return _
  | ifElse hc hy hn ihy ihn =>
    apply (spares_eval hc).bind
    intro c
    split
    · exact ihy
    · exact ihn
  | whileLoop hc hb ih =>
    have hcondition := (spares_eval hc).bind fun c => spares_return c.value
    exact spares_iterate ceiling hcondition ih (spares_return ()) ceiling _
  | forLoop hs hc hu hb ih =>
    have hcondition := (spares_eval hc).bind fun c => spares_return c.value
    apply (spares_clause hs).bind
    intro _
    exact spares_iterate ceiling hcondition ih (spares_clause hu) ceiling _
  | block hne h ih => exact spares_execAll ceiling ih _

end Tree

theorem RuleSet.spares_execute {rule : Tree} (h : rule.IsRule) : Spares (execute rule) := by
  rintro ⟨limits, store⟩ fault set' herror
  unfold execute at herror
  dsimp only at herror
  cases hexec : rule.exec limits.loopCeiling { store with scratch := [] } with
  | ok ending store' =>
    rw [hexec] at herror
    cases herror
  | error fault' store' =>
    rw [hexec] at herror
    cases herror
    exact Tree.spares_exec limits.loopCeiling h.2 _ _ _ hexec

/-- Reading fails with faults of syntax only. What it reads is a well-formed rule, and no
evaluation of that fails with a fault of syntax. -/
theorem parse_syntactic_and_evaluate_not :
    (∀ (limit : Nat) (source : String) (fault : Fault),
      Program.parse limit source = .error fault → fault.report.category = .syntactic) ∧
    ∀ (limit : Nat) (source : String) (program : Program),
      Program.parse limit source = .ok program →
        program.tree.IsRule ∧
        ∀ (set set' : RuleSet) (fault : Fault),
          RuleSet.evaluate program set = .error fault set' →
            fault.report.category ≠ .syntactic := by
  refine ⟨fun _ _ _ h => (Program.parse_eq_error h).1, fun limit source program hparse => ?_⟩
  obtain ⟨rule, hrule, rfl⟩ := Program.parse_eq_ok hparse
  rw [Program.tree_ofTree]
  refine ⟨hrule, fun set set' fault herror => ?_⟩
  rw [RuleSet.evaluate_ofTree hrule] at herror
  exact RuleSet.spares_execute hrule set fault set' herror

/-- A step needs something to change. A rule that sorts an unknown variable is read, but fails. -/
theorem parse_refuses_and_evaluate_fails :
    (∃ fault, Program.parse 2 "++1" = .error fault ∧ fault.report.category = .syntactic) ∧
    ∃ program fault set, Program.parse 2 "a.sort()" = .ok program ∧ program.tree.IsRule ∧
      RuleSet.evaluate program (.ofLimits .default) = .error fault set ∧
      fault.report.category ≠ .syntactic := by
  have hrefused : Program.parse 2 "++1" =
      .error (.syntactic ⟨.notAssignable, ["++1".toList]⟩) := by cbv
  have hread : Grammar.rule 2 "a.sort()".toList = .ok (.block [.unary .sort (.name "a")]) := by cbv
  have hparse : Program.parse 2 "a.sort()" = .ok (.ofTree (.block [.unary .sort (.name "a")])) := by
    rw [Program.parse_eq, hread]
    rfl
  have hfails : RuleSet.evaluate (.ofTree (.block [.unary .sort (.name "a")]))
      (.ofLimits .default) =
        .error (.name ⟨.unknownName, ["a".toList]⟩) (.ofLimits .default) := by rfl
  obtain ⟨hrule, hnot⟩ := parse_syntactic_and_evaluate_not.2 2 "a.sort()" _ hparse
  exact ⟨⟨_, hrefused, parse_syntactic_and_evaluate_not.1 2 "++1" _ hrefused⟩,
    _, _, _, hparse, hrule, hfails, hnot _ _ _ hfails⟩

end RuleLang

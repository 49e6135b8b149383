import RuleLang.Proofs.Refinement

/-!
The statements that an execution reaches. A statement is reached in a store if everything before
it has ended normally and every condition on the way has led to it. A `return` that is reached
ends the whole rule in the store it leaves, so nothing is executed after it. A `break` that is
reached ends the loop around it that no other loop separates it from, and that loop ends normally.
-/
namespace RuleLang.Tree

open Run

/-- A loop that may run its body some more times begins a run of the body, after others or not. -/
inductive Enters (condition : Write Int32) (body : Write Ending) (update : Write Unit) :
    Nat → Store → Store → Prop
  | now {left : Nat} {store store' : Store} {c : Int32}
      (hcondition : condition store = .ok c store') (hc : c ≠ 0) :
      Enters condition body update (left + 1) store store'
  | later {left : Nat} {store tested ended updated entered : Store} {c : Int32} {yielded : Yield}
      (hcondition : condition store = .ok c tested) (hc : c ≠ 0)
      (hbody : body tested = .ok (.normal yielded) ended) (hupdate : update ended = .ok () updated)
      (h : Enters condition body update left updated entered) :
      Enters condition body update (left + 1) store entered

/-- The execution of a statement in a store reaches another statement in another store, through
some number of loops. -/
inductive Reaches (ceiling : Nat) : Nat → Tree → Store → Tree → Store → Prop
  | refl {tree : Tree} {store : Store} : Reaches ceiling 0 tree store tree store
  | ifThen {loops : Nat} {condition yes other : Tree} {store tested store' : Store} {c : Yield}
      (hcondition : condition.eval store = .ok c tested) (hc : c.value ≠ 0)
      (h : Reaches ceiling loops yes tested other store') :
      Reaches ceiling loops (ifThen condition yes) store other store'
  | ifElse {loops : Nat} {condition yes no other : Tree} {store tested store' : Store} {c : Yield}
      (hcondition : condition.eval store = .ok c tested)
      (h : Reaches ceiling loops (if c.value ≠ 0 then yes else no) tested other store') :
      Reaches ceiling loops (ifElse condition yes no) store other store'
  | whileLoop {loops : Nat} {condition body other : Tree} {store entered store' : Store}
      (hentered : Enters (return (← condition.eval).value) (body.exec ceiling) (return ()) ceiling
        store entered)
      (h : Reaches ceiling loops body entered other store') :
      Reaches ceiling (loops + 1) (whileLoop condition body) store other store'
  | forLoop {loops : Nat} {start condition update body other : Tree}
      {store started entered store' : Store} (hstart : discard start.eval store = .ok () started)
      (hentered : Enters (return (← condition.eval).value) (body.exec ceiling)
        (discard update.eval) ceiling started entered)
      (h : Reaches ceiling loops body entered other store') :
      Reaches ceiling (loops + 1) (forLoop start condition update body) store other store'
  | block {loops : Nat} {before after : List Tree} {statement other : Tree}
      {store begun store' : Store} {yielded : Yield}
      (hbefore : execAll ceiling (.silent 0) before store = .ok (.normal yielded) begun)
      (h : Reaches ceiling loops statement begun other store') :
      Reaches ceiling loops (block (before ++ statement :: after)) store other store'

/-- What is reached in a statement is a statement inside the loops crossed on the way. -/
theorem Reaches.isStatement {ceiling loops crossed : Nat} {tree other : Tree} {store store' : Store}
    (h : Reaches ceiling crossed tree store other store') (htree : tree.IsStatement loops) :
    other.IsStatement (loops + crossed) := by
  induction h generalizing loops with
  | refl => exact htree
  | ifThen hcondition hc h ih =>
    cases htree with
    | expression h => cases h
    | ifThen hc hy => exact ih hy
  | @ifElse _ _ _ _ _ _ _ _ c hcondition h ih =>
    cases htree with
    | expression h => cases h
    | ifElse hc hy hn =>
      refine ih ?_
      split
      · exact hy
      · exact hn
  | whileLoop hentered h ih =>
    cases htree with
    | expression h => cases h
    | whileLoop hc hb =>
      have hother := ih hb
      rwa [Nat.add_assoc, Nat.add_comm 1] at hother
  | forLoop hstart hentered h ih =>
    cases htree with
    | expression h => cases h
    | forLoop hs hc hu hb =>
      have hother := ih hb
      rwa [Nat.add_assoc, Nat.add_comm 1] at hother
  | block hbefore h ih =>
    cases htree with
    | expression h => cases h
    | block hne hall => exact ih (hall _ (by simp))

theorem execAll_append {ceiling : Nat} {before : List Tree} {store begun : Store}
    {last yielded : Yield}
    (hbefore : execAll ceiling last before store = .ok (.normal yielded) begun)
    (after : List Tree) :
    execAll ceiling last (before ++ after) store = execAll ceiling yielded after begun := by
  induction before generalizing last store with
  | nil =>
    cases hbefore
    rfl
  | cons statement before ih =>
    rw [List.cons_append, execAll]
    rw [execAll] at hbefore
    cases hstatement : statement.exec ceiling store with
    | error fault store' =>
      rw [bind_error hstatement] at hbefore
      cases hbefore
    | ok ending store' =>
      rw [bind_ok hstatement] at hbefore ⊢
      cases ending with
      | normal first => exact ih hbefore
      | broke | returned => cases hbefore

/-- A loop that begins a run of its body goes on as the ending of that run asks for. -/
theorem Enters.iterate_eq {condition : Write Int32} {body : Write Ending} {update : Write Unit}
    {left : Nat} {store entered : Store} (h : Enters condition body update left store entered)
    (ceiling : Nat) (last : Yield) :
    ∃ (remaining : Nat) (before : Yield), iterate ceiling condition body update left last store =
      (do
        match ← body with
        | .normal yielded =>
          update
          iterate ceiling condition body update remaining (before.orElse yielded)
        | .broke yielded => return .normal (before.orElse yielded)
        | .returned value => return .returned value : Write Ending) entered := by
  induction h generalizing last with
  | @now left store store' c hcondition hc =>
    refine ⟨left, last, ?_⟩
    rw [iterate, bind_ok hcondition]
    exact congrFun (if_neg hc) store'
  | @later left store tested ended updated entered c yielded hcondition hc hbody hupdate h ih =>
    obtain ⟨remaining, before, heq⟩ := ih (last.orElse yielded)
    refine ⟨remaining, before, ?_⟩
    rw [← heq, iterate, bind_ok hcondition, if_neg hc, bind_ok hbody]
    exact bind_ok hupdate

/-- A `return` that is reached ends everything around it in the store it leaves. -/
theorem Reaches.exec_returned {ceiling loops : Nat} {tree other : Tree}
    {store store' ended : Store} {value : Int32}
    (h : Reaches ceiling loops tree store other store')
    (hreturned : other.exec ceiling store' = .ok (.returned value) ended) :
    tree.exec ceiling store = .ok (.returned value) ended := by
  induction h with
  | refl => exact hreturned
  | ifThen hcondition hc h ih =>
    rw [exec, bind_ok hcondition, if_pos hc]
    exact ih hreturned
  | ifElse hcondition h ih =>
    rw [exec, bind_ok hcondition, ← apply_ite (fun tree => exec ceiling tree)]
    exact ih hreturned
  | whileLoop hentered h ih =>
    obtain ⟨remaining, last, heq⟩ := hentered.iterate_eq ceiling (.silent 0)
    rw [exec, heq, bind_ok (ih hreturned)]
    rfl
  | forLoop hstart hentered h ih =>
    obtain ⟨remaining, last, heq⟩ := hentered.iterate_eq ceiling (.silent 0)
    rw [exec, bind_ok hstart, heq, bind_ok (ih hreturned)]
    rfl
  | block hbefore h ih =>
    rw [exec, execAll_append hbefore, execAll, bind_ok (ih hreturned)]
    rfl

/-- A `break` that is reached through no loop is passed on. -/
theorem Reaches.exec_broke {ceiling loops : Nat} {tree other : Tree} {store store' ended : Store}
    {yielded : Yield} (h : Reaches ceiling loops tree store other store') (hloops : loops = 0)
    (hbroke : other.exec ceiling store' = .ok (.broke yielded) ended) :
    ∃ yielded, tree.exec ceiling store = .ok (.broke yielded) ended := by
  induction h with
  | refl => exact ⟨yielded, hbroke⟩
  | ifThen hcondition hc h ih =>
    rw [exec, bind_ok hcondition, if_pos hc]
    exact ih hloops hbroke
  | ifElse hcondition h ih =>
    rw [exec, bind_ok hcondition, ← apply_ite (fun tree => exec ceiling tree)]
    exact ih hloops hbroke
  | whileLoop | forLoop => omega
  | block hbefore h ih =>
    obtain ⟨later, hlater⟩ := ih hloops hbroke
    rw [exec, execAll_append hbefore, execAll, bind_ok hlater]
    exact ⟨_, rfl⟩

def IsLoop : Tree → Prop
  | whileLoop .. | forLoop .. => True
  | _ => False

/-- A `break` that is reached through one loop, which is the whole statement, ends this loop. -/
theorem Reaches.exec_loop {ceiling : Nat} {loop : Tree} {store store' : Store}
    (h : Reaches ceiling 1 loop store breakLoop store') (hloop : loop.IsLoop) :
    ∃ yielded, loop.exec ceiling store = .ok (.normal yielded) store' := by
  cases h with
  | ifThen | ifElse | block => exact hloop.elim
  | whileLoop hentered h =>
    obtain ⟨remaining, last, heq⟩ := hentered.iterate_eq ceiling (.silent 0)
    obtain ⟨yielded, hbody⟩ := h.exec_broke rfl rfl
    rw [exec, heq, bind_ok hbody]
    exact ⟨_, rfl⟩
  | forLoop hstart hentered h =>
    obtain ⟨remaining, last, heq⟩ := hentered.iterate_eq ceiling (.silent 0)
    obtain ⟨yielded, hbody⟩ := h.exec_broke rfl rfl
    rw [exec, bind_ok hstart, heq, bind_ok hbody]
    exact ⟨_, rfl⟩

end RuleLang.Tree

namespace RuleLang.RuleSet

/-- A program that has been read is evaluated as its tree is executed. A `return` that is reached
gives the result and the variables; a `break` that is reached stands in a loop, and ends the
innermost one and with it the signal. -/
theorem evaluate_eq_execute {limit : Nat} {source : String} {program : Program}
    (hparse : Program.parse limit source = .ok program) (set : RuleSet) :
    evaluate program set = execute program.tree set ∧
    ∀ (loops : Nat) (statement : Tree) (store : Store),
      program.tree.Reaches set.limits.loopCeiling loops { set.store with scratch := [] }
        statement store →
      (∀ operand yielded store', statement = .unary .returning operand →
        operand.eval store = .ok yielded store' →
          evaluate program set = .ok yielded.value ⟨set.limits, store'⟩) ∧
      (statement = .breakLoop → 0 < loops) ∧
      (∀ store', statement.IsLoop →
        statement.Reaches set.limits.loopCeiling 1 store .breakLoop store' →
          ∃ yielded, statement.run set.limits.loopCeiling ⟨store, .none⟩ =
            .ok yielded ⟨store', .none⟩) := by
  obtain ⟨rule, hrule, rfl⟩ := Program.parse_eq_ok hparse
  have hevaluate := evaluate_ofTree hrule set
  rw [Program.tree_ofTree]
  refine ⟨hevaluate, fun loops statement store hreaches => ?_⟩
  have hstatement := hreaches.isStatement hrule.2
  refine ⟨?_, ?_, ?_⟩
  · rintro operand yielded store' rfl hoperand
    have hreturned := hreaches.exec_returned (Run.bind_ok hoperand)
    rw [hevaluate]
    obtain ⟨limits, initial⟩ := set
    simp only [execute]
    rw [hreturned]
    rfl
  · rintro rfl
    cases hstatement with
    | expression h => cases h
    | breakLoop h => omega
  · intro store' hloop hbreak
    obtain ⟨yielded, hexec⟩ := hbreak.exec_loop hloop
    have hrun := Tree.refines_run set.limits.loopCeiling hstatement store
    rw [Run.raising, Run.bind_ok (Run.write_ok _ hexec)] at hrun
    exact ⟨yielded, hrun⟩

/-- The loop ends at the second `break` test, and the name after the `return` is never read. -/
theorem execute_break_return :
    let rule : Tree := .block
      [.binary .assign (.name "i") (.number 0),
        .whileLoop (.number 1)
          (.ifThen (.binary .equal (.unary .preIncrement (.name "i")) (.number 2)) .breakLoop),
        .unary .returning (.name "i"), .name "j"]
    Program.parse 6 "i=0;while(1)if(++i==2)break;return i;j" = .ok (.ofTree rule) ∧
    evaluate (.ofTree rule) (.ofLimits .default) = .ok 2 ⟨.default, .empty, [("i", #[2])]⟩ := by
  intro rule
  have hrule : Grammar.rule 6 "i=0;while(1)if(++i==2)break;return i;j".toList = .ok rule := by
    cbv
  have hparse : Program.parse 6 "i=0;while(1)if(++i==2)break;return i;j" = .ok (.ofTree rule) := by
    rw [Program.parse_eq, hrule]
    rfl
  have hexecute : execute rule (.ofLimits .default) = .ok 2 ⟨.default, .empty, [("i", #[2])]⟩ := by
    rfl
  refine ⟨hparse, (evaluate_eq_execute hparse _).1.trans ?_⟩
  rwa [Program.tree_ofTree]
end RuleLang.RuleSet

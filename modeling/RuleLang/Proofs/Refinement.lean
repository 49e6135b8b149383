import RuleLang.Proofs.Building
import RuleLang.Proofs.Spanning
import RuleLang.Proofs.Structured
import RuleLang.Proofs.Unfolding

/-!
The run with signals refines the structured semantics. An expression never looks at the signals,
so its run is its evaluation. A statement that is run while no signal is raised ends as its
execution does, and leaves raised just the signal of that ending; sequences and loops then skip
what the structured semantics does not reach.
-/
namespace RuleLang

namespace Run

variable {α β : Type}

theorem write_pure (a : α) : write (pure a) = pure a := rfl

theorem write_bind (act : Write α) (next : α → Write β) :
    write (act >>= next) = (do write (next (← write act))) := by
  funext ⟨store, signals⟩
  simp only [write, bind, EStateM.bind]
  cases act store <;> rfl

theorem write_discard (act : Write α) : write (discard act) = discard (write act) := by
  change write (EStateM.map _ act) = EStateM.map _ (write act)
  funext ⟨store, signals⟩
  simp only [write, EStateM.map]
  cases act store <;> rfl

theorem read_eq_write (get : Store → Except Fault α) : read get = write (Store.reading get) := by
  funext ⟨store, signals⟩
  simp only [read, write, Store.reading]
  cases get store <;> rfl

end Run

namespace Tree

open Run Store

theorem run_binary {op : BinaryOp} (hop : op ≠ .assign) (ceiling : Nat) (left right : Tree) :
    (binary op left right).run ceiling = (do
      let l ← value (left.run ceiling)
      let r ← value (right.run ceiling)
      match op.apply? l r with
      | some n => return .counted n
      | none => throw (.arithmetic ⟨.divisionByZero, [(binary op left right).render]⟩)) := by
  cases op <;> first | contradiction | rfl

theorem eval_binary {op : BinaryOp} (hop : op ≠ .assign) (left right : Tree) :
    (binary op left right).eval = (do
      let l ← left.eval
      let r ← right.eval
      quotient op left right l.value r.value) := by
  cases op <;> first | contradiction | rfl

theorem run_assign_name {source : Tree} (hsource : ∀ y, source ≠ name y) (ceiling : Nat)
    (x : String) :
    (binary .assign (name x) source).run ceiling = (do
      let value ← value (source.run ceiling)
      write (assign x value)
      return .silent value) := by
  cases source <;> first | rfl | exact absurd rfl (hsource _)

theorem eval_assign_name {source : Tree} (hsource : ∀ y, source ≠ name y) (x : String) :
    (binary .assign (name x) source).eval = (do
      let value ← source.eval
      assign x value.value
      return .silent value.value) := by
  cases source <;> first | rfl | exact absurd rfl (hsource _)

/-- The run of an expression is its evaluation, and so is that of an index in a target, which a
step or an assignment runs alone. -/
theorem run_expression_and_index (ceiling : Nat) {tree : Tree} (h : tree.IsExpression) :
    tree.run ceiling = write tree.eval ∧
      ∀ x index, tree = element x index → index.run ceiling = write index.eval := by
  induction h with
  | number => exact ⟨by simp only [run, eval, write_pure], by simp⟩
  | name => exact ⟨by simp only [run, eval, read_eq_write, write_bind, write_pure], by simp⟩
  | element hx hindex ih =>
    refine ⟨?_, by rintro _ _ ⟨⟩; exact ih.1⟩
    simp only [run, eval, value, ih.1, read_eq_write, write_bind, write_pure, bind_assoc, pure_bind]
  | cell hx hrow hcolumn ihr ihc =>
    refine ⟨?_, by simp⟩
    simp only [run, eval, value, ihr.1, ihc.1, read_eq_write, write_bind, write_pure, bind_assoc,
      pure_bind]
  | negate h ih | not h ih =>
    refine ⟨?_, by simp⟩
    simp only [run, eval, value, ih.1, write_bind, write_pure, bind_assoc, pure_bind]
  | @step op target hop htarget h ih =>
    have hstep (delta : Int32) :
        runStep ceiling delta target = write (target.evalStep delta) := by
      cases h with
      | name => rfl
      | element =>
        have hindex := ih.2 _ _ rfl
        simp only [runStep, evalStep, value, hindex, write_bind, bind_assoc, pure_bind]
      | _ => simp [isLvalue] at htarget
    refine ⟨?_, by simp⟩
    rcases hop with rfl | rfl | rfl | rfl <;>
      simp only [run, eval, hstep, write_bind, write_pure]
  | size hx => exact ⟨by simp only [run, eval, read_eq_write, write_bind, write_pure], by simp⟩
  | rowSize hx hindex ih =>
    refine ⟨?_, by simp⟩
    have hindex := ih.1
    simp only [run, eval, value, hindex, read_eq_write, write_bind, write_pure, bind_assoc,
      pure_bind]
  | sort hx => exact ⟨by simp only [run, eval, write_bind, write_pure], by simp⟩
  | @binary op left right hop hl hr ihl ihr =>
    have hquotient (l r : Int32) : write (quotient op left right l r) =
        (match op.apply? l r with
        | some n => return .counted n
        | none =>
          throw (.arithmetic ⟨.divisionByZero, [(binary op left right).render]⟩) : Run Yield) := by
      unfold quotient
      cases op.apply? l r <;> rfl
    refine ⟨?_, by simp⟩
    rw [run_binary hop, eval_binary hop]
    simp only [value, ihl.1, ihr.1, write_bind, hquotient, bind_assoc, pure_bind]
  | @assign target source htarget ht hv iht ihv =>
    refine ⟨?_, by simp⟩
    cases ht with
    | name =>
      by_cases hsource : ∃ y, source = name y
      · obtain ⟨y, rfl⟩ := hsource
        simp only [run, eval, write_bind, write_pure]
      · have hsource : ∀ y, source ≠ name y := fun y hy => hsource ⟨y, hy⟩
        rw [run_assign_name hsource, eval_assign_name hsource]
        simp only [value, ihv.1, write_bind, write_pure, bind_assoc, pure_bind]
    | element =>
      have hindex := iht.2 _ _ rfl
      simp only [run, eval, value, hindex, ihv.1, write_bind, write_pure, bind_assoc, pure_bind]
    | _ => simp [isLvalue] at htarget

/-- Expressions raise no signals and look at none. -/
theorem run_expression (ceiling : Nat) {tree : Tree} (h : tree.IsExpression) :
    tree.run ceiling = write tree.eval :=
  (run_expression_and_index ceiling h).1

end Tree

namespace Ending

/-- What a statement that ends this way yields to the statements around it. -/
def yielded : Ending → Yield
  | normal yielded | broke yielded => yielded
  | returned value => .counted value

/-- The signals that are raised when a statement has ended this way. -/
def signals : Ending → Signals
  | normal _ => .none
  | broke _ => Signals.none.setBreak
  | returned value => Signals.none.setReturn value

end Ending

namespace Run

variable {ε σ α β : Type}

/-- Executes and then raises the signal of the ending. -/
def raising (act : Write Ending) : Run Yield := do
  let ending ← write act
  signal fun _ => ending.signals
  return ending.yielded

/-- While no signal is raised, a run does what the execution does and raises its signal. -/
def Refines (act : Run Yield) (act' : Write Ending) : Prop :=
  ∀ store, act ⟨store, .none⟩ = raising act' ⟨store, .none⟩

theorem value_write (act : Write Yield) : value (write act) = write (return (← act).value) := by
  rw [value, write_bind]
  rfl

theorem bind_ok {act : EStateM ε σ α} {next : α → EStateM ε σ β} {state state' : σ} {a : α}
    (h : act state = .ok a state') : (act >>= next) state = next a state' := by
  change EStateM.bind act next state = next a state'
  rw [EStateM.bind, h]

theorem bind_error {act : EStateM ε σ α} {next : α → EStateM ε σ β} {state state' : σ} {fault : ε}
    (h : act state = .error fault state') : (act >>= next) state = .error fault state' := by
  change EStateM.bind act next state = .error fault state'
  rw [EStateM.bind, h]

theorem write_ok {act : Write α} {store store' : Store} {a : α} (signals : Signals)
    (h : act store = .ok a store') : write act ⟨store, signals⟩ = .ok a ⟨store', signals⟩ := by
  rw [write, h]

theorem write_error {act : Write α} {store store' : Store} {fault : Fault} (signals : Signals)
    (h : act store = .error fault store') :
    write act ⟨store, signals⟩ = .error fault ⟨store', signals⟩ := by
  rw [write, h]

theorem refines_write (act : Write Yield) : Refines (write act) (do return .normal (← act)) := by
  intro store
  rw [raising, Run.write_bind, bind_assoc]
  cases h : act store with
  | ok yielded store' => rw [write_ok _ h, bind_ok (write_ok _ h)]; rfl
  | error fault store' => rw [write_error _ h, bind_error (write_error _ h)]

theorem refines_return (yielded : Yield) : Refines (pure yielded) (pure (.normal yielded)) :=
  fun _ => rfl

theorem refines_throw (fault : Fault) : Refines (throw fault) (throw fault) := fun _ => rfl

theorem Refines.write_bind (act : Write α) {next : α → Run Yield} {next' : α → Write Ending}
    (h : ∀ a, Refines (next a) (next' a)) : Refines (write act >>= next) (act >>= next') := by
  intro store
  rw [raising, Run.write_bind, bind_assoc]
  cases hact : act store with
  | ok a store' => rw [bind_ok (write_ok _ hact), bind_ok (write_ok _ hact), h a store', raising]
  | error fault store' => rw [bind_error (write_error _ hact), bind_error (write_error _ hact)]

/-- After a statement comes what its ending asks for, with the signal of the ending raised. -/
theorem Refines.bind {act : Run Yield} {act' : Write Ending} {next : Yield → Run Yield}
    {next' : Ending → Write Ending} (hact : Refines act act')
    (hnext : ∀ ending store, next ending.yielded ⟨store, ending.signals⟩ =
      raising (next' ending) ⟨store, .none⟩) : Refines (act >>= next) (act' >>= next') := by
  intro store
  have h := hact store
  rw [raising] at h
  rw [raising, Run.write_bind, bind_assoc]
  cases hact' : act' store with
  | ok ending store' =>
    rw [bind_ok (write_ok _ hact')] at h
    rw [bind_ok h, bind_ok (write_ok _ hact'), ← raising]
    exact hnext ending store'
  | error fault store' =>
    rw [bind_error (write_error _ hact')] at h
    rw [bind_error h, bind_error (write_error _ hact')]

theorem Refines.unreturned {act : Run Yield} {act' : Write Ending} (h : Refines act act')
    (last : Yield) : Refines (do if ← returned then return last else act) act' := h

theorem Refines.unsignalled {act : Run Yield} {act' : Write Ending} (h : Refines act act')
    (last : Yield) : Refines (do if (← signals).pending then return last else act) act' := h

/-- A loop ends a break itself and passes a return on, without another update. -/
theorem refines_repeatLoop (ceiling : Nat) (condition : Write Int32) {body : Run Yield}
    {body' : Write Ending} (update : Write Unit) (hbody : Refines body body') (left : Nat)
    (last : Yield) :
    Refines (repeatLoop ceiling (write condition) body (write update) left last)
      (Tree.iterate ceiling condition body' update left last) := by
  induction left generalizing last with
  | zero =>
    unfold repeatLoop Tree.iterate
    refine Refines.unreturned ?_ last
    apply Refines.write_bind condition
    intro c
    split
    · exact refines_return last
    · exact refines_throw _
  | succ left ih =>
    unfold repeatLoop Tree.iterate
    refine Refines.unreturned ?_ last
    apply Refines.write_bind condition
    intro c
    split
    · exact refines_return last
    · apply hbody.bind
      intro ending store
      cases ending with
      | normal yielded => exact Refines.write_bind update (fun _ => ih (last.orElse yielded)) store
      | broke yielded => rfl
      | returned value => rfl

end Run

namespace Tree

open Run

/-- Nothing is run while a signal is raised. -/
theorem runAll_pending {state : RunState} (h : state.signals.pending) (ceiling : Nat)
    (last : Yield) (statements : List Tree) :
    runAll ceiling last statements state = .ok last state := by
  cases statements with
  | nil => rfl
  | cons statement statements =>
    have hsignals : Run.signals state = .ok state.signals state := rfl
    unfold runAll
    rw [bind_ok hsignals, if_pos h]
    rfl

theorem refines_runAll (ceiling : Nat) {statements : List Tree}
    (h : ∀ s ∈ statements, Refines (s.run ceiling) (s.exec ceiling)) (last : Yield) :
    Refines (runAll ceiling last statements) (execAll ceiling last statements) := by
  induction statements generalizing last with
  | nil => exact refines_return last
  | cons statement statements ih =>
    obtain ⟨hstatement, hstatements⟩ := List.forall_mem_cons.mp h
    unfold runAll execAll
    refine Refines.unsignalled ?_ last
    apply hstatement.bind
    intro ending store
    cases ending with
    | normal yielded => exact ih hstatements (last.orElse yielded) store
    | broke yielded => exact runAll_pending rfl ceiling _ _
    | returned value => exact runAll_pending rfl ceiling _ _

theorem exec_expression (ceiling : Nat) {tree : Tree} (h : tree.IsExpression) :
    tree.exec ceiling = (do return .normal (← tree.eval)) := by
  cases h with
  | step hop => rcases hop with rfl | rfl | rfl | rfl <;> rfl
  | _ => rfl

theorem discard_clause (ceiling : Nat) {tree : Tree} (h : tree.IsClause) :
    discard (tree.run ceiling) = write (discard tree.eval) := by
  rcases h with rfl | h
  · rfl
  · rw [run_expression ceiling h, write_discard]

theorem refines_run (ceiling : Nat) {loops : Nat} {tree : Tree} (h : tree.IsStatement loops) :
    Refines (tree.run ceiling) (tree.exec ceiling) := by
  induction h with
  | empty => exact refines_return (.silent 0)
  | expression h =>
    rw [run_expression ceiling h, exec_expression ceiling h]
    exact refines_write _
  | returning h =>
    unfold run exec
    rw [run_expression ceiling h, value, bind_assoc]
    exact Refines.write_bind _ fun yielded store => rfl
  | breakLoop h => exact fun _ => rfl
  | ifThen hc hy ih =>
    unfold run exec
    rw [run_expression ceiling hc, value, bind_assoc]
    apply Refines.write_bind _
    intro condition
    rw [pure_bind]
    split
    · exact ih
    · exact refines_return (.silent 0)
  | ifElse hc hy hn ihy ihn =>
    unfold run exec
    rw [run_expression ceiling hc, value, bind_assoc]
    apply Refines.write_bind _
    intro condition
    rw [pure_bind]
    split
    · exact ihy
    · exact ihn
  | whileLoop hc hb ih =>
    unfold run exec loop
    rw [run_expression ceiling hc, value_write, ← write_pure ()]
    exact refines_repeatLoop ceiling _ _ ih ceiling (.silent 0)
  | forLoop hs hc hu hb ih =>
    unfold run exec loop
    rw [run_expression ceiling hc, value_write, discard_clause ceiling hs,
      discard_clause ceiling hu]
    apply Refines.write_bind _
    intro _
    exact refines_repeatLoop ceiling _ _ ih ceiling (.silent 0)
  | block hne h ih =>
    unfold run exec
    exact refines_runAll ceiling ih (.silent 0)

theorem result_ok {ceiling loops : Nat} {rule : Tree} (h : rule.IsStatement loops)
    {store store' : Store} {ending : Ending} (hexec : rule.exec ceiling store = .ok ending store') :
    rule.result ceiling ⟨store, .none⟩ = .ok ending.result ⟨store', ending.signals⟩ := by
  have hrun := refines_run ceiling h store
  rw [raising, bind_ok (write_ok _ hexec)] at hrun
  rw [result, Run.result, bind_ok hrun]
  cases ending <;> rfl

theorem result_error {ceiling loops : Nat} {rule : Tree} (h : rule.IsStatement loops)
    {store store' : Store} {fault : Fault} (hexec : rule.exec ceiling store = .error fault store') :
    rule.result ceiling ⟨store, .none⟩ = .error fault ⟨store', .none⟩ := by
  have hrun := refines_run ceiling h store
  rw [raising, bind_error (write_error _ hexec)] at hrun
  rw [result, Run.result, bind_error hrun]

end Tree

/-- The value of a rule is that of the `return` in which it ends, or else its yield. -/
theorem RuleSet.evaluate_ofTree {rule : Tree} (h : rule.IsRule) (set : RuleSet) :
    evaluate (.ofTree rule) set = execute rule set := by
  obtain ⟨limits, store⟩ := set
  simp only [evaluate_eq, execute, Program.tree_ofTree]
  cases hexec : rule.exec limits.loopCeiling { store with scratch := [] } with
  | ok ending store' => rw [Tree.result_ok h.2 hexec]
  | error fault store' => rw [Tree.result_error h.2 hexec]

end RuleLang

import RuleLang.Proofs.Refinement

/-!
The two forms of loops. A `for` loop abbreviates a `while` loop that stands after the start, and
in which the update stands after the body. In this long form the body and the update are a
sequence, which goes on to the update just where no signal is raised. So a `break` or a `return`
skips the update in both forms, and the loop meets the signal in the same state. Both forms test
the condition in the same states and count their rounds alike, whatever the body is.
-/
namespace RuleLang

theorem Signals.eq_none_of_not_pending {signals : Signals} (h : ¬ signals.pending) :
    signals = .none := by
  obtain ⟨returned?, breaking⟩ := signals
  cases returned? <;> cases breaking <;> first | rfl | exact absurd rfl h

namespace Run

/-- Both runs fail with one fault, or both end without a pending `break`, and they leave one
state. What they yield may differ. -/
inductive EndAlike :
    EStateM.Result Fault RunState Yield → EStateM.Result Fault RunState Yield → Prop
  | ok (yielded yielded' : Yield) {state : RunState} (h : state.signals.breaking = false) :
      EndAlike (.ok yielded state) (.ok yielded' state)
  | error (fault : Fault) (state : RunState) : EndAlike (.error fault state) (.error fault state)

/-- The runs end alike wherever no signal is pending. -/
def SameEnd (act act' : Run Yield) : Prop :=
  ∀ store, EndAlike (act ⟨store, .none⟩) (act' ⟨store, .none⟩)

variable {α : Type} {act act' : Run Yield}

theorem sameEnd_return (yielded yielded' : Yield) : SameEnd (pure yielded) (pure yielded') :=
  fun _ => .ok yielded yielded' rfl

theorem sameEnd_throw (fault : Fault) : SameEnd (throw fault) (throw fault) :=
  fun store => .error fault ⟨store, .none⟩

theorem SameEnd.write_bind (act : Write α) {next next' : α → Run Yield}
    (h : ∀ a, SameEnd (next a) (next' a)) : SameEnd (write act >>= next) (write act >>= next') := by
  intro store
  cases hact : act store with
  | ok a later =>
    rw [bind_ok (write_ok _ hact), bind_ok (write_ok _ hact)]
    exact h a later
  | error fault later =>
    rw [bind_error (write_error _ hact), bind_error (write_error _ hact)]
    exact .error fault _

theorem SameEnd.unreturned (h : SameEnd act act') (last last' : Yield) :
    SameEnd (do if ← returned then return last else act)
      (do if ← returned then return last' else act') := h

theorem SameEnd.yielding (h : SameEnd act act') (change : Yield → Yield) :
    SameEnd act (do return change (← act')) := by
  intro store
  have halike := h store
  generalize act ⟨store, .none⟩ = result, hact' : act' ⟨store, .none⟩ = result' at halike
  cases halike with
  | ok yielded yielded' hbreaking =>
    rw [bind_ok hact']
    exact .ok _ _ hbreaking
  | error fault state =>
    rw [bind_error hact']
    exact .error fault state

theorem discard_bind (act : Run α) (next : Run Yield) :
    (do discard act; next) = (act >>= fun _ => next) :=
  bind_map_left _ act _

/-- What a loop does after its body: it goes on to its next round, unless there is a signal. -/
def afterBody (next : Yield → Run Yield) (last : Yield) : Run Yield := do
  let broken ← takeBreak
  if broken || (← returned) then return last
  next last

theorem afterBody_of_pending {state : RunState} (h : state.signals.pending)
    (next : Yield → Run Yield) (last : Yield) :
    afterBody next last state = .ok last ⟨state.store, state.signals.takeBreak.2⟩ := by
  obtain ⟨store, returned?, breaking⟩ := state
  cases returned? <;> cases breaking <;> first | rfl | cases h

section Body

variable {ceiling : Nat} {body : Tree} {store : Store} {state : RunState} {yielded : Yield}

theorem runAll_pair (body update : Tree) (ceiling : Nat) (store : Store) :
    Tree.runAll ceiling (.silent 0) [body, update] ⟨store, .none⟩ =
      (do
        let yielded ← body.run ceiling
        Tree.runAll ceiling (Yield.orElse (.silent 0) yielded) [update] : Run Yield)
        ⟨store, .none⟩ := rfl

variable (hbody : body.run ceiling ⟨store, .none⟩ = .ok yielded state) (update : Tree)

include hbody

theorem runAll_pair_of_pending (h : state.signals.pending) :
    Tree.runAll ceiling (.silent 0) [body, update] ⟨store, .none⟩ =
      .ok (Yield.orElse (.silent 0) yielded) state := by
  rw [runAll_pair, bind_ok hbody]
  exact Tree.runAll_pending h ceiling _ _

theorem runAll_pair_of_none (h : state.signals = .none) :
    Tree.runAll ceiling (.silent 0) [body, update] ⟨store, .none⟩ =
      (do
        let updated ← update.run ceiling
        return Yield.orElse (Yield.orElse (.silent 0) yielded) updated : Run Yield) state := by
  rw [runAll_pair, bind_ok hbody]
  obtain ⟨later, signals⟩ := state
  obtain rfl : signals = .none := h
  rfl

end Body

variable {ceiling : Nat} {condition update : Tree} {next next' : Yield → Run Yield}

/-- The rest of a round from the body on, in a `for` loop and in its long form. -/
theorem sameEnd_round {change : Write Yield} (hupdate : update.run ceiling = write change)
    (body : Tree) (hnext : ∀ last last', SameEnd (next last) (next' last'))
    (last last' : Yield) :
    SameEnd
      (do
        let yielded ← body.run ceiling
        afterBody (fun last => do discard (update.run ceiling); next last) (last.orElse yielded))
      (do
        let yielded ← Tree.runAll ceiling (.silent 0) [body, update]
        afterBody next' (last'.orElse yielded)) := by
  intro store
  cases hbody : body.run ceiling ⟨store, .none⟩ with
  | error fault state =>
    have hpair := (runAll_pair body update ceiling store).trans (bind_error hbody)
    rw [bind_error hbody, bind_error hpair]
    exact .error fault state
  | ok yielded state =>
    rw [bind_ok hbody]
    by_cases hpending : state.signals.pending
    · rw [bind_ok (runAll_pair_of_pending hbody update hpending), afterBody_of_pending hpending,
        afterBody_of_pending hpending]
      exact .ok _ _ rfl
    · have hnone := Signals.eq_none_of_not_pending hpending
      have hpair := runAll_pair_of_none hbody update hnone
      obtain ⟨later, signals⟩ := state
      obtain rfl : signals = .none := hnone
      change EndAlike ((do discard (update.run ceiling); next (last.orElse yielded))
        ⟨later, .none⟩) _
      rw [discard_bind]
      rw [hupdate] at hpair ⊢
      cases hchange : change later with
      | error fault updated =>
        rw [bind_error (write_error _ hchange)] at hpair ⊢
        rw [bind_error hpair]
        exact .error fault _
      | ok yielded' updated =>
        rw [bind_ok (write_ok _ hchange)] at hpair ⊢
        rw [bind_ok hpair]
        exact hnext _ _ updated

/-- The induction is on the rounds that are left, so both loops stall in the same round. -/
theorem sameEnd_repeatLoop {test : Write Int32} {change : Write Yield}
    (hcondition : value (condition.run ceiling) = write test)
    (hupdate : update.run ceiling = write change) (body : Tree) (left : Nat) (last last' : Yield) :
    SameEnd
      (repeatLoop ceiling (value (condition.run ceiling)) (body.run ceiling)
        (discard (update.run ceiling)) left last)
      (repeatLoop ceiling (value (condition.run ceiling))
        (Tree.runAll ceiling (.silent 0) [body, update]) (return ()) left last') := by
  induction left generalizing last last' with
  | zero =>
    unfold repeatLoop
    refine SameEnd.unreturned ?_ last last'
    rw [hcondition]
    apply SameEnd.write_bind
    intro c
    split
    · exact sameEnd_return last last'
    · exact sameEnd_throw _
  | succ left ih =>
    unfold repeatLoop
    refine SameEnd.unreturned ?_ last last'
    rw [hcondition]
    apply SameEnd.write_bind
    intro c
    split
    · exact sameEnd_return last last'
    · rw [← hcondition]
      exact sameEnd_round hupdate body ih last last'

end Run

namespace Tree

open Run

theorem run_clause (ceiling : Nat) {tree : Tree} (h : tree.IsClause) :
    tree.run ceiling = write tree.eval := by
  rcases h with rfl | h
  · rfl
  · exact run_expression ceiling h

/-- The long form of a `for` loop. -/
def expanded (start condition update body : Tree) : Tree :=
  block [start, whileLoop condition (block [body, update])]

/-- A `for` loop and its long form fail alike or end in the same state, without a `break`. -/
theorem sameEnd_forLoop_expanded {start condition update : Tree} (hstart : start.IsClause)
    (hcondition : condition.IsExpression) (hupdate : update.IsClause) (body : Tree)
    (ceiling : Nat) :
    SameEnd ((forLoop start condition update body).run ceiling)
      ((expanded start condition update body).run ceiling) := by
  have htest : value (condition.run ceiling) = write (return (← condition.eval).value) := by
    rw [run_expression ceiling hcondition, value_write]
  have hloops (last : Yield) : SameEnd
      (loop ceiling (value (condition.run ceiling)) (body.run ceiling)
        (discard (update.run ceiling)))
      (runAll ceiling last [whileLoop condition (block [body, update])]) := by
    have hrepeat := sameEnd_repeatLoop htest (run_clause ceiling hupdate) body ceiling
    exact fun store => (hrepeat (.silent 0) (.silent 0)).yielding last.orElse store
  have hshort : (forLoop start condition update body).run ceiling =
      (do
        let _ ← write start.eval
        loop ceiling (value (condition.run ceiling)) (body.run ceiling)
          (discard (update.run ceiling))) := by
    rw [← run_clause ceiling hstart, ← discard_bind, run]
  intro store
  have hlong : (expanded start condition update body).run ceiling ⟨store, .none⟩ =
      (do
        let yielded ← write start.eval
        runAll ceiling (Yield.orElse (.silent 0) yielded)
          [whileLoop condition (block [body, update])]) ⟨store, .none⟩ := by
    rw [← run_clause ceiling hstart]
    rfl
  rw [hshort, hlong]
  exact SameEnd.write_bind _ (fun _ => hloops _) store

/-- The `break` in the third round leaves the variable as it is, and no fourth round begins. -/
theorem run_expanded_break :
    let start := binary .assign (name "i") (number 0)
    let update := unary .postIncrement (name "i")
    let body := ifThen (binary .equal (name "i") (number 2)) breakLoop
    start.IsClause ∧ (number 1).IsExpression ∧ update.IsClause ∧
      ∃ yielded, (expanded start (number 1) update body).run 3 ⟨.empty, .none⟩ =
        .ok yielded ⟨⟨.empty, [("i", #[2])]⟩, .none⟩ := by
  intro start update body
  have hi : IsIdentifier "i" := ⟨by decide, by decide, by decide, by decide⟩
  have hname : (name "i").IsExpression := .name hi
  have hstart : start.IsClause := .inr (.assign rfl hname (.number (.inl (by decide))))
  have hone : (number 1).IsExpression := .number (.inl (by decide))
  have hupdate : update.IsClause := .inr (.step (.inr (.inr (.inl rfl))) rfl hname)
  refine ⟨hstart, hone, hupdate, ?_⟩
  have hshort : (forLoop start (number 1) update body).run 3 ⟨.empty, .none⟩ =
      .ok (.silent 0) ⟨⟨.empty, [("i", #[2])]⟩, .none⟩ := rfl
  have halike := sameEnd_forLoop_expanded hstart hone hupdate body 3 .empty
  rw [hshort] at halike
  generalize (expanded start (number 1) update body).run 3 ⟨.empty, .none⟩ = result at halike
  cases halike with
  | ok _ yielded _ => exact ⟨yielded, rfl⟩

end Tree

end RuleLang

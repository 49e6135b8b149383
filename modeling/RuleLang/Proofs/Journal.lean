import RuleLang.Proofs.Refinement

/-!
The value of a rule that executes no `return`. The run hands yields up through sequences, branches
and loops, each of which keeps the last that counts of its own. Here a rule is executed with a
journal instead: every statement that is an expression is entered with its value when it has been
evaluated, and nothing is handed up. The value of the rule is then the last in the journal that is
not the value of an assignment or of a call of `sort`. Conditions and the clauses of a loop header
are evaluated aside, without an entry.
-/
namespace RuleLang

/-- A statement that was executed, and the value of its expression. -/
structure Entry where
  statement : Tree
  value : Int32

namespace Tree

/-- Whether a statement is an assignment or a call of `sort`, whose value is not for the host. -/
def isSilent : Tree → Bool
  | binary .assign _ _ | unary .sort _ => true
  | _ => false

end Tree

/-- The last value in a journal that is not the value of an assignment or of a call of `sort`. -/
def lastValue? (journal : List Entry) : Option Int32 :=
  (journal.filter fun entry => !entry.statement.isSilent).getLast?.map (·.value)

theorem lastValue?_concat (journal : List Entry) (entry : Entry) :
    lastValue? (journal ++ [entry]) =
      if entry.statement.isSilent then lastValue? journal else some entry.value := by
  unfold lastValue?
  split <;> simp_all

structure Progress where
  store : Store
  journal : List Entry

abbrev Recording (α : Type) := EStateM Fault Progress α

/-- How a statement ends that does not fail. -/
inductive Exit
  | done
  | broken
  | returned (value : Int32)
  deriving DecidableEq

def Exit.returned? : Exit → Option Int32
  | returned value => some value
  | _ => none

namespace Recording

variable {α : Type}

/-- Leaves the journal as it is. -/
def aside (act : Write α) : Recording α := fun ⟨store, journal⟩ =>
  match act store with
  | .ok a store => .ok a ⟨store, journal⟩
  | .error fault store => .error fault ⟨store, journal⟩

def enter (entry : Entry) : Recording Unit := fun ⟨store, journal⟩ =>
  .ok () ⟨store, journal ++ [entry]⟩

/-- Goes through a loop that may run its body `left` more times. -/
def loop (ceiling : Nat) (condition : Write Int32) (body : Recording Exit)
    (update : Write Unit) (left : Nat) : Recording Exit := do
  if (← aside condition) = 0 then return .done
  match left with
  | 0 => throw (.runaway ⟨.stalled, [.ofNat ceiling]⟩)
  | left + 1 =>
    match ← body with
    | .done =>
      aside update
      loop ceiling condition body update left
    | .broken => return .done
    | .returned value => return .returned value

end Recording

namespace Tree

open Recording

mutual

/-- Executes a statement in which loops may run as often as `ceiling` says. -/
def record (ceiling : Nat) : Tree → Recording Exit
  | empty => return .done
  | unary .returning operand => return .returned (← aside operand.eval).value
  | ifThen condition yes => do
    if (← aside condition.eval).value ≠ 0 then yes.record ceiling else return .done
  | ifElse condition yes no => do
    if (← aside condition.eval).value ≠ 0 then yes.record ceiling else no.record ceiling
  | whileLoop condition body =>
    loop ceiling (return (← condition.eval).value) (body.record ceiling) (return ()) ceiling
  | forLoop start condition update body => do
    aside (discard start.eval)
    loop ceiling (return (← condition.eval).value) (body.record ceiling)
      (discard update.eval) ceiling
  | block statements => recordAll ceiling statements
  | breakLoop => return .broken
  | expression => do
    enter ⟨expression, (← aside expression.eval).value⟩
    return .done

/-- Executes statements up to the first that does not simply end. -/
def recordAll (ceiling : Nat) : List Tree → Recording Exit
  | [] => return .done
  | statement :: statements => do
    match ← statement.record ceiling with
    | .done => recordAll ceiling statements
    | exit => return exit

end

end Tree

/-- The value of a yield that counts. -/
def Yield.counted? (yielded : Yield) : Option Int32 :=
  if yielded.counts then some yielded.value else none

theorem Yield.counted?_orElse (earlier later : Yield) :
    (earlier.orElse later).counted? = later.counted?.or earlier.counted? := by
  unfold orElse counted?
  cases hcounts : later.counts <;> simp [hcounts]

theorem Yield.result_eq (yielded : Yield) :
    (if yielded.counts then yielded.value else 0) = yielded.counted?.getD 0 := by
  unfold counted?
  cases yielded.counts <;> rfl

/-- A structured execution and a recorded one end alike, and from `before` on the last value in the
journal has become that of the yield, if it counts. -/
inductive Tally (before : Option Int32) :
    EStateM.Result Fault Store Ending → EStateM.Result Fault Progress Exit → Prop
  | normal {yielded : Yield} {store : Store} {journal : List Entry}
      (h : lastValue? journal = yielded.counted?.or before) :
      Tally before (.ok (.normal yielded) store) (.ok .done ⟨store, journal⟩)
  | broke {yielded : Yield} {store : Store} {journal : List Entry}
      (h : lastValue? journal = yielded.counted?.or before) :
      Tally before (.ok (.broke yielded) store) (.ok .broken ⟨store, journal⟩)
  | returned (value : Int32) (store : Store) (journal : List Entry) :
      Tally before (.ok (.returned value) store) (.ok (.returned value) ⟨store, journal⟩)
  | error (fault : Fault) (store : Store) (journal : List Entry) :
      Tally before (.error fault store) (.error fault ⟨store, journal⟩)

/-- Where the journal has followed the yields so far, of which `last` is the last that counts, it
follows them to the end. -/
def Tallies (before : Option Int32) (last : Yield) (act : Write Ending) (act' : Recording Exit) :
    Prop :=
  ∀ store journal, lastValue? journal = last.counted?.or before →
    Tally before (act store) (act' ⟨store, journal⟩)

section Tallies

variable {α : Type} {before : Option Int32} {last : Yield}

theorem tallies_return (before : Option Int32) (last : Yield) :
    Tallies before last (pure (.normal last)) (pure .done) :=
  fun _ _ h => .normal h

theorem tallies_break (before : Option Int32) (last : Yield) :
    Tallies before last (pure (.broke last)) (pure .broken) :=
  fun _ _ h => .broke h

theorem tallies_returned (value : Int32) :
    Tallies before last (pure (.returned value)) (pure (.returned value)) :=
  fun store journal _ => .returned value store journal

theorem tallies_throw (fault : Fault) : Tallies before last (throw fault) (throw fault) :=
  fun store journal _ => .error fault store journal

theorem Tallies.aside_bind (act : Write α) {next : α → Write Ending} {next' : α → Recording Exit}
    (h : ∀ a, Tallies before last (next a) (next' a)) :
    Tallies before last (act >>= next) (Recording.aside act >>= next') := by
  intro store journal hjournal
  cases hact : act store with
  | ok a later =>
    have haside : Recording.aside act ⟨store, journal⟩ = .ok a ⟨later, journal⟩ := by
      rw [Recording.aside, hact]
    rw [Run.bind_ok hact, Run.bind_ok haside]
    exact h a later journal hjournal
  | error fault later =>
    have haside : Recording.aside act ⟨store, journal⟩ = .error fault ⟨later, journal⟩ := by
      rw [Recording.aside, hact]
    rw [Run.bind_error hact, Run.bind_error haside]
    exact .error fault later journal

/-- A statement begins with no yield of its own. What it yields comes after the last yield before
it. -/
theorem Tallies.bind {act : Write Ending} {act' : Recording Exit}
    {next : Ending → Write Ending} {next' : Exit → Recording Exit}
    (hact : ∀ before, Tallies before (.silent 0) act act')
    (hnormal : ∀ yielded, Tallies before (last.orElse yielded) (next (.normal yielded))
      (next' .done))
    (hbroke : ∀ yielded, Tallies before (last.orElse yielded) (next (.broke yielded))
      (next' .broken))
    (hreturned : ∀ value store journal, Tally before (next (.returned value) store)
      (next' (.returned value) ⟨store, journal⟩)) :
    Tallies before last (act >>= next) (act' >>= next') := by
  intro store journal hjournal
  have h := hact (last.counted?.or before) store journal hjournal
  have hlast (yielded : Yield) : (last.orElse yielded).counted?.or before =
      yielded.counted?.or (last.counted?.or before) := by
    rw [Yield.counted?_orElse, Option.or_assoc]
  generalize hresult : act store = result, hresult' : act' ⟨store, journal⟩ = result' at h
  cases h with
  | normal h =>
    rw [Run.bind_ok hresult, Run.bind_ok hresult']
    exact hnormal _ _ _ (h.trans (hlast _).symm)
  | broke h =>
    rw [Run.bind_ok hresult, Run.bind_ok hresult']
    exact hbroke _ _ _ (h.trans (hlast _).symm)
  | returned value =>
    rw [Run.bind_ok hresult, Run.bind_ok hresult']
    exact hreturned value _ _
  | error fault =>
    rw [Run.bind_error hresult, Run.bind_error hresult']
    exact .error fault _ _

theorem tallies_loop (ceiling : Nat) (condition : Write Int32) {body : Write Ending}
    {body' : Recording Exit} (update : Write Unit)
    (hbody : ∀ before, Tallies before (.silent 0) body body') (left : Nat) :
    Tallies before last (Tree.iterate ceiling condition body update left last)
      (Recording.loop ceiling condition body' update left) := by
  induction left generalizing last with
  | zero =>
    unfold Tree.iterate Recording.loop
    apply Tallies.aside_bind condition
    intro c
    split
    · exact tallies_return before last
    · exact tallies_throw _
  | succ left ih =>
    unfold Tree.iterate Recording.loop
    apply Tallies.aside_bind condition
    intro c
    split
    · exact tallies_return before last
    · apply Tallies.bind hbody
      · exact fun yielded => Tallies.aside_bind update fun _ => ih
      · exact fun yielded => tallies_return before _
      · exact fun value store journal => .returned value store journal

end Tallies

namespace Tree

open Recording

/-- Whenever the action gives a yield, this counts or not as said. -/
def CountsAs (counts : Bool) (act : Write Yield) : Prop :=
  ∀ store yielded store', act store = .ok yielded store' → yielded.counts = counts

theorem countsAs_return {counts : Bool} {yielded : Yield} (h : yielded.counts = counts) :
    CountsAs counts (pure yielded) := by
  rintro _ _ _ ⟨⟩
  exact h

theorem countsAs_bind {α : Type} {counts : Bool} {act : Write α} {next : α → Write Yield}
    (h : ∀ a, CountsAs counts (next a)) : CountsAs counts (act >>= next) := by
  intro store yielded store' hok
  cases hact : act store with
  | ok a later =>
    rw [Run.bind_ok hact] at hok
    exact h a later yielded store' hok
  | error fault later =>
    rw [Run.bind_error hact] at hok
    cases hok

theorem countsAs_quotient (op : BinaryOp) (left right : Tree) (l r : Int32) :
    CountsAs true (quotient op left right l r) := by
  unfold quotient
  split
  · exact countsAs_return rfl
  · exact fun _ _ _ => nofun

/-- The value of an expression counts unless it is an assignment or a call of `sort`. -/
theorem countsAs_eval {tree : Tree} (h : tree.IsExpression) :
    CountsAs (!tree.isSilent) tree.eval := by
  cases h with
  | number => exact countsAs_return rfl
  | name | negate | not | size | sort => exact countsAs_bind fun _ => countsAs_return rfl
  | element | rowSize => exact countsAs_bind fun _ => countsAs_bind fun _ => countsAs_return rfl
  | cell =>
    refine countsAs_bind fun _ => countsAs_bind fun _ => ?_
    exact countsAs_bind fun _ => countsAs_return rfl
  | step hop =>
    rcases hop with rfl | rfl | rfl | rfl <;> exact countsAs_bind fun _ => countsAs_return rfl
  | @binary op left right hop hl hr =>
    have hsilent : (binary op left right).isSilent = false := by
      cases op <;> first | rfl | contradiction
    rw [eval_binary hop, hsilent]
    exact countsAs_bind fun _ => countsAs_bind fun _ => countsAs_quotient op left right _ _
  | @assign target source htarget ht hv =>
    cases ht with
    | name =>
      by_cases hsource : ∃ y, source = name y
      · obtain ⟨y, rfl⟩ := hsource
        exact countsAs_bind fun _ => countsAs_return rfl
      · rw [eval_assign_name fun y hy => hsource ⟨y, hy⟩]
        exact countsAs_bind fun _ => countsAs_bind fun _ => countsAs_return rfl
    | element =>
      refine countsAs_bind fun _ => countsAs_bind fun _ => ?_
      exact countsAs_bind fun _ => countsAs_return rfl
    | _ => simp [isLvalue] at htarget

theorem record_expression (ceiling : Nat) {tree : Tree} (h : tree.IsExpression) :
    tree.record ceiling = (do
      enter ⟨tree, (← aside tree.eval).value⟩
      return .done) := by
  cases h with
  | step hop => rcases hop with rfl | rfl | rfl | rfl <;> rfl
  | _ => rfl

theorem tallies_expression (ceiling : Nat) {tree : Tree} (h : tree.IsExpression)
    (before : Option Int32) :
    Tallies before (.silent 0) (tree.exec ceiling) (tree.record ceiling) := by
  rw [exec_expression ceiling h, record_expression ceiling h]
  intro store journal hjournal
  cases heval : tree.eval store with
  | ok yielded later =>
    have haside : aside tree.eval ⟨store, journal⟩ = .ok yielded ⟨later, journal⟩ := by
      rw [aside, heval]
    rw [Run.bind_ok heval, Run.bind_ok haside]
    refine .normal ?_
    have hcounts := countsAs_eval h store yielded later heval
    rw [lastValue?_concat, hjournal]
    unfold Yield.counted?
    rw [hcounts]
    cases tree.isSilent <;> rfl
  | error fault later =>
    have haside : aside tree.eval ⟨store, journal⟩ = .error fault ⟨later, journal⟩ := by
      rw [aside, heval]
    rw [Run.bind_error heval, Run.bind_error haside]
    exact .error fault later journal

theorem tallies_execAll (ceiling : Nat) {statements : List Tree} {before : Option Int32}
    (h : ∀ s ∈ statements, ∀ before, Tallies before (.silent 0) (s.exec ceiling) (s.record ceiling))
    (last : Yield) :
    Tallies before last (execAll ceiling last statements) (recordAll ceiling statements) := by
  induction statements generalizing last with
  | nil => exact tallies_return before last
  | cons statement statements ih =>
    obtain ⟨hstatement, hstatements⟩ := List.forall_mem_cons.mp h
    unfold execAll recordAll
    apply Tallies.bind hstatement
    · exact fun yielded => ih hstatements _
    · exact fun yielded => tallies_break before _
    · exact fun value store journal => .returned value store journal

theorem tallies_exec (ceiling : Nat) {loops : Nat} {tree : Tree} (h : tree.IsStatement loops)
    (before : Option Int32) :
    Tallies before (.silent 0) (tree.exec ceiling) (tree.record ceiling) := by
  induction h generalizing before with
  | empty => exact tallies_return before _
  | expression h => exact tallies_expression ceiling h before
  | returning h =>
    exact Tallies.aside_bind _ fun yielded => tallies_returned yielded.value
  | breakLoop => exact tallies_break before _
  | ifThen hc hy ih =>
    apply Tallies.aside_bind _
    intro condition
    split
    · exact ih before
    · exact tallies_return before _
  | ifElse hc hy hn ihy ihn =>
    apply Tallies.aside_bind _
    intro condition
    split
    · exact ihy before
    · exact ihn before
  | whileLoop hc hb ih => exact tallies_loop ceiling _ _ ih ceiling
  | forLoop hs hc hu hb ih =>
    exact Tallies.aside_bind _ fun _ => tallies_loop ceiling _ _ ih ceiling
  | block hne h ih => exact tallies_execAll ceiling ih _

/-- From an empty journal on, the recorded execution gives the value that the structured one
gives. -/
theorem record_of_exec {ceiling loops : Nat} {tree : Tree} (h : tree.IsStatement loops)
    {store later : Store} {ending : Ending} (hexec : tree.exec ceiling store = .ok ending later) :
    ∃ exit journal, tree.record ceiling ⟨store, []⟩ = .ok exit ⟨later, journal⟩ ∧
      ending.signals.returned? = exit.returned? ∧
      ending.result = exit.returned?.getD ((lastValue? journal).getD 0) := by
  have htally := tallies_exec ceiling h none store [] rfl
  rw [hexec] at htally
  generalize tree.record ceiling ⟨store, []⟩ = result at htally ⊢
  cases htally with
  | @normal yielded _ journal hlast =>
    rw [Option.or_none] at hlast
    refine ⟨.done, journal, rfl, rfl, ?_⟩
    change (if yielded.counts then yielded.value else 0) = (lastValue? journal).getD 0
    rw [hlast, yielded.result_eq]
  | @broke yielded _ journal hlast =>
    rw [Option.or_none] at hlast
    refine ⟨.broken, journal, rfl, rfl, ?_⟩
    change (if yielded.counts then yielded.value else 0) = (lastValue? journal).getD 0
    rw [hlast, yielded.result_eq]
  | returned value _ journal => exact ⟨.returned value, journal, rfl, rfl, rfl⟩

end Tree

namespace RuleSet

/-- An evaluation goes as the recorded execution of the tree. It gives the value of the `return` in
which this ends, and the run ends with just this `return` signalled; if it ends in none, it gives
the last value in the journal, or zero. -/
theorem evaluate_eq_lastValue {limit : Nat} {source : String} {program : Program}
    (hparse : Program.parse limit source = .ok program) {set set' : RuleSet} {value : Int32}
    (hvalue : evaluate program set = .ok value set') :
    ∃ exit journal,
      program.tree.record set.limits.loopCeiling ⟨{ set.store with scratch := [] }, []⟩ =
        .ok exit ⟨set'.store, journal⟩ ∧
      (∃ yielded signals,
        program.tree.run set.limits.loopCeiling ⟨{ set.store with scratch := [] }, .none⟩ =
          .ok yielded ⟨set'.store, signals⟩ ∧ signals.returned? = exit.returned?) ∧
      value = exit.returned?.getD ((lastValue? journal).getD 0) := by
  obtain ⟨rule, hrule, rfl⟩ := Program.parse_eq_ok hparse
  obtain ⟨limits, store⟩ := set
  rw [evaluate_ofTree hrule] at hvalue
  rw [Program.tree_ofTree]
  have hrun := Tree.refines_run limits.loopCeiling hrule.2 { store with scratch := [] }
  simp only [execute] at hvalue
  cases hexec : rule.exec limits.loopCeiling { store with scratch := [] } with
  | error fault later =>
    rw [hexec] at hvalue
    cases hvalue
  | ok ending later =>
    rw [hexec] at hvalue
    cases hvalue
    rw [Run.raising, Run.bind_ok (Run.write_ok _ hexec)] at hrun
    obtain ⟨exit, journal, hrecord, hsignals, hresult⟩ := Tree.record_of_exec hrule.2 hexec
    exact ⟨exit, journal, hrecord, ⟨_, _, hrun, hsignals⟩, hresult⟩

/-- Neither the yield of the loop, which a `break` cuts short, nor the assignment after it hides the
product of the second run of the body. -/
theorem evaluate_cut_short :
    let product : Tree := .binary .multiply (.name "i") (.number 10)
    let last : Tree := .binary .assign (.name "i") (.number 7)
    let rule : Tree := .block
      [.number 5,
        .forLoop (.binary .assign (.name "i") (.number 0)) (.number 1)
          (.unary .preIncrement (.name "i"))
          (.block [.ifThen (.binary .equal (.name "i") (.number 2)) .breakLoop, product]),
        last]
    Program.parse 6 "5;for(i=0;1;++i){if(i==2)break;i*10}i=7" = .ok (.ofTree rule) ∧
    evaluate (.ofTree rule) (.ofLimits .default) = .ok 10 ⟨.default, .empty, [("i", #[7])]⟩ ∧
    (10 : Int32) =
      (lastValue? [⟨.number 5, 5⟩, ⟨product, 0⟩, ⟨product, 10⟩, ⟨last, 7⟩]).getD 0 := by
  intro product last rule
  have hrule : Grammar.rule 6 "5;for(i=0;1;++i){if(i==2)break;i*10}i=7".toList = .ok rule := by
    cbv
  have hparse :
      Program.parse 6 "5;for(i=0;1;++i){if(i==2)break;i*10}i=7" = .ok (.ofTree rule) := by
    rw [Program.parse_eq, hrule]
    rfl
  have hvalue : evaluate (.ofTree rule) (.ofLimits .default) =
      .ok 10 ⟨.default, .empty, [("i", #[7])]⟩ := by
    unfold rule last product
    cbv
  have hjournal : rule.record Limits.default.loopCeiling ⟨.empty, []⟩ =
      .ok .done ⟨⟨.empty, [("i", #[7])]⟩,
        [⟨.number 5, 5⟩, ⟨product, 0⟩, ⟨product, 10⟩, ⟨last, 7⟩]⟩ := by
    rfl
  obtain ⟨exit, journal, hrecord, -, hlast⟩ := evaluate_eq_lastValue hparse hvalue
  rw [Program.tree_ofTree] at hrecord
  cases hjournal.symm.trans hrecord
  exact ⟨hparse, hvalue, hlast⟩

end RuleSet
end RuleLang

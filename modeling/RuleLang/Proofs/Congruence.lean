import RuleLang.Proofs.Refinement

/-!
Relations between runs. The run of a tree is put together from a few steps: it looks something up,
it writes a variable, it looks at the signals or raises one, or it fails. So a relation between
runs that holds between every step and itself, and that sequencing keeps, holds between the runs of
a tree under two ceilings, as long as it lets a loop stall under the lower one. What the relation
says of the runs is left open: that they take the same way in related stores, that one does what
the other does, or what the first of them can report.
-/
namespace RuleLang

namespace Run

/-- What a run does in one go, loops aside. -/
inductive IsStep : ∀ {α : Type}, Run α → Prop
  | read (x : String) : IsStep (read (·.read x))
  | readElement (x : String) (index : Int32) : IsStep (read (·.readElement x index))
  | readCell (x : String) (row column : Int32) : IsStep (read (·.readCell x row column))
  | size (x : String) : IsStep (read (·.size x))
  | rowSize (x : String) (index : Int32) : IsStep (read (·.rowSize x index))
  | sort (x : String) : IsStep (write (Store.sort x))
  | copy (x y : String) : IsStep (write (Store.copy x y))
  | assign (x : String) (value : Int32) : IsStep (write (Store.assign x value))
  | assignElement (x : String) (index value : Int32) :
      IsStep (write (Store.assignElement x index value))
  | increment (x : String) (delta : Int32) : IsStep (write (Store.increment x delta))
  | incrementElement (x : String) (index delta : Int32) :
      IsStep (write (Store.incrementElement x index delta))
  | signals : IsStep signals
  | signal (change : Signals → Signals) : IsStep (signal change)
  | takeBreak : IsStep takeBreak
  | methodTarget {α : Type} (method target : Text) :
      IsStep (throw (.syntactic ⟨.methodTarget, [method, target]⟩) : Run α)
  | notAssignable {α : Type} (target : Text) :
      IsStep (throw (.syntactic ⟨.notAssignable, [target]⟩) : Run α)
  | divisionByZero {α : Type} (quotient : Text) :
      IsStep (throw (.arithmetic ⟨.divisionByZero, [quotient]⟩) : Run α)

/-- The relation holds between a step and itself, and between runs that are put together alike from
runs between which it holds. -/
structure Congruence (S : ∀ α : Type, Run α → Run α → Prop) : Prop where
  pure : ∀ {α : Type} (a : α), S α (pure a) (pure a)
  bind : ∀ {α β : Type} {act act' : Run α} {next next' : α → Run β}, S α act act' →
    (∀ a, S β (next a) (next' a)) → S β (act >>= next) (act' >>= next')
  step : ∀ {α : Type} {act : Run α}, IsStep act → S α act act

/-- Where the loop of the first run stalls, the relation holds whatever the second run goes on to
do, if that is allowed more, or if it stalls as well. -/
def Stalls (S : ∀ α : Type, Run α → Run α → Prop) (ceiling ceiling' left left' : Nat) : Prop :=
  ∀ later : Run Yield, left < left' ∨ later = throw (.runaway ⟨.stalled, [.ofNat ceiling']⟩) →
    S Yield (throw (.runaway ⟨.stalled, [.ofNat ceiling]⟩)) later

namespace Congruence

variable {S : ∀ α : Type, Run α → Run α → Prop} (h : Congruence S)

include h

theorem value {act act' : Run Yield} (hact : S _ act act') : S _ (value act) (value act') :=
  h.bind hact fun _ => h.pure _

theorem discard {α : Type} {act act' : Run α} (hact : S _ act act') :
    S _ (discard act) (discard act') :=
  h.bind hact fun _ => h.pure _

theorem returned : S _ returned returned := h.bind (h.step .signals) fun _ => h.pure _

theorem repeatLoop {ceiling ceiling' left left' : Nat} {condition condition' : Run Int32}
    {body body' : Run Yield} {update update' : Run Unit} (hcondition : S _ condition condition')
    (hbody : S _ body body') (hupdate : S _ update update') (hle : left ≤ left')
    (hstalls : Stalls S ceiling ceiling' left left') (last : Yield) :
    S _ (repeatLoop ceiling condition body update left last)
      (repeatLoop ceiling' condition' body' update' left' last) := by
  induction left generalizing left' last with
  | zero =>
    unfold Run.repeatLoop
    apply h.bind h.returned
    intro stopped
    split
    · exact h.pure last
    · apply h.bind hcondition
      intro c
      split
      · exact h.pure last
      · cases left' with
        | zero => exact hstalls _ (.inr rfl)
        | succ left' => exact hstalls _ (.inl left'.succ_pos)
  | succ left ih =>
    obtain ⟨left', rfl⟩ : ∃ n, left' = n + 1 := ⟨left' - 1, by omega⟩
    have hstalls : Stalls S ceiling ceiling' left left' :=
      fun later hlater => hstalls later (hlater.imp_left Nat.succ_lt_succ)
    unfold Run.repeatLoop
    apply h.bind h.returned
    intro stopped
    split
    · exact h.pure last
    · apply h.bind hcondition
      intro c
      split
      · exact h.pure last
      · apply h.bind hbody
        intro yielded
        apply h.bind (h.step .takeBreak)
        intro broken
        apply h.bind h.returned
        intro stopped
        split
        · exact h.pure _
        · exact h.bind hupdate fun _ => ih (Nat.le_of_succ_le_succ hle) hstalls _

end Congruence

end Run

namespace Tree

open Run

section Parts

variable {S : ∀ α : Type, Run α → Run α → Prop} (h : Congruence S) {ceiling ceiling' : Nat}

include h

theorem congr_runAll {statements : List Tree}
    (hall : ∀ s ∈ statements, S _ (s.run ceiling) (s.run ceiling')) (last : Yield) :
    S _ (runAll ceiling last statements) (runAll ceiling' last statements) := by
  induction statements generalizing last with
  | nil => exact h.pure last
  | cons statement statements ih =>
    obtain ⟨hstatement, hstatements⟩ := List.forall_mem_cons.mp hall
    unfold runAll
    apply h.bind (h.step .signals)
    intro signals
    split
    · exact h.pure last
    · exact h.bind hstatement fun _ => ih hstatements _

theorem congr_runStep (delta : Int32) {target : Tree}
    (hindex : ∀ x index, target = element x index → S _ (index.run ceiling) (index.run ceiling')) :
    S _ (runStep ceiling delta target) (runStep ceiling' delta target) := by
  cases target with
  | name x => exact h.step (.increment x delta)
  | element x index =>
    exact h.bind (h.value (hindex x index rfl)) fun i => h.step (.incrementElement x i delta)
  | _ => exact h.step (.notAssignable _)

theorem congr_unary (op : UnaryOp) {operand : Tree}
    (hoperand : S _ (operand.run ceiling) (operand.run ceiling'))
    (hindex : ∀ x index, operand = element x index →
      S _ (index.run ceiling) (index.run ceiling')) :
    S _ ((unary op operand).run ceiling) ((unary op operand).run ceiling') := by
  have hstep (delta : Int32) := congr_runStep h delta hindex
  cases op with
  | negate | not => exact h.bind (h.value hoperand) fun _ => h.pure _
  | preIncrement | preDecrement | postIncrement | postDecrement =>
    exact h.bind (hstep _) fun _ => h.pure _
  | size =>
    cases operand with
    | name x => exact h.bind (h.step (.size x)) fun _ => h.pure _
    | _ => exact h.step (.methodTarget _ _)
  | rowSize =>
    cases operand with
    | element x index =>
      apply h.bind (h.value (hindex x index rfl))
      intro i
      exact h.bind (h.step (.rowSize x i)) fun _ => h.pure _
    | _ => exact h.step (.methodTarget _ _)
  | sort =>
    cases operand with
    | name x => exact h.bind (h.step (.sort x)) fun _ => h.pure _
    | _ => exact h.step (.methodTarget _ _)
  | returning =>
    apply h.bind (h.value hoperand)
    intro value
    exact h.bind (h.step (.signal _)) fun _ => h.pure _

theorem congr_binary (op : BinaryOp) {left right : Tree}
    (hleft : S _ (left.run ceiling) (left.run ceiling'))
    (hindex : ∀ x index, left = element x index → S _ (index.run ceiling) (index.run ceiling'))
    (hright : S _ (right.run ceiling) (right.run ceiling')) :
    S _ ((binary op left right).run ceiling) ((binary op left right).run ceiling') := by
  by_cases hop : op = .assign
  · subst hop
    cases left with
    | name x =>
      by_cases hname : ∃ y, right = name y
      · obtain ⟨y, rfl⟩ := hname
        exact h.bind (h.step (.copy x y)) fun _ => h.pure _
      · have hsource : ∀ y, right ≠ name y := fun y hy => hname ⟨y, hy⟩
        rw [run_assign_name hsource, run_assign_name hsource]
        apply h.bind (h.value hright)
        intro value
        exact h.bind (h.step (.assign x value)) fun _ => h.pure _
    | element x index =>
      apply h.bind (h.value (hindex x index rfl))
      intro i
      apply h.bind (h.value hright)
      intro value
      exact h.bind (h.step (.assignElement x i value)) fun _ => h.pure _
    | _ => exact h.step (.notAssignable _)
  · rw [run_binary hop, run_binary hop]
    apply h.bind (h.value hleft)
    intro l
    apply h.bind (h.value hright)
    intro r
    split
    · exact h.pure _
    · exact h.step (.divisionByZero _)

variable (hle : ceiling ≤ ceiling') (hstalls : Stalls S ceiling ceiling' ceiling ceiling')

include hle hstalls

/-- The index of a target is run alone by a step or an assignment. -/
theorem congr_run_and_index (tree : Tree) :
    S _ (tree.run ceiling) (tree.run ceiling') ∧
      ∀ x index, tree = element x index → S _ (index.run ceiling) (index.run ceiling') := by
  induction tree with
  | empty | number => exact ⟨h.pure _, by simp⟩
  | name x => exact ⟨h.bind (h.step (.read x)) fun _ => h.pure _, by simp⟩
  | element x index ih =>
    refine ⟨?_, by rintro _ _ ⟨⟩; exact ih.1⟩
    apply h.bind (h.value ih.1)
    intro i
    exact h.bind (h.step (.readElement x i)) fun _ => h.pure _
  | cell x row column ihr ihc =>
    refine ⟨?_, by simp⟩
    apply h.bind (h.value ihr.1)
    intro i
    apply h.bind (h.value ihc.1)
    intro j
    exact h.bind (h.step (.readCell x i j)) fun _ => h.pure _
  | unary op operand ih => exact ⟨congr_unary h op ih.1 ih.2, by simp⟩
  | binary op left right ihl ihr => exact ⟨congr_binary h op ihl.1 ihl.2 ihr.1, by simp⟩
  | ifThen condition yes ihc ihy =>
    refine ⟨h.bind (h.value ihc.1) fun c => ?_, by simp⟩
    split
    · exact ihy.1
    · exact h.pure _
  | ifElse condition yes no ihc ihy ihn =>
    refine ⟨h.bind (h.value ihc.1) fun c => ?_, by simp⟩
    split
    · exact ihy.1
    · exact ihn.1
  | whileLoop condition body ihc ihb =>
    exact ⟨h.repeatLoop (h.value ihc.1) ihb.1 (h.pure ()) hle hstalls _, by simp⟩
  | forLoop start condition update body ihs ihc ihu ihb =>
    refine ⟨h.bind (h.discard ihs.1) fun _ => ?_, by simp⟩
    exact h.repeatLoop (h.value ihc.1) ihb.1 (h.discard ihu.1) hle hstalls _
  | block statements ih => exact ⟨congr_runAll h (fun s hs => (ih s hs).1) _, by simp⟩
  | breakLoop => exact ⟨h.bind (h.step (.signal _)) fun _ => h.pure _, by simp⟩

theorem congr_result (rule : Tree) : S _ (rule.result ceiling) (rule.result ceiling') := by
  apply h.bind (congr_run_and_index h hle hstalls rule).1
  intro last
  apply h.bind (h.step .signals)
  intro signals
  split
  · exact h.pure _
  · exact h.pure _

end Parts

/-- Under a single ceiling it is enough that the relation holds between a stalled loop and
itself. -/
theorem congr_result_self {S : ∀ α : Type, Run α → Run α → Prop} (h : Congruence S) {ceiling : Nat}
    (hstalled : S Yield (throw (.runaway ⟨.stalled, [.ofNat ceiling]⟩))
      (throw (.runaway ⟨.stalled, [.ofNat ceiling]⟩))) (rule : Tree) :
    S _ (rule.result ceiling) (rule.result ceiling) := by
  refine congr_result h (Nat.le_refl ceiling) ?_ rule
  rintro later (hlt | rfl)
  · exact absurd hlt (Nat.lt_irrefl ceiling)
  · exact hstalled

end Tree
end RuleLang

import RuleLang.Proofs.Histories

/-!
Evaluations do not influence each other. An evaluation depends on the limits and the symbols only,
and leaves both as they were. So however a host has mixed evaluations with its other calls, the
next evaluation ends as it would had there been no other.
-/
namespace RuleLang

namespace Log

/-- Evaluations leave no trace in the log. -/
theorem afterAll_filter (log : Log) (calls : List Call) :
    log.afterAll (calls.filter fun call => !call.isEvaluation) = log.afterAll calls := by
  induction calls generalizing log with
  | nil => rfl
  | cons call calls ih =>
    cases hcall : call.isEvaluation with
    | false =>
      rw [List.filter_cons_of_pos (by simp [hcall])]
      exact ih (log.after call)
    | true =>
      rw [List.filter_cons_of_neg (by simp [hcall]), ih]
      obtain ⟨evaluation, rfl⟩ := call.eq_evaluate hcall
      rfl

/-- A log tells the whole table. -/
theorem Describes.entries_unique {log : Log} {symbols symbols' : Symbols}
    (h : log.Describes symbols) (h' : log.Describes symbols') :
    symbols.entries = symbols'.entries := by
  rw [← Array.toList_inj, h.entries_eq, h'.entries_eq]

end Log

namespace RuleSet

/-- A rule set that a host can have: at first without symbols, then changed by its calls. -/
def Arises (set : RuleSet) : Prop := ∃ limits calls, set = (ofLimits limits).afterAll calls

theorem Arises.afterAll {set : RuleSet} (h : set.Arises) (calls : List Call) :
    (set.afterAll calls).Arises := by
  obtain ⟨limits, before, rfl⟩ := h
  exact ⟨limits, before ++ calls, (afterAll_append _ before calls).symm⟩

theorem Arises.indexed {set : RuleSet} (h : set.Arises) : set.store.symbols.Indexed := by
  obtain ⟨limits, calls, rfl⟩ := h
  exact (Log.describes_afterAll limits calls).indexed

/-- Without its evaluations a host would have had the same symbols, and no variables. -/
theorem Arises.fresh {set : RuleSet} (h : set.Arises) :
    ∃ calls, (∀ call ∈ calls, call.isEvaluation = false) ∧
      ((ofLimits set.limits).afterAll calls).store.symbols.entries = set.store.symbols.entries ∧
      ((ofLimits set.limits).afterAll calls).store.scratch = [] := by
  obtain ⟨limits, calls, rfl⟩ := h
  rw [limits_afterAll]
  have hkept : ∀ call ∈ calls.filter fun call => !call.isEvaluation,
      call.isEvaluation = false := by simp
  refine ⟨calls.filter fun call => !call.isEvaluation, hkept, ?_, ?_⟩
  · have hfresh := Log.describes_afterAll limits (calls.filter fun call => !call.isEvaluation)
    rw [Log.afterAll_filter] at hfresh
    exact hfresh.entries_unique (Log.describes_afterAll limits calls)
  · refine afterAll_induction (P := fun later => later.store.scratch = []) ?_ rfl
    intro call hcall later hlater
    rw [scratch_call (hkept call hcall), hlater, ite_self]

section TwoSets

variable {set set' : RuleSet} (hset : set.Arises) (hset' : set'.Arises)
  (hlimits : set.limits = set'.limits)
  (hentries : set.store.symbols.entries = set'.store.symbols.entries)

include hset hset' hlimits hentries

/-- What a program does depends on the limits and the entries of the table. -/
theorem Arises.evaluate_congr (program : Program) :
    (evaluate program).outcome set = (evaluate program).outcome set' ∧
      ((evaluate program).after set).store.scratch =
        ((evaluate program).after set').store.scratch := by
  have halike := alike_evaluate_sealed program hlimits
    (hset.indexed.find?_congr hset'.indexed hentries)
  exact ⟨halike.outcome_eq, halike.after.store.scratch_eq⟩

/-- A source text that cannot be read fails alike, but may leave different variables. -/
theorem Arises.run_congr (evaluation : Evaluation) :
    evaluation.run.outcome set = evaluation.run.outcome set' ∧
      ∀ program, evaluation.read set.limits = .ok program →
        (evaluation.run.after set).store.scratch = (evaluation.run.after set').store.scratch := by
  cases hread : evaluation.read set.limits with
  | ok program =>
    have hrun := Evaluation.run_of_read hread
    have hrun' := Evaluation.run_of_read (hlimits ▸ hread)
    obtain ⟨houtcome, hscratch⟩ := hset.evaluate_congr hset' hlimits hentries program
    rw [Host.outcome, Host.outcome, Host.after, Host.after, hrun, hrun']
    exact ⟨houtcome, fun _ _ => hscratch⟩
  | error fault =>
    have hrun := Evaluation.run_of_unread hread
    have hrun' := Evaluation.run_of_unread (hlimits ▸ hread)
    rw [Host.outcome, Host.outcome, hrun, hrun']
    exact ⟨rfl, fun _ hok => by cases hok⟩

end TwoSets

/-- Evaluations change neither the limits nor the symbols. -/
theorem afterAll_evaluations (set : RuleSet) (evaluations : List Evaluation) :
    (set.afterAll (evaluations.map .evaluate)).limits = set.limits ∧
      (set.afterAll (evaluations.map .evaluate)).store.symbols = set.store.symbols := by
  refine ⟨limits_afterAll set _, ?_⟩
  refine afterAll_induction (P := fun later => later.store.symbols = set.store.symbols) ?_ rfl
  intro call hcall later hlater
  obtain ⟨evaluation, -, rfl⟩ := List.mem_map.mp hcall
  rw [Call.run, Host.after_ignore, evaluation.symbols_run, hlater]

/-- In rule sets with the same limits and symbols, whatever variables are left over in them, a
program ends alike. An evaluation leaves the limits and the symbols as they were, and a source
text that cannot be read leaves everything. So after any evaluations the next one ends as in every
rule set with these limits and symbols, and there is such a rule set that has never seen an
evaluation. -/
theorem evaluations_isolated {set set' : RuleSet} (hset : set.Arises) (hset' : set'.Arises)
    (hlimits : set.limits = set'.limits)
    (hentries : set.store.symbols.entries = set'.store.symbols.entries) :
    (∀ program, (evaluate program).outcome set = (evaluate program).outcome set' ∧
      ((evaluate program).after set).store.scratch =
        ((evaluate program).after set').store.scratch) ∧
      (∀ evaluation : Evaluation, (evaluation.run.after set).limits = set.limits ∧
        (evaluation.run.after set).store.symbols = set.store.symbols) ∧
      (∀ source fault, set.parse source = .error fault →
        evaluateSource source set = .error fault set) ∧
      (∀ (evaluations : List Evaluation) (evaluation : Evaluation),
        let later := set.afterAll (evaluations.map .evaluate)
        evaluation.run.outcome later = evaluation.run.outcome set' ∧
          ∀ program, evaluation.read set.limits = .ok program →
            (evaluation.run.after later).store.scratch =
              (evaluation.run.after set').store.scratch) ∧
      ∃ calls, (∀ call ∈ calls, call.isEvaluation = false) ∧
        ((ofLimits set.limits).afterAll calls).store.symbols.entries =
          set.store.symbols.entries ∧
        ((ofLimits set.limits).afterAll calls).store.scratch = [] := by
  refine ⟨hset.evaluate_congr hset' hlimits hentries, ?_, ?_, ?_, hset.fresh⟩
  · exact fun evaluation => ⟨evaluation.limits_run set, evaluation.symbols_run set⟩
  · intro source fault hparse
    have hread : Evaluation.read set.limits (.source source) = .error fault := hparse
    exact Evaluation.run_of_unread hread
  · intro evaluations evaluation later
    obtain ⟨hlater, hsymbols⟩ := afterAll_evaluations set evaluations
    have hcongr := (hset.afterAll (evaluations.map .evaluate)).run_congr hset'
      (hlater.trans hlimits) (by rw [hsymbols, hentries]) evaluation
    rwa [hlater] at hcongr

/-- A variable that an evaluation has left over is unknown to the next one. -/
theorem evaluate_leftover :
    let writer : Program := ⟨#[.name "x", .name "t", .binary .assign 0 1], 2⟩
    let reader : Program := ⟨#[.name "x"], 0⟩
    let set := (ofLimits .default).afterAll
      [.declareSymbol ⟨"t", "", .scalar⟩, .setSymbol "t" (.scalar 7)]
    let set' := set.afterAll [.evaluate (.program writer)]
    set'.contentsOf? "x" = some #[7] ∧
      (evaluate reader).outcome set = (evaluate reader).outcome set' ∧
      (evaluate reader).outcome set' = .error (.name ⟨.unknownName, ["x".toList]⟩) := by
  intro writer reader set set'
  have hset : set.Arises := ⟨.default, _, rfl⟩
  have hentries : set.store.symbols.entries = set'.store.symbols.entries := by decide
  have hisolated := evaluations_isolated hset (hset.afterAll [.evaluate (.program writer)])
    (limits_afterAll set _).symm hentries
  exact ⟨by decide, (hisolated.1 reader).1, by rfl⟩

end RuleSet
end RuleLang

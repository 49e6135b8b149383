import RuleLang.Proofs.Building
import RuleLang.Proofs.Histories

/-!
The names of symbols and those of variables. A rule cannot write to a symbol, and an evaluation
begins without variables, so it ends with no name on both sides. Only the declaration of a single
symbol can bring a name on both sides, by leaving a variable in place that has the name; it stays
so until the variables are dropped.
-/
namespace RuleLang

theorem Variables.find?_update_of_ne {name x : String} (hne : x ≠ name)
    (change : Array Int32 → Array Int32) (scratch : Variables) :
    (update name change scratch).find? x = scratch.find? x := by
  induction scratch with
  | nil => simp [update, find?, Ne.symm hne]
  | cons first others ih =>
    obtain ⟨y, items⟩ := first
    unfold update
    split
    · simp [find?, Ne.symm hne]
    · split
      case isTrue hy =>
        subst hy
        simp [find?, Ne.symm hne]
      case isFalse => simp only [find?, ih]

namespace Store

/-- No name is that of a symbol and of a variable. -/
def Apart (store : Store) : Prop :=
  ∀ name, store.symbols.find? name ≠ none → store.scratch.find? name = none

/-- A variable is only written under a name that no symbol has. -/
theorem lockstep_apart : Lockstep fun store store' => store = store' ∧ store.Apart where
  find?_eq hstore name := by rw [hstore.1]
  items_eq hstore name := by rw [hstore.1]
  update := by
    rintro store _ ⟨rfl, hapart⟩ name change hfree
    refine ⟨rfl, fun x hx => ?_⟩
    have hne : x ≠ name := by
      rintro rfl
      exact hx hfree
    exact (Variables.find?_update_of_ne hne change store.scratch).trans (hapart x hx)

end Store

namespace RuleSet

/-- A name that is that of a symbol and of a variable. -/
def Shares (set : RuleSet) (name : String) : Prop :=
  set.store.symbols.declares name ∧ (set.contentsOf? name).isSome

theorem apart_evaluate (program : Program) (set : RuleSet) :
    ((evaluate program).after set).store.Apart :=
  (alike_evaluate Store.lockstep_apart.compatible program rfl ⟨rfl, fun _ _ => rfl⟩).after.store.2

theorem not_shares_of_apart {set : RuleSet} (h : set.store.Apart) (name : String) :
    ¬ set.Shares name := by
  rintro ⟨hdeclares, hcontents⟩
  have hnone := h name (by simpa [Symbols.declares, Option.isSome_iff_ne_none] using hdeclares)
  rw [contentsOf?, hnone] at hcontents
  cases hcontents

end RuleSet

/-- Whether a call drops the variables that earlier calls have left. -/
def Call.resets (limits : Limits) : Call → Bool
  | evaluate evaluation => (evaluation.read limits).isOk
  | call => call.clearsVariables

/-- After the earlier calls, the call declares a symbol with the name of a variable. -/
def Call.Covers (limits : Limits) (name : String) (before : List Call) (call : Call) : Prop :=
  ∃ declaration, call = declareSymbol declaration ∧ declaration.name = name ∧ isSymbolName name ∧
    (((RuleSet.ofLimits limits).afterAll before).contentsOf? name).isSome

namespace RuleSet

/-- Dropped variables have no names, and those of a new run keep apart from the symbols. -/
theorem not_shares_of_resets {set : RuleSet} {call : Call} (h : call.resets set.limits)
    (name : String) : ¬ (call.run.after set).Shares name := by
  cases hcall : call.isEvaluation with
  | true =>
    obtain ⟨evaluation, rfl⟩ := call.eq_evaluate hcall
    rw [Call.run, Host.after_ignore]
    rw [Call.resets] at h
    cases hread : evaluation.read set.limits with
    | ok program =>
      rw [Host.after, Evaluation.run_of_read hread]
      exact not_shares_of_apart (apart_evaluate program set) name
    | error fault =>
      rw [hread] at h
      cases h
  | false =>
    have hclears : call.clearsVariables := by
      cases call with
      | evaluate evaluation => cases hcall
      | _ => exact h
    rintro ⟨-, hcontents⟩
    rw [contentsOf?, scratch_call hcall, if_pos hclears] at hcontents
    cases hcontents

end RuleSet

namespace Log

/-- Besides the declaration of a single symbol, a call that keeps the variables declares nothing. -/
theorem declarations_after (log : Log) {call : Call} (hkeeps : call.clearsVariables = false)
    (hcall : ∀ declaration, call ≠ .declareSymbol declaration) :
    (log.after call).declarations = log.declarations := by
  cases call with
  | declareSymbols _ | clearSymbols => cases hkeeps
  | declareSymbol declaration => exact absurd rfl (hcall declaration)
  | setSymbol _ _ | unsetSymbol _ =>
    simp only [after]
    split <;> rfl
  | clearSymbolValues | evaluate _ => rfl

theorem isSome_declaration?_after (log : Log) {call : Call}
    (hkeeps : call.clearsVariables = false) (name : String) :
    ((log.after call).declaration? name).isSome ↔ (log.declaration? name).isSome ∨
      ∃ declaration, call = .declareSymbol declaration ∧ declaration.name = name ∧
        isSymbolName name := by
  by_cases hcall : ∃ declaration, call = .declareSymbol declaration
  · obtain ⟨declaration, rfl⟩ := hcall
    by_cases hname : isSymbolName declaration.name
    · have hafter : log.after (.declareSymbol declaration) = .declared declaration :: log :=
        if_pos (if_pos hname)
      rw [hafter, declaration?, declarations, List.find?_cons]
      by_cases heq : declaration.name = name
      · subst heq
        simp [hname]
      · simp [heq, declaration?]
    · have hafter : log.after (.declareSymbol declaration) = log :=
        if_neg (by simp [fault?, hname])
      rw [hafter]
      refine ⟨.inl, fun h => h.resolve_right ?_⟩
      rintro ⟨_, ⟨rfl⟩, rfl, hgood⟩
      exact hname hgood
  · rw [not_exists] at hcall
    rw [declaration?, declarations_after log hkeeps hcall, ← declaration?]
    refine ⟨.inl, fun h => h.resolve_right ?_⟩
    rintro ⟨declaration, heq, -⟩
    exact hcall declaration heq

end Log

/-- Some call was `born`, and no call after it `kills`. -/
def Since (born : List Call → Call → Prop) (kills : Call → Prop) (calls : List Call) : Prop :=
  ∃ before call later, calls = before ++ call :: later ∧ born before call ∧
    ∀ other ∈ later, ¬ kills other

theorem since_concat {born : List Call → Call → Prop} {kills : Call → Prop} (calls : List Call)
    (call : Call) : Since born kills (calls ++ [call]) ↔
      born calls call ∨ Since born kills calls ∧ ¬ kills call := by
  constructor
  · rintro ⟨before, first, later, heq, hborn, hlater⟩
    rcases List.eq_nil_or_concat later with rfl | ⟨later, last, rfl⟩
    · obtain ⟨rfl, hlast⟩ := List.append_inj' heq rfl
      cases hlast
      exact .inl hborn
    · rw [List.concat_eq_append, ← List.cons_append, ← List.append_assoc] at heq
      obtain ⟨rfl, hlast⟩ := List.append_inj' heq rfl
      cases hlast
      refine .inr ⟨⟨before, first, later, rfl, hborn, ?_⟩, hlater call (by simp)⟩
      exact fun other hother => hlater other (by simp [hother])
  · rintro (hborn | ⟨⟨before, first, later, rfl, hborn, hlater⟩, hcall⟩)
    · exact ⟨calls, call, [], rfl, hborn, by simp⟩
    · refine ⟨before, first, later ++ [call], by simp, hborn, ?_⟩
      intro other hother
      rcases List.mem_append.mp hother with hother | hother
      · exact hlater other hother
      · rwa [List.mem_singleton.mp hother]

namespace RuleSet

theorem shares_symbol_call (limits : Limits) (calls : List Call) {call : Call}
    (hcall : call.isEvaluation = false) (hkeeps : call.clearsVariables = false) (name : String) :
    (call.run.after ((ofLimits limits).afterAll calls)).Shares name ↔
      ((ofLimits limits).afterAll calls).Shares name ∨ call.Covers limits name calls := by
  have h := Log.describes_afterAll limits calls
  have hscratch := scratch_call hcall ((ofLimits limits).afterAll calls)
  rw [if_neg (by simp [hkeeps])] at hscratch
  have hdeclared := (Log.afterAll [] calls).isSome_declaration?_after hkeeps name
  rw [Shares, Shares, (h.after_call call).declares_eq, h.declares_eq, hdeclared, contentsOf?,
    hscratch, ← contentsOf?, or_and_right]
  refine or_congr_right ⟨?_, ?_⟩
  · rintro ⟨⟨declaration, hdeclares, heq, hname⟩, hcontents⟩
    exact ⟨declaration, hdeclares, heq, hname, hcontents⟩
  · rintro ⟨declaration, hdeclares, heq, hname, hcontents⟩
    exact ⟨⟨declaration, hdeclares, heq, hname⟩, hcontents⟩

/-- A call that does not drop the variables only brings a name on both sides by declaring it. -/
theorem shares_call (limits : Limits) (calls : List Call) {call : Call}
    (hkeeps : call.resets limits = false) (name : String) :
    (call.run.after ((ofLimits limits).afterAll calls)).Shares name ↔
      ((ofLimits limits).afterAll calls).Shares name ∨ call.Covers limits name calls := by
  cases hcall : call.isEvaluation with
  | false =>
    refine shares_symbol_call limits calls hcall ?_ name
    cases call with
    | evaluate evaluation => cases hcall
    | _ => exact hkeeps
  | true =>
    obtain ⟨evaluation, rfl⟩ := call.eq_evaluate hcall
    rw [Call.resets] at hkeeps
    cases hread : evaluation.read limits with
    | ok program =>
      rw [hread] at hkeeps
      cases hkeeps
    | error fault =>
      have hlimits : ((ofLimits limits).afterAll calls).limits = limits := limits_afterAll _ calls
      rw [← hlimits] at hread
      rw [Call.run, Host.after_ignore, Host.after, Evaluation.run_of_unread hread]
      refine ⟨.inl, fun h => h.resolve_right ?_⟩
      rintro ⟨_, ⟨⟩, -⟩

/-- Whatever calls a host has made, a name is that of a symbol and of a variable just if a single
symbol was declared with the name of a variable, and the variables were not dropped since then by
an evaluation or with the symbols. -/
theorem shares_iff_since (limits : Limits) (calls : List Call) (name : String) :
    ((ofLimits limits).afterAll calls).Shares name ↔
      Since (Call.Covers limits name) (fun call => call.resets limits) calls := by
  induction calls using List.reverseRecOn with
  | nil =>
    refine iff_of_false (fun h => Bool.noConfusion h.1) ?_
    rintro ⟨before, call, later, heq, -⟩
    exact absurd heq (by simp)
  | append_singleton calls call ih =>
    rw [since_concat, ← ih, afterAll_append]
    change (call.run.after ((ofLimits limits).afterAll calls)).Shares name ↔ _
    cases hresets : call.resets limits with
    | true =>
      have hlimits : ((ofLimits limits).afterAll calls).limits = limits := limits_afterAll _ calls
      refine iff_of_false (not_shares_of_resets (by rwa [hlimits]) name) ?_
      rintro (⟨declaration, rfl, -⟩ | ⟨-, hkeeps⟩)
      · cases hresets
      · exact hkeeps rfl
    | false =>
      rw [shares_call limits calls hresets]
      simp [or_comm]

/-- The variable outlives the declaration of its name. -/
theorem shares_declared_variable :
    let set := (ofLimits .default).afterAll
      [.evaluate (.source "a = 5"), .declareSymbol ⟨"a", "", .scalar⟩]
    set.store.symbols.declares "a" ∧ set.contentsOf? "a" = some #[5] := by
  have hrule : Grammar.rule 256 "a = 5".toList =
      .ok (.block [.binary .assign (.name "a") (.number 5)]) := by
    cbv
  have hread : Evaluation.read Limits.default (.source "a = 5") =
      .ok (.ofTree (.block [.binary .assign (.name "a") (.number 5)])) := by
    rw [Evaluation.read, Program.parse_eq, Limits.default, hrule]
    rfl
  have hassigned : (Call.run (.evaluate (.source "a = 5"))).after (ofLimits .default) =
      ⟨.default, .empty, [("a", #[5])]⟩ := by
    rw [Call.run, Host.after_ignore, Host.after, Evaluation.run_of_read hread]
    rfl
  intro set
  have hset : set = (Call.run (.declareSymbol ⟨"a", "", .scalar⟩)).after
      ⟨.default, .empty, [("a", #[5])]⟩ := by
    rw [← hassigned]
    rfl
  rw [hset]
  decide

end RuleSet
end RuleLang

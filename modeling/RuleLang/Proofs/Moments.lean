import RuleLang.Proofs.Writes

/-!
The lengths of variables while a script runs. The course of a run is what it does step by step, the
next step depending on what the earlier ones have given. Between the steps lie the moments at which
the store can be looked at. A variable gets its length from an assignment, from an element beyond
its end, or from the name that is copied to it. This may be a symbol, so no variable becomes longer
than the longest vector among the symbols, unless by an element, whose index is limited. Writes in
any order keep the limit, through the whole course of a run.
-/
namespace RuleLang

namespace Run

/-- A run step by step. After a step it goes on with what the step has given. -/
inductive Course (β : Type) : Type 1
  | done (b : β) : Course β
  | failed (fault : Fault) : Course β
  | step {α : Type} (act : Run α) (hstep : IsStep act) (next : α → Course β) : Course β

namespace Course

variable {α β : Type}

def run : Course β → Run β
  | done b => pure b
  | failed fault => throw fault
  | step act _ next => act >>= fun a => (next a).run

def bind : Course α → (α → Course β) → Course β
  | done a, rest => rest a
  | failed fault, _ => failed fault
  | step act hstep next, rest => step act hstep fun a => (next a).bind rest

/-- The states before, between and after the steps, up to the one that a failing step leaves. -/
def moments : Course β → RunState → List RunState
  | done _, state | failed _, state => [state]
  | step act _ next, state =>
    state :: match act state with
      | .ok a later => (next a).moments later
      | .error _ later => [later]

theorem run_bind (course : Course α) (rest : α → Course β) :
    (course.bind rest).run = course.run >>= fun a => (rest a).run := by
  induction course with
  | done a => rfl
  | failed fault => rfl
  | step act hstep next ih =>
    simp only [bind, run, ih]
    exact (bind_assoc act _ _).symm

theorem getLast?_moments (course : Course β) (state : RunState) :
    (course.moments state).getLast? = some (after course.run state) := by
  induction course generalizing state with
  | done b => rfl
  | failed fault => rfl
  | step act hstep next ih =>
    unfold moments run after
    cases hact : act state with
    | ok a later =>
      rw [bind_ok hact, List.getLast?_cons, ih a later]
      rfl
    | error fault later =>
      rw [bind_error hact]
      rfl

/-- What each step keeps holds at every moment. -/
theorem forall_moments {P : RunState → Prop}
    (hkeeps : ∀ {α : Type} {act : Run α}, IsStep act → ∀ {state}, P state → P (after act state))
    (course : Course β) {state : RunState} (hstate : P state) :
    ∀ moment ∈ course.moments state, P moment := by
  induction course generalizing state with
  | done b => exact List.forall_mem_singleton.mpr hstate
  | failed fault => exact List.forall_mem_singleton.mpr hstate
  | step act hstep next ih =>
    have hlater := hkeeps hstep hstate
    unfold after at hlater
    unfold moments
    refine List.forall_mem_cons.mpr ⟨hstate, ?_⟩
    cases hact : act state with
    | ok a later =>
      rw [hact] at hlater
      exact ih a hlater
    | error fault later =>
      rw [hact] at hlater
      exact List.forall_mem_singleton.mpr hlater

end Course

end Run

theorem Tree.congruence_course :
    Run.Congruence fun α act _ => ∃ course : Run.Course α, course.run = act where
  pure a := ⟨.done a, rfl⟩
  bind hact hnext := by
    obtain ⟨course, rfl⟩ := hact
    choose rest hrest using hnext
    refine ⟨course.bind rest, ?_⟩
    rw [Run.Course.run_bind]
    simp only [hrest]
  step hstep := ⟨.step _ hstep .done, bind_pure _⟩

/-- The evaluation of a rule has a course. -/
theorem Tree.exists_course (ceiling : Nat) (rule : Tree) :
    ∃ course : Run.Course Int32, course.run = rule.result ceiling :=
  congr_result_self congruence_course ⟨.failed (.runaway ⟨.stalled, [.ofNat ceiling]⟩), rfl⟩ rule

/-- The length of a vector; other values have none. -/
def Value.vectorLength : Value → Nat
  | vector items => items.size
  | scalar _ | matrix _ => 0

namespace Symbols

/-- The length of the longest vector among the values of the symbols. -/
def longestVector (symbols : Symbols) : Nat :=
  ((symbols.entries.toList.filterMap (·.value?)).map Value.vectorLength).max?.getD 0

theorem size_le_longestVector {symbols : Symbols} {name : String} {symbol : Symbol}
    {items : Array Int32} (hfind : symbols.find? name = some symbol)
    (hvalue : symbol.value? = some (.vector items)) : items.size ≤ symbols.longestVector := by
  obtain ⟨place, -, hentry⟩ := Option.bind_eq_some_iff.mp hfind
  have hmem : symbol ∈ symbols.entries.toList := (Array.mem_of_getElem? hentry).val
  have hvector := List.mem_filterMap.mpr ⟨symbol, hmem, hvalue⟩
  exact List.le_max?_getD_of_mem (List.mem_map_of_mem (f := Value.vectorLength) hvector)

end Symbols

namespace Store

/-- What can be copied is a number or a vector of the host, or a variable. -/
theorem elements_eq_ok {store : Store} {name : String} {items : Array Int32}
    (h : store.elements name = .ok items) :
    (∃ symbol, store.symbols.find? name = some symbol ∧
      ∃ n, symbol.value? = some (.scalar n) ∧ items = #[n]) ∨
    (∃ symbol, store.symbols.find? name = some symbol ∧ symbol.value? = some (.vector items)) ∨
    store.scratch.find? name = some items := by
  unfold elements lookup at h
  cases hfind : store.symbols.find? name with
  | none =>
    rw [hfind] at h
    cases hitems : store.items name with
    | error fault =>
      rw [hitems] at h
      cases h
    | ok found =>
      rw [hitems] at h
      obtain rfl : found = items := Except.ok.inj h
      exact .inr (.inr (contents_of_items hitems))
  | some symbol =>
    rw [hfind] at h
    dsimp only [Symbol.value] at h
    cases hvalue : symbol.value? with
    | none =>
      rw [hvalue] at h
      cases h
    | some value =>
      rw [hvalue] at h
      cases value with
      | scalar n => exact .inl ⟨symbol, rfl, n, hvalue, (Except.ok.inj h).symm⟩
      | vector found =>
        obtain rfl : found = items := Except.ok.inj h
        exact .inr (.inl ⟨symbol, rfl, hvalue⟩)
      | matrix rows => cases h

/-- The most elements that a variable can come to have beside the symbols. -/
def lengthLimit (symbols : Symbols) : Nat := max maxVariableLength symbols.longestVector

/-- No variable is longer than the limit. -/
structure Limited (symbols : Symbols) (store : Store) : Prop where
  symbols_eq : store.symbols = symbols
  ascending : store.scratch.Ascending
  size_le : ∀ {name items}, store.scratch.find? name = some items →
    items.size ≤ lengthLimit symbols

namespace Limited

variable {symbols : Symbols} {store later : Store} {name : String} {items : Array Int32}

theorem size_contents_le (h : store.Limited symbols) (name : String) :
    (store.contents name).size ≤ lengthLimit symbols := by
  unfold contents
  cases hfind : store.scratch.find? name with
  | none => exact Nat.zero_le _
  | some items => exact h.size_le hfind

theorem size_singleton_le (symbols : Symbols) (n : Int32) : #[n].size ≤ lengthLimit symbols := by
  have hroom : maxVariableLength ≤ lengthLimit symbols := Nat.le_max_left _ _
  rw [maxVariableLength] at hroom
  simp only [List.size_toArray, List.length_singleton]
  omega

theorem size_elements_le (h : store.Limited symbols) (hitems : store.elements name = .ok items) :
    items.size ≤ lengthLimit symbols := by
  rcases elements_eq_ok hitems with ⟨symbol, hfind, n, -, rfl⟩ | ⟨symbol, hfind, hvalue⟩ | hfind
  · exact size_singleton_le symbols n
  · rw [h.symbols_eq] at hfind
    exact Nat.le_trans (Symbols.size_le_longestVector hfind hvalue) (Nat.le_max_right _ _)
  · exact h.size_le hfind

/-- What is made of a variable is no longer than the limit, if everything was so before. -/
theorem size_made_le {α : Type} {edit : Edit α} {a : α} (h : store.Limited symbols)
    (hmade : edit.Makes store later name a items) : items.size ≤ lengthLimit symbols := by
  cases edit with
  | assign value =>
    obtain rfl := hmade
    exact size_singleton_le symbols value
  | assignElement index value =>
    obtain ⟨k, hk, -, hsize, -⟩ := hmade
    have hroom : maxVariableLength ≤ lengthLimit symbols := Nat.le_max_left _ _
    have hold := h.size_contents_le name
    omega
  | copy source => exact h.size_elements_le hmade.1
  | increment delta =>
    obtain ⟨n, -, rfl, -⟩ := hmade
    exact size_singleton_le symbols (n + delta)
  | incrementElement index delta =>
    obtain ⟨old, k, n, hfind, -, -, rfl, -⟩ := hmade
    rw [Array.size_setIfInBounds]
    exact h.size_le hfind
  | sort =>
    obtain ⟨old, hfind, hperm, -⟩ := hmade
    have hsize := hperm.length_eq
    simp only [Array.length_toList] at hsize
    exact hsize ▸ h.size_le hfind

theorem edit {α : Type} {edit : Edit α} {a : α} (h : store.Limited symbols)
    (hchanges : Edit.Changes store later name items)
    (hmade : edit.Makes store later name a items) : later.Limited symbols where
  symbols_eq := hchanges.symbols_eq.trans h.symbols_eq
  ascending := hchanges.ascending
  size_le := by
    intro x found hfind
    by_cases hx : x = name
    · rw [hx, hchanges.find?_eq] at hfind
      exact Option.some.inj hfind ▸ h.size_made_le hmade
    · rw [hchanges.find?_of_ne x hx] at hfind
      exact h.size_le hfind

end Limited

theorem respects_edit (symbols : Symbols) {α : Type} (name : String) (edit : Edit α) :
    Respects (fun store store' => store = store' ∧ store.Limited symbols) (edit.write name) := by
  rintro store _ ⟨rfl, hlimited⟩
  rcases settles_edit hlimited.ascending name edit with
    ⟨fault, hfails⟩ | ⟨a, later, hok, items, hchanges, hmade⟩
  · rw [hfails]
    exact .error fault ⟨rfl, hlimited⟩
  · rw [hok]
    exact .ok a ⟨rfl, hlimited.edit hchanges hmade⟩

theorem compatible_limited (symbols : Symbols) :
    Compatible fun store store' => store = store' ∧ store.Limited symbols where
  lookup_eq hstore name := by rw [hstore.1]
  assign name value := respects_edit symbols name (.assign value)
  assignElement name index value := respects_edit symbols name (.assignElement index value)
  copy target source := respects_edit symbols target (.copy source)
  increment name delta := respects_edit symbols name (.increment delta)
  incrementElement name index delta := respects_edit symbols name (.incrementElement index delta)
  sort name := respects_edit symbols name .sort

end Store

namespace RuleSet

/-- The state in which the evaluation of a program begins. -/
def initial (set : RuleSet) : RunState := ⟨{ set.store with scratch := [] }, .none⟩

theorem limited_initial (set : RuleSet) :
    set.initial.store.Limited set.store.symbols :=
  ⟨rfl, .nil, fun hfind => by cases hfind⟩

theorem store_after_evaluate (program : Program) (set : RuleSet) :
    ((evaluate program).after set).store =
      (Run.after (program.result set.limits.loopCeiling) set.initial).store := by
  obtain ⟨limits, store⟩ := set
  simp only [Host.after, evaluate, Run.after, initial]
  cases program.result limits.loopCeiling ⟨{ store with scratch := [] }, .none⟩ <;> rfl

/-- The evaluation of a program has a course, and at every moment of it, and after it, no variable
is longer than the longest vector among the symbols, or than an assignment to an element can make
it. -/
theorem size_le_lengthLimit (program : Program) (set : RuleSet) :
    let act := program.result set.limits.loopCeiling
    (∃ course : Run.Course Int32, course.run = act) ∧
    (∀ course : Run.Course Int32, course.run = act →
      ∀ moment ∈ course.moments set.initial, ∀ entry ∈ moment.store.scratch,
        entry.2.size ≤ max maxVariableLength set.store.symbols.longestVector) ∧
    ∀ entry ∈ ((evaluate program).after set).store.scratch,
      entry.2.size ≤ max maxVariableLength set.store.symbols.longestVector := by
  intro act
  have hmoments (course : Run.Course Int32) (moment : RunState)
      (hmoment : moment ∈ course.moments set.initial) :
      moment.store.Limited set.store.symbols :=
    course.forall_moments (P := fun state => state.store.Limited set.store.symbols)
      (fun hstep => hstep.keeps (Store.compatible_limited _)) set.limited_initial moment hmoment
  obtain ⟨course, hcourse⟩ : ∃ course : Run.Course Int32, course.run = act := by
    simpa only [act, Program.result_eq] using program.tree.exists_course set.limits.loopCeiling
  refine ⟨⟨course, hcourse⟩, ?_, ?_⟩
  · intro course _ moment hmoment entry hentry
    have hlimited := hmoments course moment hmoment
    exact hlimited.size_le (hlimited.ascending.find?_of_mem hentry)
  · have hlimited := hmoments course _ (List.mem_of_getLast? (course.getLast?_moments _))
    rw [hcourse, ← store_after_evaluate] at hlimited
    intro entry hentry
    exact hlimited.size_le (hlimited.ascending.find?_of_mem hentry)

end RuleSet

end RuleLang

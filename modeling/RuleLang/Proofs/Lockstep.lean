import RuleLang.Proofs.Congruence

/-!
Runs in related stores. A run meets the store only where it looks a name up and where it writes a
variable. So if a relation between stores lets every name be looked up with the same result, and
is kept by each of the writes, then a run in related stores takes the same way in both and ends in
related stores, with the same value or fault. A property of stores is the case of a relation in
which both stores are the same: what each write keeps, every run keeps.
-/
namespace RuleLang

section Actions

variable {ε σ α β : Type} {R : σ → σ → Prop}

/-- The results give the same or fail alike, in related states. -/
inductive Alike (R : σ → σ → Prop) : EStateM.Result ε σ α → EStateM.Result ε σ α → Prop
  | ok {state state' : σ} (a : α) (h : R state state') : Alike R (.ok a state) (.ok a state')
  | error {state state' : σ} (fault : ε) (h : R state state') :
      Alike R (.error fault state) (.error fault state')

/-- In related states the action has results that are alike. -/
def Respects (R : σ → σ → Prop) (act : EStateM ε σ α) : Prop :=
  ∀ state state', R state state' → Alike R (act state) (act state')

theorem respects_return (a : α) : Respects R (pure a : EStateM ε σ α) := fun _ _ h => .ok a h

theorem respects_throw (fault : ε) : Respects R (throw fault : EStateM ε σ α) :=
  fun _ _ h => .error fault h

theorem Respects.bind {act : EStateM ε σ α} {next : α → EStateM ε σ β} (h : Respects R act)
    (hnext : ∀ a, Respects R (next a)) : Respects R (act >>= next) := by
  intro state state' hstate
  have halike := h state state' hstate
  generalize hact : act state = result, hact' : act state' = result' at halike
  cases halike with
  | ok a hlater =>
    rw [Run.bind_ok hact, Run.bind_ok hact']
    exact hnext a _ _ hlater
  | error fault hlater =>
    rw [Run.bind_error hact, Run.bind_error hact']
    exact .error fault hlater

end Actions

namespace Store

variable {R : Store → Store → Prop} {α : Type}

/-- Everything that a run does with a store respects the relation. -/
structure Compatible (R : Store → Store → Prop) : Prop where
  lookup_eq : ∀ {store store'}, R store store' → ∀ name, store.lookup name = store'.lookup name
  assign : ∀ name value, Respects R (assign name value)
  assignElement : ∀ name index value, Respects R (assignElement name index value)
  copy : ∀ target source, Respects R (copy target source)
  increment : ∀ name delta, Respects R (increment name delta)
  incrementElement : ∀ name index delta, Respects R (incrementElement name index delta)
  sort : ∀ name, Respects R (sort name)

/-- The same stands under every name, and goes on doing so if the same is done to a variable of
each store, as long as this is not the name of a symbol. -/
structure Lockstep (R : Store → Store → Prop) : Prop where
  find?_eq : ∀ {store store'}, R store store' →
    ∀ name, store.symbols.find? name = store'.symbols.find? name
  items_eq : ∀ {store store'}, R store store' →
    ∀ name, store.scratch.find? name = store'.scratch.find? name
  update : ∀ {store store'}, R store store' →
    ∀ name change, store.symbols.find? name = none →
      R { store with scratch := store.scratch.update name change }
        { store' with scratch := store'.scratch.update name change }

theorem respects_reading {get : Store → Except Fault α}
    (h : ∀ store store', R store store' → get store = get store') :
    Respects R (reading get) := by
  intro store store' hstore
  rw [reading, reading, h store store' hstore]
  cases get store' with
  | ok a => exact .ok a hstore
  | error fault => exact .error fault hstore

/-- Related stores in which a name is not that of a symbol. -/
def Free (R : Store → Store → Prop) (name : String) (store store' : Store) : Prop :=
  R store store' ∧ store.symbols.find? name = none

namespace Lockstep

variable (h : Lockstep R)

include h

theorem lookup_eq {store store' : Store} (hstore : R store store') (name : String) :
    store.lookup name = store'.lookup name := by
  rw [lookup, lookup, h.find?_eq hstore, items, items, h.items_eq hstore]

theorem free (name : String) : Lockstep (Free R name) where
  find?_eq hstore := h.find?_eq hstore.1
  items_eq hstore := h.items_eq hstore.1
  update hstore x change hx := ⟨h.update hstore.1 x change hx, hstore.2⟩

theorem respects_items (name : String) : Respects R (reading (·.items name)) :=
  respects_reading fun _ _ hstore => by simp only [items, h.items_eq hstore]

theorem respects_elements (name : String) : Respects R (reading (·.elements name)) :=
  respects_reading fun _ _ hstore => by simp only [elements, h.lookup_eq hstore]

theorem declares_eq {store store' : Store} (hstore : R store store') (name : String) :
    store.symbols.declares name = store'.symbols.declares name := by
  rw [Symbols.declares, Symbols.declares, h.find?_eq hstore]

/-- A write takes place in stores in which the name is free, and so may change its variable. -/
theorem respects_writing {name : String} {act : Write α} (hact : Respects (Free R name) act) :
    Respects R (writing name act) := by
  intro store store' hstore
  rw [writing, writing, ← h.declares_eq hstore]
  split
  case isTrue hdeclared => exact .error _ hstore
  case isFalse hfree =>
    have hnone : store.symbols.find? name = none := by simpa [Symbols.declares] using hfree
    have halike := hact store store' ⟨hstore, hnone⟩
    generalize act store = result, act store' = result' at halike
    cases halike with
    | ok a hlater => exact .ok a hlater.1
    | error fault hlater => exact .error fault hlater.1

theorem respects_update (name : String) (change : Array Int32 → Array Int32) :
    Respects (Free R name) (Store.update name change) :=
  fun _ _ hstore => .ok () ⟨h.update hstore.1 name change hstore.2, hstore.2⟩

/-- Stores in lockstep stay so through every write of a run. -/
theorem compatible : Compatible R where
  lookup_eq := h.lookup_eq
  assign name value := h.respects_writing (h.respects_update name _)
  assignElement name index value := by
    apply h.respects_writing
    apply (respects_reading fun _ _ _ => rfl).bind
    intro i
    exact h.respects_update name _
  copy target source := by
    apply h.respects_writing
    apply ((h.free target).respects_elements source).bind
    intro items
    exact (h.respects_update target _).bind fun _ => respects_return _
  increment name delta := by
    apply h.respects_writing
    apply ((h.free name).respects_items name).bind
    intro items
    split
    · exact (h.respects_update name _).bind fun _ => respects_return _
    · exact respects_throw _
  incrementElement name index delta := by
    apply h.respects_writing
    apply ((h.free name).respects_items name).bind
    intro items
    apply (respects_reading fun _ _ _ => rfl).bind
    intro i
    exact (h.respects_update name _).bind fun _ => respects_return _
  sort name := by
    intro store store' hstore
    rw [sort, sort, ← h.declares_eq hstore, ← h.items_eq hstore]
    split
    case isTrue hdeclared => exact .error _ hstore
    case isFalse hfree =>
      have hnone : store.symbols.find? name = none := by simpa [Symbols.declares] using hfree
      split
      · exact .error _ hstore
      · exact .ok () (h.update hstore name sorted hnone)

end Lockstep

end Store

/-- Related stores under the same signals. -/
structure RunState.Related (R : Store → Store → Prop) (state state' : RunState) : Prop where
  store : R state.store state'.store
  signals_eq : state.signals = state'.signals

namespace Run

variable {R : Store → Store → Prop} {α : Type}

theorem respects_write {act : Write α} (h : Respects R act) :
    Respects (RunState.Related R) (write act) := by
  rintro ⟨store, signals⟩ ⟨store', signals'⟩ ⟨hstore, hsignals⟩
  have halike := h store store' hstore
  generalize hact : act store = result, hact' : act store' = result' at halike
  cases halike with
  | ok a hlater =>
    rw [write_ok signals hact, write_ok signals' hact']
    exact .ok a ⟨hlater, hsignals⟩
  | error fault hlater =>
    rw [write_error signals hact, write_error signals' hact']
    exact .error fault ⟨hlater, hsignals⟩

theorem respects_read {get : Store → Except Fault α}
    (h : ∀ store store', R store store' → get store = get store') :
    Respects (RunState.Related R) (read get) := by
  rw [read_eq_write]
  exact respects_write (Store.respects_reading h)

theorem respects_signals : Respects (RunState.Related R) signals := by
  rintro state state' ⟨hstore, hsignals⟩
  rw [signals, signals, hsignals]
  exact .ok _ ⟨hstore, hsignals⟩

theorem respects_signal (change : Signals → Signals) :
    Respects (RunState.Related R) (signal change) :=
  fun _ _ h => .ok () ⟨h.store, congrArg change h.signals_eq⟩

theorem respects_takeBreak : Respects (RunState.Related R) takeBreak := by
  rintro state state' ⟨hstore, hsignals⟩
  rw [takeBreak, takeBreak, hsignals]
  exact .ok _ ⟨hstore, rfl⟩

end Run

namespace Tree

open Run Store

variable {R : Store → Store → Prop} (h : Compatible R)

include h

theorem congruence_respects :
    Congruence fun _ act _ => Respects (RunState.Related R) act where
  pure := respects_return
  bind := Respects.bind
  step hstep := by
    cases hstep with
    | read x => exact respects_read fun _ _ hstore => by simp only [Store.read, h.lookup_eq hstore]
    | readElement x index =>
      exact respects_read fun _ _ hstore => by simp only [readElement, h.lookup_eq hstore]
    | readCell x i j =>
      exact respects_read fun _ _ hstore => by
        simp only [readCell, row, rows, h.lookup_eq hstore]
    | size x => exact respects_read fun _ _ hstore => by simp only [Store.size, h.lookup_eq hstore]
    | rowSize x i =>
      exact respects_read fun _ _ hstore => by simp only [rowSize, row, rows, h.lookup_eq hstore]
    | sort x => exact respects_write (h.sort x)
    | copy x y => exact respects_write (h.copy x y)
    | assign x value => exact respects_write (h.assign x value)
    | assignElement x index value => exact respects_write (h.assignElement x index value)
    | increment x delta => exact respects_write (h.increment x delta)
    | incrementElement x index delta => exact respects_write (h.incrementElement x index delta)
    | signals => exact respects_signals
    | signal change => exact respects_signal change
    | takeBreak => exact respects_takeBreak
    | methodTarget | notAssignable | divisionByZero => exact respects_throw _

/-- Runs of a rule in related stores give the same value or fault, and leave related stores. -/
theorem respects_result (ceiling : Nat) (rule : Tree) :
    Respects (RunState.Related R) (rule.result ceiling) :=
  congr_result_self (congruence_respects h) (respects_throw _) rule

end Tree

namespace Run

/-- The state that an action leaves, even if it fails. -/
def after {α : Type} (act : Run α) (state : RunState) : RunState :=
  match act state with
  | .ok _ later => later
  | .error _ later => later

/-- What everything that a run does with a store keeps, each of its steps keeps. -/
theorem IsStep.keeps {P : Store → Prop}
    (h : Store.Compatible fun store store' => store = store' ∧ P store) {α : Type} {act : Run α}
    (hstep : IsStep act) {state : RunState} (hstate : P state.store) :
    P (after act state).store := by
  have halike := (Tree.congruence_respects h).step hstep state state ⟨⟨rfl, hstate⟩, rfl⟩
  unfold after
  generalize act state = result at halike ⊢
  cases halike with
  | ok a hlater => exact hlater.store.2
  | error fault hlater => exact hlater.store.2

end Run

/-- Rule sets with the same limits and related stores. -/
structure RuleSet.Related (R : Store → Store → Prop) (set set' : RuleSet) : Prop where
  limits_eq : set.limits = set'.limits
  store : R set.store set'.store

/-- Evaluations that begin in related stores have results that are alike. -/
theorem RuleSet.alike_evaluate {R : Store → Store → Prop} (h : Store.Compatible R)
    (program : Program) {set set' : RuleSet} (hlimits : set.limits = set'.limits)
    (hstore : R { set.store with scratch := [] } { set'.store with scratch := [] }) :
    Alike (RuleSet.Related R) (evaluate program set) (evaluate program set') := by
  obtain ⟨limits, store⟩ := set
  obtain ⟨limits', store'⟩ := set'
  obtain rfl : limits = limits' := hlimits
  have halike := Tree.respects_result h limits.loopCeiling program.tree
    ⟨{ store with scratch := [] }, .none⟩ ⟨{ store' with scratch := [] }, .none⟩ ⟨hstore, rfl⟩
  simp only [evaluate_eq]
  generalize program.tree.result limits.loopCeiling ⟨{ store with scratch := [] }, .none⟩ = result,
    program.tree.result limits.loopCeiling ⟨{ store' with scratch := [] }, .none⟩ = result'
    at halike ⊢
  cases halike with
  | ok value hlater => exact .ok value ⟨rfl, hlater.store⟩
  | error fault hlater => exact .error fault ⟨rfl, hlater.store⟩

end RuleLang

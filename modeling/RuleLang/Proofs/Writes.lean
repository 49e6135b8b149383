import RuleLang.Proofs.Increments
import RuleLang.Proofs.NameSpaces

/-!
The writes of a script. Everything that a write has to ask for, it asks for before it changes
anything: whether the name is free, what the elements are, where the index leads. So a write either
fails and leaves the store as it was, or it changes one variable, whose name is that of no symbol.
What it makes of the elements is said for each write without the code, by reading them back.

Variables are changed where they are found, since the table is ascending in every store that a
host and its scripts can come to.
-/
namespace RuleLang

namespace Store

/-- The elements of a variable. A variable that is not there has none. -/
def contents (store : Store) (name : String) : Array Int32 :=
  (store.scratch.find? name).getD #[]

/-- What a script can do to a variable, with the type of what it gets back. -/
inductive Edit : Type → Type
  | assign (value : Int32) : Edit Unit
  | assignElement (index value : Int32) : Edit Unit
  | copy (source : String) : Edit Int32
  | increment (delta : Int32) : Edit (Int32 × Int32)
  | incrementElement (index delta : Int32) : Edit (Int32 × Int32)
  | sort : Edit Unit

namespace Edit

variable {α : Type}

def write (name : String) : Edit α → Write α
  | assign value => Store.assign name value
  | assignElement index value => Store.assignElement name index value
  | copy source => Store.copy name source
  | increment delta => Store.increment name delta
  | incrementElement index delta => Store.incrementElement name index delta
  | sort => Store.sort name

/-- What has become of a variable, and what is given back. `store` and `later` are the stores
before and after, and `items` are the elements of the variable in the latter. -/
def Makes (store later : Store) (name : String) : Edit α → α → Array Int32 → Prop
  | assign value, _, items => items = #[value]
  | assignElement index value, _, items =>
    ∃ k < maxVariableLength, index.toInt = (k : ℕ) ∧
      items.size = max (store.contents name).size (k + 1) ∧ items[k]? = some value ∧
      ∀ j < items.size, j ≠ k → items[j]? = some ((store.contents name).getD j 0)
  | copy source, first, items =>
    store.elements source = .ok items ∧ later.elements source = .ok items ∧
      first = items.getD 0 0
  | increment delta, found, items =>
    ∃ n, store.scratch.find? name = some #[n] ∧ items = #[n + delta] ∧ found = (n, n + delta)
  | incrementElement index delta, found, items =>
    ∃ old k n, store.scratch.find? name = some old ∧ index.toInt = (k : ℕ) ∧ old[k]? = some n ∧
      items = old.setIfInBounds k (n + delta) ∧ found = (n, n + delta)
  | sort, _, items =>
    ∃ old, store.scratch.find? name = some old ∧ items.toList.Perm old.toList ∧
      items.toList.Pairwise (· ≤ ·)

/-- The one variable that is different afterwards, and its elements. -/
structure Changes (store later : Store) (name : String) (items : Array Int32) : Prop where
  free : store.symbols.find? name = none
  symbols_eq : later.symbols = store.symbols
  find?_eq : later.scratch.find? name = some items
  find?_of_ne : ∀ x, x ≠ name → later.scratch.find? x = store.scratch.find? x
  ascending : later.scratch.Ascending

end Edit

variable {α β : Type} {store : Store} {name : String} {done : α → Store → Prop}

/-- The action fails and leaves the store as it is, or succeeds and does what is said. -/
def Settles (store : Store) (act : Write α) (done : α → Store → Prop) : Prop :=
  (∃ fault, act store = .error fault store) ∨ ∃ a later, act store = .ok a later ∧ done a later

theorem settles_writing {act : Write α}
    (h : store.symbols.find? name = none → Settles store act done) :
    Settles store (writing name act) done := by
  cases hfind : store.symbols.find? name with
  | none =>
    rw [Settles, writing_of_free hfind]
    exact h hfind
  | some symbol =>
    refine .inl ⟨.name ⟨.readOnly, [name.toList]⟩, ?_⟩
    rw [writing, Symbols.declares, hfind]
    rfl

theorem settles_reading_bind {get : Store → Except Fault β} {next : β → Write α}
    (h : ∀ b, get store = .ok b → Settles store (next b) done) :
    Settles store (reading get >>= next) done := by
  cases hget : get store with
  | ok b =>
    have hreading : reading get store = .ok b store := by rw [reading, hget]
    rw [Settles, Run.bind_ok hreading]
    exact h b hget
  | error fault =>
    have hreading : reading get store = .error fault store := by rw [reading, hget]
    exact .inl ⟨fault, Run.bind_error hreading⟩

theorem settles_update {change : Array Int32 → Array Int32} {done : Unit → Store → Prop}
    (h : done () (store.changed name change)) : Settles store (update name change) done :=
  .inr ⟨(), _, rfl, h⟩

theorem settles_update_return {change : Array Int32 → Array Int32} {a : α}
    (h : done a (store.changed name change)) :
    Settles store (do update name change; return a) done :=
  .inr ⟨a, _, rfl, h⟩

theorem settles_throw (fault : Fault) : Settles store (throw fault) done := .inl ⟨fault, rfl⟩

namespace Edit.Changes

variable {later : Store} {items : Array Int32} (h : Edit.Changes store later name items)

include h

theorem elements_self : later.elements name = .ok items := by
  have hholds : later.Holds name items := ⟨h.symbols_eq ▸ h.free, h.find?_eq⟩
  rw [elements, hholds.lookup_eq]
  rfl

theorem elements_of_ne {x : String} (hne : x ≠ name) : later.elements x = store.elements x := by
  rw [elements, elements, lookup, lookup, h.symbols_eq, Store.items, Store.items,
    h.find?_of_ne x hne]

end Edit.Changes

theorem changes_changed (hascending : store.scratch.Ascending)
    (hfree : store.symbols.find? name = none) (change : Array Int32 → Array Int32) :
    Edit.Changes store (store.changed name change) name (change (store.contents name)) where
  free := hfree
  symbols_eq := rfl
  find?_eq := hascending.find?_update_self name change
  find?_of_ne _ hne := Variables.find?_update_of_ne hne change store.scratch
  ascending := hascending.update name change

theorem contents_of_items {items : Array Int32} (h : store.items name = .ok items) :
    store.scratch.find? name = some items := by
  unfold Store.items at h
  split at h
  case h_1 found hfound =>
    obtain rfl := Except.ok.inj h
    exact hfound
  case h_2 => cases h

theorem size_place (k : ℕ) (value : Int32) (items : Array Int32) :
    (place k value items).size = max items.size (k + 1) := by
  simp only [place, Array.size_setIfInBounds, Array.size_append, Array.size_replicate]
  omega

theorem place_getElem? (k : ℕ) (value : Int32) (items : Array Int32) :
    (place k value items)[k]? = some value := by
  have hsize := size_place k value items
  simp only [place, Array.size_setIfInBounds] at hsize
  rw [place, Array.getElem?_setIfInBounds_self_of_lt (by omega)]

theorem place_getElem?_of_ne {k j : ℕ} (value : Int32) (items : Array Int32)
    (hj : j < (place k value items).size) (hne : j ≠ k) :
    (place k value items)[j]? = some (items.getD j 0) := by
  rw [size_place] at hj
  rw [place, Array.getElem?_setIfInBounds_ne (Ne.symm hne)]
  by_cases hold : j < items.size
  · rw [Array.getElem?_append_left hold]
    simp [Array.getD, hold]
  · rw [Array.getElem?_append_right (by omega), Array.getElem?_replicate]
    simp [Array.getD, hold]
    omega

theorem sorted_perm (items : Array Int32) : (sorted items).toList.Perm items.toList :=
  List.mergeSort_perm _ _

theorem sorted_pairwise (items : Array Int32) : (sorted items).toList.Pairwise (· ≤ ·) := by
  have htrans (a b c : Int32) (hab : decide (a ≤ b)) (hbc : decide (b ≤ c)) : decide (a ≤ c) :=
    decide_eq_true (Int32.le_trans (of_decide_eq_true hab) (of_decide_eq_true hbc))
  have htotal (a b : Int32) : decide (a ≤ b) || decide (b ≤ a) := by
    simpa using Int32.le_total a b
  exact (List.pairwise_mergeSort htrans htotal items.toList).imp of_decide_eq_true

/-- The edit has been made: one variable is different, and it is what the edit makes of it. -/
def Edit.Made (store : Store) (name : String) {α : Type} (edit : Edit α) (a : α)
    (later : Store) : Prop :=
  ∃ items, Edit.Changes store later name items ∧ edit.Makes store later name a items

section Edits

variable (hascending : store.scratch.Ascending) (name : String)

include hascending

theorem settles_assign (value : Int32) :
    Settles store (assign name value) (Edit.Made store name (.assign value)) := by
  apply settles_writing
  intro hfree
  apply settles_update
  exact ⟨_, changes_changed hascending hfree _, rfl⟩

theorem settles_assignElement (index value : Int32) :
    Settles store (assignElement name index value)
      (Edit.Made store name (.assignElement index value)) := by
  apply settles_writing
  intro hfree
  apply settles_reading_bind
  intro k hslot
  apply settles_update
  obtain ⟨hnonneg, hk, hlt⟩ := slot_eq_ok hslot
  refine ⟨_, changes_changed hascending hfree _, k, hlt, hk, size_place k value _, ?_, ?_⟩
  · exact place_getElem? k value _
  · exact fun j hj hne => place_getElem?_of_ne value _ hj hne

/-- A variable can be copied to itself. -/
theorem settles_copy (source : String) :
    Settles store (copy name source) (Edit.Made store name (.copy source)) := by
  apply settles_writing
  intro hfree
  apply settles_reading_bind
  intro items hitems
  apply settles_update_return
  have hchanges := changes_changed hascending hfree fun _ => items
  refine ⟨items, hchanges, hitems, ?_, rfl⟩
  by_cases hself : source = name
  · rw [hself]
    exact hchanges.elements_self
  · exact (hchanges.elements_of_ne hself).trans hitems

theorem settles_increment (delta : Int32) :
    Settles store (increment name delta) (Edit.Made store name (.increment delta)) := by
  apply settles_writing
  intro hfree
  apply settles_reading_bind
  intro items hitems
  split
  case isTrue hsize =>
    obtain ⟨n, rfl⟩ := Array.size_eq_one_iff.mp hsize
    apply settles_update_return
    exact ⟨_, changes_changed hascending hfree _, n, contents_of_items hitems, rfl, rfl⟩
  case isFalse => exact settles_throw _

theorem settles_incrementElement (index delta : Int32) :
    Settles store (incrementElement name index delta)
      (Edit.Made store name (.incrementElement index delta)) := by
  apply settles_writing
  intro hfree
  apply settles_reading_bind
  intro items hitems
  have hfind := contents_of_items hitems
  apply settles_reading_bind
  intro k hslot
  apply settles_update_return
  obtain ⟨hnonneg, hk, hlt⟩ := slot_eq_ok hslot
  refine ⟨_, changes_changed hascending hfree _, items, k, items.getD k 0, hfind, hk, ?_, ?_, rfl⟩
  · simp [Array.getD, hlt]
  · simp only [contents, hfind, Option.getD_some]

theorem settles_sort : Settles store (sort name) (Edit.Made store name .sort) := by
  cases hfree : store.symbols.find? name with
  | some symbol =>
    refine .inl ⟨.shape ⟨.notSortable, [name.toList]⟩, ?_⟩
    rw [sort, Symbols.declares, hfree]
    rfl
  | none =>
    cases hfind : store.scratch.find? name with
    | none =>
      refine .inl ⟨.name ⟨.unknownName, [name.toList]⟩, ?_⟩
      rw [sort, Symbols.declares, hfree, hfind]
      rfl
    | some items =>
      have hsort : sort name store = update name sorted store := by
        rw [sort, Symbols.declares, hfree, hfind]
        rfl
      rw [Settles, hsort]
      apply settles_update
      have hchanges := changes_changed hascending hfree sorted
      rw [contents, hfind] at hchanges
      exact ⟨_, hchanges, items, hfind, sorted_perm items, sorted_pairwise items⟩

/-- An edit tests before it changes anything. -/
theorem settles_edit {α : Type} (edit : Edit α) :
    Settles store (edit.write name) (edit.Made store name) := by
  cases edit with
  | assign value => exact settles_assign hascending name value
  | assignElement index value => exact settles_assignElement hascending name index value
  | copy source => exact settles_copy hascending name source
  | increment delta => exact settles_increment hascending name delta
  | incrementElement index delta => exact settles_incrementElement hascending name index delta
  | sort => exact settles_sort hascending name

end Edits

end Store

namespace RuleSet

theorem ascending_evaluate (program : Program) (set : RuleSet) :
    ((evaluate program).after set).store.scratch.Ascending :=
  (alike_evaluate Store.lockstep_ascending.compatible program rfl ⟨rfl, .nil⟩).after.store.2

theorem ascending_call {set : RuleSet} (h : set.store.scratch.Ascending) (call : Call) :
    (call.run.after set).store.scratch.Ascending := by
  cases hcall : call.isEvaluation with
  | false =>
    rw [scratch_call hcall]
    split
    · exact .nil
    · exact h
  | true =>
    obtain ⟨evaluation, rfl⟩ := call.eq_evaluate hcall
    rw [Call.run, Host.after_ignore, Host.after]
    cases hread : evaluation.read set.limits with
    | ok program =>
      rw [Evaluation.run_of_read hread]
      exact ascending_evaluate program set
    | error fault =>
      rw [Evaluation.run_of_unread hread]
      exact h

end RuleSet

namespace Store

/-- The stores that a host and its scripts come to, in whatever turns they take their steps. -/
inductive Reachable : Store → Prop
  | empty : Reachable .empty
  | call {store : Store} (h : Reachable store) (limits : Limits) (call : Call) :
      Reachable (call.run.after ⟨limits, store⟩).store
  | step {α : Type} {act : Run α} {store : Store} (h : Reachable store) (signals : Signals)
      (hstep : Run.IsStep act) : Reachable (Run.after act ⟨store, signals⟩).store

theorem Reachable.ascending {store : Store} (h : store.Reachable) : store.scratch.Ascending := by
  induction h with
  | empty => exact .nil
  | call _ limits call ih => exact RuleSet.ascending_call ih call
  | step _ signals hstep ih => exact hstep.keeps lockstep_ascending.compatible ih

/-- An edit fails and leaves the whole store as it was, or changes the one variable that it names,
which is no symbol, and makes of it what it should. -/
theorem edit_atomic {store : Store} (h : store.Reachable) {α : Type} (name : String)
    (edit : Edit α) :
    (∃ fault, edit.write name store = .error fault store) ∨
      ∃ a later items, edit.write name store = .ok a later ∧
        Edit.Changes store later name items ∧ edit.Makes store later name a items := by
  rcases settles_edit h.ascending name edit with hfails | ⟨a, later, hok, items, hmade⟩
  · exact .inl hfails
  · exact .inr ⟨a, later, items, hok, hmade⟩

/-- Beside a symbol, a variable is made, grows by an element with a gap before it, and is sorted. -/
theorem edit_atomic_sort :
    let symbols := Symbols.empty.insert ⟨⟨"v", "", .scalar⟩, none⟩
    Reachable ⟨symbols, [("x", #[3, 0, -1])]⟩ ∧
      ∃ later items, Edit.sort.write "x" ⟨symbols, [("x", #[3, 0, -1])]⟩ = .ok () later ∧
        later.symbols = symbols ∧ later.scratch.find? "x" = some items ∧
        items.toList.Perm [3, 0, -1] ∧ items.toList.Pairwise (· ≤ ·) := by
  intro symbols
  have hsymbols : Reachable ⟨symbols, []⟩ :=
    Reachable.empty.call .default (.declareSymbol ⟨"v", "", .scalar⟩)
  have hassign : Reachable ⟨symbols, [("x", #[3])]⟩ := hsymbols.step .none (.assign "x" 3)
  have hreachable : Reachable ⟨symbols, [("x", #[3, 0, -1])]⟩ :=
    hassign.step .none (.assignElement "x" 2 (-1))
  refine ⟨hreachable, ?_⟩
  rcases edit_atomic hreachable "x" .sort with ⟨fault, herror⟩ | ⟨_, later, items, hok, hmade⟩
  · cases herror
  · obtain ⟨hchanges, old, hold, hperm, hsorted⟩ := hmade
    obtain rfl : #[3, 0, -1] = old := Option.some.inj hold
    exact ⟨later, items, hok, hchanges.symbols_eq, hchanges.find?_eq, hperm, hsorted⟩

end Store

end RuleLang

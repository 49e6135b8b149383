import RuleLang.Proofs.Refinement

/-!
What the store can report. A fault of the store is about a name: it stands for nothing, for a
symbol, or for data of another shape than asked for. One lemma for each operation of the store
says that it fails with the templates of these faults only, and all that is known of the faults
of a run starts from here.
-/
namespace RuleLang

section Templates

variable {σ α β : Type} {templates : List Template}

/-- If the attempt fails, it is with one of the templates, which it fills. -/
def FailsWith (templates : List Template) (attempt : Except Fault α) : Prop :=
  ∀ fault, attempt = .error fault → fault.template ∈ templates ∧ fault.Fills

/-- If the action fails, from whatever state, it is with one of the templates, which it fills. -/
def Reports (templates : List Template) (act : EStateM Fault σ α) : Prop :=
  ∀ state fault state', act state = .error fault state' →
    fault.template ∈ templates ∧ fault.Fills

theorem failsWith_return (a : α) : FailsWith templates (pure a : Except Fault α) := fun _ => nofun

theorem failsWith_throw {fault : Fault} (h : templates.contains fault.template)
    (hfills : fault.Fills) : FailsWith templates (throw fault : Except Fault α) := by
  rintro _ ⟨⟩
  exact ⟨List.contains_iff_mem.mp h, hfills⟩

theorem FailsWith.bind {attempt : Except Fault α} {next : α → Except Fault β}
    (h : FailsWith templates attempt) (hnext : ∀ a, FailsWith templates (next a)) :
    FailsWith templates (attempt >>= next) := by
  cases attempt with
  | ok a => exact hnext a
  | error fault =>
    rintro _ ⟨⟩
    exact h fault rfl

theorem reports_return (a : α) : Reports templates (pure a : EStateM Fault σ α) :=
  fun _ _ _ => nofun

theorem reports_throw {fault : Fault} (h : templates.contains fault.template)
    (hfills : fault.Fills) : Reports templates (throw fault : EStateM Fault σ α) := by
  rintro _ _ _ ⟨⟩
  exact ⟨List.contains_iff_mem.mp h, hfills⟩

theorem Reports.bind {act : EStateM Fault σ α} {next : α → EStateM Fault σ β}
    (h : Reports templates act) (hnext : ∀ a, Reports templates (next a)) :
    Reports templates (act >>= next) := by
  intro state fault state' herror
  cases hact : act state with
  | ok a later =>
    rw [Run.bind_ok hact] at herror
    exact hnext a later fault state' herror
  | error fault' later =>
    rw [Run.bind_error hact] at herror
    cases herror
    exact h state _ _ hact

end Templates

namespace Store

variable {α : Type}

/-- The templates that the store fills in. -/
def templates : List Template :=
  [.unknownName, .readOnly, .unset, .notAVector, .notAMatrix, .needsTwoIndices, .outOfRange,
    .needsIndex, .noSize, .notSortable, .matrixCopy]

theorem failsWith_slot (name : String) (index : Int32) (length : Nat) :
    FailsWith templates (slot name index length) := by
  unfold slot
  split
  · exact failsWith_return _
  · exact failsWith_throw rfl ⟨rfl, rfl⟩

theorem failsWith_items (store : Store) (name : String) :
    FailsWith templates (store.items name) := by
  unfold items
  split
  · exact failsWith_return _
  · exact failsWith_throw rfl ⟨rfl, rfl⟩

theorem failsWith_lookup (store : Store) (name : String) :
    FailsWith templates (store.lookup name) := by
  unfold lookup
  split
  · refine FailsWith.bind ?_ fun _ => failsWith_return _
    unfold Symbol.value
    split
    · exact failsWith_return _
    · exact failsWith_throw rfl ⟨rfl, rfl⟩
  · exact (failsWith_items store name).bind fun _ => failsWith_return _

theorem failsWith_elementOf (name : String) (items : Array Int32) (index : Int32) :
    FailsWith templates (elementOf name items index) :=
  (failsWith_slot name index items.size).bind fun _ => failsWith_return _

theorem failsWith_read (store : Store) (name : String) : FailsWith templates (store.read name) := by
  apply (failsWith_lookup store name).bind
  intro found
  split
  · exact failsWith_return _
  · exact failsWith_throw rfl ⟨rfl, rfl⟩
  · split
    · exact failsWith_return _
    · exact failsWith_throw rfl ⟨rfl, rfl⟩

theorem failsWith_readElement (store : Store) (name : String) (index : Int32) :
    FailsWith templates (store.readElement name index) := by
  apply (failsWith_lookup store name).bind
  intro found
  split
  · exact failsWith_throw rfl ⟨rfl, rfl⟩
  · exact failsWith_throw rfl ⟨rfl, rfl⟩
  · exact failsWith_elementOf _ _ _
  · exact failsWith_elementOf _ _ _

theorem failsWith_row (store : Store) (name : String) (index : Int32) :
    FailsWith templates (store.row name index) := by
  refine FailsWith.bind ?_ fun rows => (failsWith_slot _ _ _).bind fun _ => failsWith_return _
  apply (failsWith_lookup store name).bind
  intro found
  split
  · exact failsWith_return _
  · exact failsWith_throw rfl ⟨rfl, rfl⟩

theorem failsWith_readCell (store : Store) (name : String) (row column : Int32) :
    FailsWith templates (store.readCell name row column) :=
  (failsWith_row store name row).bind fun _ => failsWith_elementOf _ _ _

theorem failsWith_size (store : Store) (name : String) :
    FailsWith templates (store.size name) := by
  apply (failsWith_lookup store name).bind
  intro found
  split
  · exact failsWith_throw rfl ⟨rfl, rfl⟩
  all_goals exact failsWith_return _

theorem failsWith_rowSize (store : Store) (name : String) (index : Int32) :
    FailsWith templates (store.rowSize name index) :=
  (failsWith_row store name index).bind fun _ => failsWith_return _

theorem failsWith_elements (store : Store) (name : String) :
    FailsWith templates (store.elements name) := by
  apply (failsWith_lookup store name).bind
  intro found
  split
  · exact failsWith_return _
  · exact failsWith_throw rfl ⟨rfl, rfl⟩
  all_goals exact failsWith_return _

theorem reports_reading {get : Store → Except Fault α}
    (h : ∀ store, FailsWith templates (get store)) : Reports templates (reading get) := by
  intro store fault store' herror
  unfold reading at herror
  cases hget : get store with
  | ok a =>
    rw [hget] at herror
    cases herror
  | error fault' =>
    rw [hget] at herror
    cases herror
    exact h store _ hget

theorem reports_writing (name : String) {act : Write α} (h : Reports templates act) :
    Reports templates (writing name act) := by
  intro store fault store' herror
  unfold writing at herror
  split at herror
  · cases herror
    exact ⟨List.contains_iff_mem.mp rfl, rfl, rfl⟩
  · exact h store fault store' herror

theorem reports_update (name : String) (change : Array Int32 → Array Int32) :
    Reports templates (update name change) := fun _ _ _ => nofun

theorem reports_assign (name : String) (value : Int32) : Reports templates (assign name value) :=
  reports_writing name (reports_update _ _)

theorem reports_assignElement (name : String) (index value : Int32) :
    Reports templates (assignElement name index value) := by
  refine reports_writing name ((reports_reading fun _ => failsWith_slot _ _ _).bind fun i => ?_)
  exact reports_update _ _

theorem reports_copy (target source : String) : Reports templates (copy target source) := by
  apply reports_writing target
  apply (reports_reading fun _ => failsWith_elements _ _).bind
  intro items
  exact (reports_update _ _).bind fun _ => reports_return _

theorem reports_increment (name : String) (delta : Int32) :
    Reports templates (increment name delta) := by
  refine reports_writing name ((reports_reading fun _ => failsWith_items _ _).bind fun items => ?_)
  split
  · exact (reports_update _ _).bind fun _ => reports_return _
  · exact reports_throw rfl ⟨rfl, rfl⟩

theorem reports_incrementElement (name : String) (index delta : Int32) :
    Reports templates (incrementElement name index delta) := by
  refine reports_writing name ((reports_reading fun _ => failsWith_items _ _).bind fun items => ?_)
  refine (reports_reading fun _ => failsWith_slot _ _ _).bind fun i => ?_
  exact (reports_update _ _).bind fun _ => reports_return _

theorem reports_sort (name : String) : Reports templates (sort name) := by
  intro store fault store' herror
  unfold sort at herror
  split at herror
  · cases herror
    exact ⟨List.contains_iff_mem.mp rfl, rfl, rfl⟩
  · split at herror
    · cases herror
      exact ⟨List.contains_iff_mem.mp rfl, rfl, rfl⟩
    · cases herror

end Store
end RuleLang

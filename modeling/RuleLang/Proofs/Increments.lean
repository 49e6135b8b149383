import RuleLang.Proofs.Ascending

/-!
Steps and the assignments that they abbreviate. A step changes a variable in place, and there has
to be one; an assignment makes the variable anew or lets it grow, up to a length that it never
exceeds. Where a step succeeds, the assignment therefore does the same, unless it is to write an
element that lies beyond this length: a variable can be longer if it was copied from a symbol.
-/
namespace RuleLang

theorem slot_eq_ok {name : String} {index : Int32} {length k : Nat}
    (h : slot name index length = .ok k) : 0 ≤ index.toInt ∧ index.toInt = k ∧ k < length := by
  unfold slot at h
  split at h
  case isTrue hin =>
    obtain rfl := Except.ok.inj h
    omega
  case isFalse => cases h

/-- The place of an index is the same in another length, if it lies inside that too. -/
theorem slot_of_lt {name : String} {index : Int32} {length length' k : Nat}
    (h : slot name index length = .ok k) (hlt : k < length') : slot name index length' = .ok k := by
  obtain ⟨hnonneg, hk, -⟩ := slot_eq_ok h
  rw [slot, if_pos (by omega), hk, Int.toNat_natCast]

theorem slot_of_le {name : String} {index : Int32} {length : Nat} (h : length ≤ index.toInt) :
    slot name index length = .error (.shape ⟨.outOfRange, [.ofInt index.toInt, name.toList]⟩) :=
  if_neg (by omega)

namespace Store

variable {store later : Store} {a : String} {items : Array Int32} {n delta index : Int32}
  {k : Nat} {found : Int32 × Int32}

/-- The name is that of a variable with these elements. -/
structure Holds (store : Store) (name : String) (items : Array Int32) : Prop where
  free : store.symbols.find? name = none
  find?_eq : store.scratch.find? name = some items

/-- The store with other elements in a variable. -/
def changed (store : Store) (name : String) (change : Array Int32 → Array Int32) : Store :=
  { store with scratch := store.scratch.update name change }

theorem writing_of_free {α : Type} {act : Write α} (h : store.symbols.find? a = none) :
    writing a act store = act store := by
  rw [writing, Symbols.declares, h]
  rfl

theorem free_of_writing {α : Type} {act : Write α} {result : α}
    (h : writing a act store = .ok result later) : store.symbols.find? a = none := by
  cases hfind : store.symbols.find? a with
  | none => rfl
  | some symbol =>
    rw [writing, Symbols.declares, hfind] at h
    cases h

namespace Holds

theorem items_eq (h : store.Holds a items) : store.items a = .ok items := by
  rw [Store.items, h.find?_eq]

theorem lookup_eq (h : store.Holds a items) : store.lookup a = .ok (.inr items) := by
  rw [lookup, h.free]
  dsimp only
  rw [h.items_eq]
  rfl

theorem read_eq (h : store.Holds a #[n]) : store.read a = .ok n := by
  rw [Store.read, h.lookup_eq]
  rfl

theorem readElement_eq (h : store.Holds a items) (hslot : slot a index items.size = .ok k) :
    store.readElement a index = .ok (items.getD k 0) := by
  rw [Store.readElement, h.lookup_eq]
  change elementOf a items index = _
  rw [elementOf, hslot]
  rfl

theorem increment_eq (h : store.Holds a #[n]) :
    increment a delta store = .ok (n, n + delta) (store.changed a fun _ => #[n + delta]) := by
  rw [increment, writing_of_free h.free]
  simp only [bind, EStateM.bind, reading, h.items_eq]
  rfl

theorem incrementElement_eq (h : store.Holds a items)
    (hslot : slot a index items.size = .ok k) :
    incrementElement a index delta store =
      .ok (items.getD k 0, items.getD k 0 + delta)
        (store.changed a fun items' => items'.setIfInBounds k (items.getD k 0 + delta)) := by
  rw [incrementElement, writing_of_free h.free]
  simp only [bind, EStateM.bind, reading, h.items_eq, hslot]
  rfl

/-- An element that is there is replaced, and no zeros are added. -/
theorem changed_place (h : store.Holds a items) (hascending : Variables.Ascending store.scratch)
    (hk : k < items.size) (n : Int32) :
    store.changed a (place k n) = store.changed a fun items' => items'.setIfInBounds k n := by
  have hzeros : k + 1 - items.size = 0 := by omega
  have hplace : place k n items = items.setIfInBounds k n := by
    rw [place, hzeros, Array.replicate_zero, Array.append_empty]
  have hupdate : store.scratch.update a (place k n) =
      store.scratch.update a fun items' => items'.setIfInBounds k n :=
    hascending.update_congr h.find?_eq hplace
  rw [changed, changed, hupdate]

end Holds

/-- A step succeeds on a variable that is a single number. -/
theorem exists_holds_of_increment (h : increment a delta store = .ok found later) :
    ∃ n, store.Holds a #[n] := by
  have hfree := free_of_writing h
  rw [increment, writing_of_free hfree] at h
  cases hfind : store.scratch.find? a with
  | none =>
    simp only [bind, EStateM.bind, reading, items, hfind] at h
    cases h
  | some items =>
    simp only [bind, EStateM.bind, reading, Store.items, hfind] at h
    split at h
    case isTrue hsize =>
      obtain ⟨n, rfl⟩ := Array.size_eq_one_iff.mp hsize
      exact ⟨n, hfree, hfind⟩
    case isFalse => cases h

/-- A step succeeds on an element that is there. -/
theorem exists_holds_of_incrementElement
    (h : incrementElement a index delta store = .ok found later) :
    ∃ items k, store.Holds a items ∧ slot a index items.size = .ok k := by
  have hfree := free_of_writing h
  rw [incrementElement, writing_of_free hfree] at h
  cases hfind : store.scratch.find? a with
  | none =>
    simp only [bind, EStateM.bind, reading, items, hfind] at h
    cases h
  | some items =>
    cases hslot : slot a index items.size with
    | ok k => exact ⟨items, k, ⟨hfree, hfind⟩, hslot⟩
    | error fault =>
      simp only [bind, EStateM.bind, reading, Store.items, hfind, hslot] at h
      cases h

theorem assign_eq (h : store.symbols.find? a = none) (n : Int32) :
    assign a n store = .ok () (store.changed a fun _ => #[n]) := by
  rw [assign, writing_of_free h]
  rfl

theorem assignElement_of_slot (h : store.symbols.find? a = none)
    (hslot : slot a index maxVariableLength = .ok k) (n : Int32) :
    assignElement a index n store = .ok () (store.changed a (place k n)) := by
  rw [assignElement, writing_of_free h]
  simp only [bind, EStateM.bind, reading, hslot]
  rfl

theorem assignElement_of_le (h : store.symbols.find? a = none)
    (hle : maxVariableLength ≤ index.toInt) (n : Int32) :
    assignElement a index n store =
      .error (.shape ⟨.outOfRange, [.ofInt index.toInt, a.toList]⟩) store := by
  rw [assignElement, writing_of_free h]
  simp only [bind, EStateM.bind, reading, slot_of_le hle]

end Store

/-- The operation by which a step gets from a number to the next. -/
def UnaryOp.stepsBy? : UnaryOp → Option BinaryOp
  | preIncrement | postIncrement => some .add
  | preDecrement | postDecrement => some .subtract
  | _ => none

namespace Run

variable {α β : Type} {state later : RunState}

theorem bind_eq_ok {act : Run α} {next : α → Run β} {b : β}
    (h : (act >>= next) state = .ok b later) :
    ∃ a between, act state = .ok a between ∧ next a between = .ok b later := by
  cases hact : act state with
  | ok a between =>
    rw [bind_ok hact] at h
    exact ⟨a, between, rfl, h⟩
  | error fault between =>
    rw [bind_error hact] at h
    cases h

theorem value_ok {act : Run Yield} {yielded : Yield} (h : act state = .ok yielded later) :
    value act state = .ok yielded.value later := by
  rw [value, bind_ok h]
  rfl

theorem read_ok {get : Store → Except Fault α} {a : α} (h : get state.store = .ok a) :
    read get state = .ok a state := by
  rw [read, h]

theorem write_eq_ok {act : Write α} {a : α} (h : write act state = .ok a later) :
    ∃ store, act state.store = .ok a store ∧ later = ⟨store, state.signals⟩ := by
  obtain ⟨store, signals⟩ := state
  cases hact : act store with
  | ok a' store' =>
    rw [write_ok signals hact] at h
    cases h
    exact ⟨store', rfl, rfl⟩
  | error fault store' =>
    rw [write_error signals hact] at h
    cases h

end Run

namespace Tree

open Run

variable {op : UnaryOp} {operation : BinaryOp} {index target : Tree} {ceiling : Nat} {a : String}
  {i n : Int32} {yielded : Yield} {state later : RunState}

/-- The assignment that a step abbreviates. -/
def longhand (operation : BinaryOp) (target : Tree) : Tree :=
  binary .assign target (binary operation target (number 1))

/-- A step adds what its operation, with one on the right, adds to every number. -/
theorem exists_delta (h : op.stepsBy? = some operation) (target : Tree) (ceiling : Nat) :
    operation ≠ .assign ∧ ∃ delta : Int32, (∀ n, operation.apply? n 1 = some (n + delta)) ∧
      ∃ report : Int32 × Int32 → Yield, (unary op target).run ceiling =
        (do return report (← runStep ceiling delta target)) := by
  cases op with
  | preIncrement =>
    obtain rfl := Option.some.inj h
    exact ⟨nofun, 1, fun _ => rfl, fun found => .counted found.2, rfl⟩
  | postIncrement =>
    obtain rfl := Option.some.inj h
    exact ⟨nofun, 1, fun _ => rfl, fun found => .counted found.1, rfl⟩
  | preDecrement =>
    obtain rfl := Option.some.inj h
    exact ⟨nofun, -1, fun n => congrArg some (Int32.sub_eq_add_neg n 1),
      fun found => .counted found.2, rfl⟩
  | postDecrement =>
    obtain rfl := Option.some.inj h
    exact ⟨nofun, -1, fun n => congrArg some (Int32.sub_eq_add_neg n 1),
      fun found => .counted found.1, rfl⟩
  | _ => cases h

theorem run_next (hop : operation ≠ .assign) {delta : Int32}
    (hdelta : ∀ n, operation.apply? n 1 = some (n + delta))
    (h : target.run ceiling state = .ok (.counted n) state) :
    (binary operation target (number 1)).run ceiling state = .ok (.counted (n + delta)) state := by
  have hone : (number 1).run ceiling state = .ok (.counted 1) state := rfl
  rw [run_binary hop, bind_ok (value_ok h), bind_ok (value_ok hone)]
  simp only [Yield.counted, hdelta]
  rfl

/-- Where a step succeeds on a variable, so does the assignment. -/
theorem run_longhand_name (h : op.stepsBy? = some operation)
    (hrun : (unary op (name a)).run ceiling state = .ok yielded later) :
    ∃ value, (longhand operation (name a)).run ceiling state = .ok (.silent value) later := by
  obtain ⟨hop, delta, hdelta, report, heq⟩ := exists_delta h (name a) ceiling
  rw [heq] at hrun
  obtain ⟨found, between, hstep, hreport⟩ := bind_eq_ok hrun
  cases hreport
  obtain ⟨store, hincrement, rfl⟩ := write_eq_ok hstep
  obtain ⟨n, hholds⟩ := Store.exists_holds_of_increment hincrement
  rw [hholds.increment_eq] at hincrement
  obtain ⟨-, rfl⟩ := EStateM.Result.ok.inj hincrement
  have hread : (name a).run ceiling state = .ok (.counted n) state := by
    unfold run
    rw [bind_ok (read_ok hholds.read_eq)]
    rfl
  have hnext := run_next hop hdelta hread
  have hsource : ∀ y, binary operation (name a) (number 1) ≠ name y := by
    intro y heq
    cases heq
  refine ⟨n + delta, ?_⟩
  rw [longhand, run_assign_name hsource, bind_ok (value_ok hnext),
    bind_ok (write_ok _ (Store.assign_eq hholds.free _))]
  rfl

theorem runStep_element (hindex : value (index.run ceiling) state = .ok i state)
    {items : Array Int32} {k : Nat} (hholds : state.store.Holds a items)
    (hslot : slot a i items.size = .ok k) (delta : Int32) :
    runStep ceiling delta (element a index) state =
      .ok (items.getD k 0, items.getD k 0 + delta)
        ⟨state.store.changed a fun items' => items'.setIfInBounds k (items.getD k 0 + delta),
          state.signals⟩ := by
  unfold runStep
  rw [bind_ok hindex]
  exact write_ok state.signals (hholds.incrementElement_eq hslot)

/-- So it does on an element, unless the index is too large for an assignment. -/
theorem run_longhand_element (h : op.stepsBy? = some operation)
    (hindex : value (index.run ceiling) state = .ok i state)
    (hrun : (unary op (element a index)).run ceiling state = .ok yielded later)
    (harises : state.Arises) :
    if i.toInt < maxVariableLength then
      ∃ value, (longhand operation (element a index)).run ceiling state = .ok (.silent value) later
    else
      (longhand operation (element a index)).run ceiling state =
        .error (.shape ⟨.outOfRange, [.ofInt i.toInt, a.toList]⟩) state := by
  obtain ⟨hop, delta, hdelta, report, heq⟩ := exists_delta h (element a index) ceiling
  rw [heq] at hrun
  obtain ⟨found, between, hstep, hreport⟩ := bind_eq_ok hrun
  cases hreport
  have hwrite := hstep
  unfold runStep at hwrite
  rw [bind_ok hindex] at hwrite
  obtain ⟨store, hincrement, -⟩ := write_eq_ok hwrite
  obtain ⟨items, k, hholds, hslot⟩ := Store.exists_holds_of_incrementElement hincrement
  obtain ⟨-, hk, hsize⟩ := slot_eq_ok hslot
  rw [runStep_element hindex hholds hslot] at hstep
  obtain ⟨-, rfl⟩ := EStateM.Result.ok.inj hstep
  have hread : (element a index).run ceiling state = .ok (.counted (items.getD k 0)) state := by
    unfold run
    rw [bind_ok hindex, bind_ok (read_ok (hholds.readElement_eq hslot))]
    rfl
  have hnext := run_next hop hdelta hread
  have hassign : (longhand operation (element a index)).run ceiling state =
      (do
        write (Store.assignElement a i (items.getD k 0 + delta))
        return Yield.silent (items.getD k 0 + delta) : Run Yield) state := by
    rw [longhand, run, bind_ok hindex, bind_ok (value_ok hnext)]
    rfl
  rw [hassign]
  split
  case isTrue hlt =>
    have hslot' : slot a i maxVariableLength = .ok k := slot_of_lt hslot (by omega)
    rw [bind_ok (write_ok _ (Store.assignElement_of_slot hholds.free hslot' _)),
      hholds.changed_place harises.ascending hsize]
    exact ⟨_, rfl⟩
  case isFalse hle =>
    exact bind_error (write_error _ (Store.assignElement_of_le hholds.free (by omega) _))

/-- A step succeeds on every element that is there. -/
theorem run_step_element (h : op.stepsBy? = some operation)
    (hindex : value (index.run ceiling) state = .ok i state) {items : Array Int32} {k : Nat}
    (hholds : state.store.Holds a items) (hslot : slot a i items.size = .ok k) :
    ∃ yielded later, (unary op (element a index)).run ceiling state = .ok yielded later := by
  obtain ⟨-, delta, -, report, heq⟩ := exists_delta h (element a index) ceiling
  rw [heq, bind_ok (runStep_element hindex hholds hslot delta)]
  exact ⟨_, _, rfl⟩

/-- In every state of a run, where a step succeeds, the assignment that it abbreviates succeeds
and leaves the same state, except at an index which no assignment reaches. -/
theorem run_longhand_of_step (harises : state.Arises) (h : op.stepsBy? = some operation)
    (ceiling : Nat) (a : String) :
    (∀ yielded later, (unary op (name a)).run ceiling state = .ok yielded later →
      ∃ value, (longhand operation (name a)).run ceiling state = .ok (.silent value) later) ∧
    ∀ index i yielded later, value (index.run ceiling) state = .ok i state →
      (unary op (element a index)).run ceiling state = .ok yielded later →
      if i.toInt < maxVariableLength then
        ∃ value,
          (longhand operation (element a index)).run ceiling state = .ok (.silent value) later
      else
        (longhand operation (element a index)).run ceiling state =
          .error (.shape ⟨.outOfRange, [.ofInt i.toInt, a.toList]⟩) state :=
  ⟨fun _ _ hrun => run_longhand_name h hrun,
    fun _ _ _ _ hindex hrun => run_longhand_element h hindex hrun harises⟩

/-- Past the largest number a step goes on with the least one, and the assignment with it. -/
theorem run_longhand_largest :
    (∃ value, (longhand .add (name "x")).run 1 ⟨⟨.empty, [("x", #[2147483647])]⟩, .none⟩ =
      .ok (.silent value) ⟨⟨.empty, [("x", #[-2147483648])]⟩, .none⟩) ∧
    ∃ value, (longhand .subtract (element "x" (number 0))).run 1
        ⟨⟨.empty, [("x", #[2147483647])]⟩, .none⟩ =
      .ok (.silent value) ⟨⟨.empty, [("x", #[2147483646])]⟩, .none⟩ := by
  have hassign : (binary .assign (name "x") (number 2147483647)).run 1 ⟨⟨.empty, []⟩, .none⟩ =
      .ok (.silent 2147483647) ⟨⟨.empty, [("x", #[2147483647])]⟩, .none⟩ := rfl
  have harises := (RunState.Arises.start .empty).run hassign
  have hplus : UnaryOp.preIncrement.stepsBy? = some .add := rfl
  have hminus : UnaryOp.postDecrement.stepsBy? = some .subtract := rfl
  have hadd := (run_longhand_of_step harises hplus 1 "x").1 (.counted (-2147483648))
    ⟨⟨.empty, [("x", #[-2147483648])]⟩, .none⟩ rfl
  have hsubtract := (run_longhand_of_step harises hminus 1 "x").2 (number 0) 0
    (.counted 2147483647) ⟨⟨.empty, [("x", #[2147483646])]⟩, .none⟩ rfl rfl
  rw [if_pos (by decide)] at hsubtract
  exact ⟨hadd, hsubtract⟩

/-- More elements than a variable can grow to. -/
def longItems : Array Int32 := Array.replicate 65537 0

/-- The symbol `v` with these elements. -/
def longSymbols : Symbols := Symbols.empty.insert ⟨⟨"v", "", .vector⟩, some (.vector longItems)⟩

/-- A step succeeds on the last element of a copy of a long vector, and the assignment fails. -/
theorem not_run_longhand_of_step :
    ¬ ∀ state : RunState, state.Arises → ∀ (ceiling : Nat) (a : String) (i : Int32),
      (∃ yielded later,
        (unary .preIncrement (element a (number i))).run ceiling state = .ok yielded later) →
      ∃ yielded later,
        (longhand .add (element a (number i))).run ceiling state = .ok yielded later := by
  intro hall
  have hcopy : (binary .assign (name "x") (name "v")).run 1 ⟨⟨longSymbols, []⟩, .none⟩ =
      .ok (.silent (longItems.getD 0 0)) ⟨⟨longSymbols, [("x", longItems)]⟩, .none⟩ := rfl
  have harises := (RunState.Arises.start longSymbols).run hcopy
  have hholds : Store.Holds ⟨longSymbols, [("x", longItems)]⟩ "x" longItems := ⟨rfl, rfl⟩
  have hslot : slot "x" 65536 longItems.size = .ok 65536 := by
    rw [longItems, Array.size_replicate]
    rfl
  have hindex : value ((number 65536).run 1) ⟨⟨longSymbols, [("x", longItems)]⟩, .none⟩ =
      .ok 65536 ⟨⟨longSymbols, [("x", longItems)]⟩, .none⟩ := rfl
  have hplus : UnaryOp.preIncrement.stepsBy? = some .add := rfl
  obtain ⟨yielded, later, hstep⟩ := run_step_element hplus hindex hholds hslot
  have hlonghand := run_longhand_element hplus hindex hstep harises
  obtain ⟨yielded', later', hassign⟩ := hall _ harises 1 "x" 65536 ⟨_, _, hstep⟩
  rw [if_neg (by decide), hassign] at hlonghand
  cases hlonghand

end Tree

end RuleLang

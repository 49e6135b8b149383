import RuleLang.Proofs.Lockstep

/-!
The states that arise while a script runs. A run begins with the symbols of the host and without
variables, and gets from one state to the next by a step. In all states on its way the variables
stand in ascending order of their names. A variable is therefore changed where it is found, and
two changes that make the same of its elements leave the same table.
-/
namespace RuleLang

namespace Variables

variable {table : Variables} {name : String}

/-- The names ascend, and so no name comes twice. -/
def Ascending (table : Variables) : Prop :=
  table.Pairwise fun entry later => entry.1 < later.1

theorem mem_update {change : Array Int32 → Array Int32} {entry : String × Array Int32}
    (h : entry ∈ table.update name change) :
    entry.1 = name ∨ ∃ old ∈ table, old.1 = entry.1 := by
  induction table with
  | nil =>
    rw [update, List.mem_singleton] at h
    exact .inl (congrArg Prod.fst h)
  | cons first others ih =>
    obtain ⟨x, items⟩ := first
    unfold update at h
    split at h
    · rcases List.mem_cons.mp h with heq | hmem
      · exact .inl (congrArg Prod.fst heq)
      · exact .inr ⟨entry, hmem, rfl⟩
    · split at h
      · rcases List.mem_cons.mp h with heq | hmem
        · exact .inr ⟨(x, items), List.mem_cons_self, (congrArg Prod.fst heq).symm⟩
        · exact .inr ⟨entry, List.mem_cons_of_mem _ hmem, rfl⟩
      · rcases List.mem_cons.mp h with heq | hmem
        · exact .inr ⟨(x, items), List.mem_cons_self, (congrArg Prod.fst heq).symm⟩
        · rcases ih hmem with hname | ⟨old, hold, hentry⟩
          · exact .inl hname
          · exact .inr ⟨old, List.mem_cons_of_mem _ hold, hentry⟩

theorem Ascending.update (h : table.Ascending) (name : String)
    (change : Array Int32 → Array Int32) : (table.update name change).Ascending := by
  induction table with
  | nil => exact List.pairwise_singleton _ _
  | cons first others ih =>
    obtain ⟨x, items⟩ := first
    obtain ⟨hfirst, hothers⟩ := List.pairwise_cons.mp h
    unfold Variables.update
    split
    case isTrue hlt =>
      refine List.pairwise_cons.mpr ⟨?_, h⟩
      intro entry hentry
      rcases List.mem_cons.mp hentry with rfl | hmem
      · exact hlt
      · exact String.lt_trans hlt (hfirst entry hmem)
    case isFalse hnot =>
      split
      case isTrue => exact List.pairwise_cons.mpr ⟨hfirst, hothers⟩
      case isFalse hne =>
        refine List.pairwise_cons.mpr ⟨?_, ih hothers⟩
        intro entry hentry
        rcases mem_update hentry with hname | ⟨old, hold, heq⟩
        · rw [hname]
          exact lt_of_le_of_ne (not_lt.mp hnot) hne
        · rw [← heq]
          exact hfirst old hold

theorem find?_eq_none_of_lt (h : ∀ entry ∈ table, name < entry.1) :
    table.find? name = none := by
  induction table with
  | nil => rfl
  | cons first others ih =>
    obtain ⟨x, items⟩ := first
    obtain ⟨hx, hothers⟩ := List.forall_mem_cons.mp h
    rw [find?, if_neg (ne_of_gt hx), ih hothers]

theorem Ascending.find?_eq_none_of_lt_head {x : String} {items : Array Int32} {others : Variables}
    (h : Ascending ((x, items) :: others)) (hlt : name < x) :
    find? ((x, items) :: others) name = none := by
  obtain ⟨hfirst, -⟩ := List.pairwise_cons.mp h
  refine find?_eq_none_of_lt fun entry hentry => ?_
  rcases List.mem_cons.mp hentry with rfl | hmem
  · exact hlt
  · exact String.lt_trans hlt (hfirst entry hmem)

theorem Ascending.find?_of_mem (h : table.Ascending) {entry : String × Array Int32}
    (hmem : entry ∈ table) : table.find? entry.1 = some entry.2 := by
  induction table with
  | nil => cases hmem
  | cons first others ih =>
    obtain ⟨hfirst, hothers⟩ := List.pairwise_cons.mp h
    rcases List.mem_cons.mp hmem with rfl | hmem
    · exact if_pos rfl
    · rw [find?, if_neg (ne_of_lt (hfirst _ hmem)), ih hothers hmem]

theorem Ascending.find?_update_self (h : table.Ascending) (name : String)
    (change : Array Int32 → Array Int32) :
    (table.update name change).find? name = some (change ((table.find? name).getD #[])) := by
  induction table with
  | nil => simp [Variables.update, find?]
  | cons first others ih =>
    obtain ⟨x, items⟩ := first
    obtain ⟨-, hothers⟩ := List.pairwise_cons.mp h
    unfold Variables.update
    split
    case isTrue hlt =>
      rw [h.find?_eq_none_of_lt_head hlt]
      simp [find?]
    case isFalse =>
      split
      case isTrue hx => simp [find?, hx]
      case isFalse hx => simp only [find?, if_neg hx, ih hothers]

/-- A variable is changed where it is found. -/
theorem Ascending.update_congr (h : table.Ascending) {items : Array Int32}
    (hfind : table.find? name = some items) {change change' : Array Int32 → Array Int32}
    (hchange : change items = change' items) :
    table.update name change = table.update name change' := by
  induction table with
  | nil => cases hfind
  | cons first others ih =>
    obtain ⟨x, old⟩ := first
    obtain ⟨-, hothers⟩ := List.pairwise_cons.mp h
    by_cases hx : x = name
    · rw [find?, if_pos hx] at hfind
      obtain rfl := Option.some.inj hfind
      subst hx
      simp [Variables.update, hchange]
    · have hlt : ¬ name < x := by
        intro hlt
        rw [h.find?_eq_none_of_lt_head hlt] at hfind
        cases hfind
      rw [find?, if_neg hx] at hfind
      simp [Variables.update, hlt, hx, ih hothers hfind]

end Variables

/-- The states of a run: one step after another from a state without variables and signals. -/
inductive RunState.Arises : RunState → Prop
  | start (symbols : Symbols) : Arises ⟨⟨symbols, []⟩, .none⟩
  | ok {α : Type} {act : Run α} {a : α} {state later : RunState} (h : Arises state)
      (hstep : Run.IsStep act) (hact : act state = .ok a later) : Arises later
  | error {α : Type} {act : Run α} {fault : Fault} {state later : RunState} (h : Arises state)
      (hstep : Run.IsStep act) (hact : act state = .error fault later) : Arises later

namespace Tree

open Run

/-- Every run of a tree goes through such states, from one of them to another. -/
theorem respects_arises (ceiling : Nat) (tree : Tree) :
    Respects (fun state state' => state = state' ∧ state.Arises) (tree.run ceiling) := by
  have hcongruence : Congruence fun _ act _ =>
      Respects (fun state state' : RunState => state = state' ∧ state.Arises) act := by
    refine ⟨respects_return, Respects.bind, ?_⟩
    rintro α act hstep state _ ⟨rfl, hstate⟩
    cases hact : act state with
    | ok a later => exact .ok a ⟨rfl, hstate.ok hstep hact⟩
    | error fault later => exact .error fault ⟨rfl, hstate.error hstep hact⟩
  refine (congr_run_and_index hcongruence (Nat.le_refl ceiling) ?_ tree).1
  exact fun _ _ => respects_throw _

end Tree

theorem RunState.Arises.run {state later : RunState} (h : state.Arises) {ceiling : Nat} {tree : Tree}
    {yielded : Yield} (hrun : tree.run ceiling state = .ok yielded later) : later.Arises := by
  have halike := tree.respects_arises ceiling state state ⟨rfl, h⟩
  rw [hrun] at halike
  cases halike with
  | ok _ hlater => exact hlater.2

namespace Store

theorem lockstep_ascending :
    Lockstep fun store store' => store = store' ∧ Variables.Ascending store.scratch where
  find?_eq hstore name := by rw [hstore.1]
  items_eq hstore name := by rw [hstore.1]
  update hstore name change _ := by
    obtain ⟨rfl, hascending⟩ := hstore
    exact ⟨rfl, hascending.update name change⟩

end Store

theorem RunState.Arises.ascending {state : RunState} (h : state.Arises) :
    Variables.Ascending state.store.scratch := by
  induction h with
  | start => exact List.Pairwise.nil
  | ok _ hstep hact ih =>
    have hlater := hstep.keeps Store.lockstep_ascending.compatible ih
    rwa [Run.after, hact] at hlater
  | error _ hstep hact ih =>
    have hlater := hstep.keeps Store.lockstep_ascending.compatible ih
    rwa [Run.after, hact] at hlater

end RuleLang

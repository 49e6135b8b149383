import Mathlib
import RuleLang.Store.Symbols

/-!
The symbol table with its index. The index is right if it gives just the places at which the
entries stand. Then no name is declared twice, and looking a name up finds the entry of that name.
Each change of the table keeps the index right, and is described by the names in their order and
by what is found under a name afterwards.
-/
namespace RuleLang.Symbols

variable {symbols : Symbols}

/-- The declared names in the order of the entries. -/
def names (symbols : Symbols) : List String := symbols.entries.toList.map (·.name)

/-- The index gives a place for a name just if the entry at that place has the name. It stores
nothing besides the places that it gives. -/
structure Indexed (symbols : Symbols) : Prop where
  place?_iff : ∀ name place, symbols.place? name = some place ↔
    symbols.entries[place]?.map (·.name) = some name
  stored : ∀ name place, (name, place) ∈ symbols.index → symbols.place? name = some place

theorem names_getElem? (symbols : Symbols) (place : Nat) :
    symbols.names[place]? = symbols.entries[place]?.map (·.name) := by
  simp [names]

theorem mem_names {name : String} :
    name ∈ symbols.names ↔ ∃ symbol ∈ symbols.entries, symbol.name = name := by
  simp [names]

theorem indexed_empty : empty.Indexed where
  place?_iff name place := by simp [empty, place?]
  stored name place hmem := by cases hmem

/-- The index stays right if it stays the same and no entry changes its name. -/
theorem Indexed.congr {symbols' : Symbols} (h : symbols.Indexed)
    (hindex : symbols'.index = symbols.index) (hnames : symbols'.names = symbols.names) :
    symbols'.Indexed where
  place?_iff name place := by
    rw [← names_getElem?, hnames, names_getElem?, place?, hindex]
    exact h.place?_iff name place
  stored name place hmem := by
    rw [hindex] at hmem
    rw [place?, hindex]
    exact h.stored name place hmem

namespace Indexed

variable (h : symbols.Indexed)

include h

theorem entry_of_place {name : String} {place : Nat} (hplace : symbols.place? name = some place) :
    ∃ symbol, symbols.entries[place]? = some symbol ∧ symbol.name = name := by
  simpa using (h.place?_iff name place).mp hplace

/-- The index stores exactly the places of the entries. -/
theorem mem_index_iff (name : String) (place : Nat) :
    (name, place) ∈ symbols.index ↔ symbols.entries[place]?.map (·.name) = some name := by
  rw [← h.place?_iff]
  constructor
  · exact h.stored name place
  · intro hplace
    obtain ⟨before, after, heq, -⟩ := List.lookup_eq_some_iff.mp hplace
    rw [heq]
    exact List.mem_append_right _ List.mem_cons_self

/-- A name that stood at two places would have two places in the index. -/
theorem names_nodup : symbols.names.Nodup := by
  rw [List.nodup_iff_getElem?_ne_getElem?]
  intro i j hij hj heq
  have hj := List.getElem?_eq_getElem hj
  have hplace_j := (h.place?_iff _ j).mpr ((names_getElem? symbols j).symm.trans hj)
  have hplace_i := (h.place?_iff _ i).mpr ((names_getElem? symbols i).symm.trans (heq.trans hj))
  rw [hplace_i, Option.some.injEq] at hplace_j
  omega

theorem find?_eq_some_iff {name : String} {symbol : Symbol} :
    symbols.find? name = some symbol ↔ symbol ∈ symbols.entries ∧ symbol.name = name := by
  constructor
  · intro hfind
    obtain ⟨place, hplace, hentry⟩ := Option.bind_eq_some_iff.mp hfind
    have hname := (h.place?_iff name place).mp hplace
    rw [hentry] at hname
    exact ⟨Array.mem_of_getElem? hentry, Option.some.inj hname⟩
  · rintro ⟨hmem, rfl⟩
    obtain ⟨place, hentry⟩ := Array.getElem?_of_mem hmem
    have hplace : symbols.place? symbol.name = some place :=
      (h.place?_iff _ _).mpr (by rw [hentry]; rfl)
    exact Option.bind_eq_some_iff.mpr ⟨place, hplace, hentry⟩

theorem find?_eq_none_iff {name : String} : symbols.find? name = none ↔ name ∉ symbols.names := by
  rw [mem_names, Option.eq_none_iff_forall_ne_some]
  constructor
  · rintro hnone ⟨symbol, hmem, hname⟩
    exact hnone symbol (h.find?_eq_some_iff.mpr ⟨hmem, hname⟩)
  · intro hfree symbol hfind
    exact hfree ⟨symbol, h.find?_eq_some_iff.mp hfind⟩

theorem place?_eq_none_iff {name : String} :
    symbols.place? name = none ↔ name ∉ symbols.names := by
  rw [← h.find?_eq_none_iff]
  constructor
  · intro hnone
    rw [find?, hnone]
    rfl
  · intro hnone
    by_contra hsome
    obtain ⟨place, hplace⟩ := Option.ne_none_iff_exists'.mp hsome
    obtain ⟨symbol, hentry, -⟩ := h.entry_of_place hplace
    rw [find?, hplace] at hnone
    exact Option.some_ne_none symbol (hentry.symm.trans hnone)

/-- The entries can be read off the names, by looking each of them up. -/
theorem entries_eq : symbols.entries.toList = symbols.names.filterMap symbols.find? := by
  rw [names, List.filterMap_map]
  have hfind : ∀ symbol ∈ symbols.entries.toList,
      (symbols.find? ∘ fun symbol => symbol.name) symbol = some symbol := fun symbol hmem =>
    h.find?_eq_some_iff.mpr ⟨Array.mem_def.mpr hmem, rfl⟩
  rw [List.filterMap_congr hfind, List.filterMap_some]

/-- What is found under a name is known from the entries. -/
theorem find?_congr {symbols' : Symbols} (h' : symbols'.Indexed)
    (hentries : symbols.entries = symbols'.entries) (name : String) :
    symbols.find? name = symbols'.find? name := by
  ext symbol
  rw [h.find?_eq_some_iff, h'.find?_eq_some_iff, hentries]

end Indexed

theorem modify_of_place {name : String} {place : Nat} (hplace : symbols.place? name = some place)
    (change : Symbol → Symbol) :
    symbols.modify name change =
      { symbols with entries := symbols.entries.modify place change } := by
  rw [modify, hplace]

theorem modify_of_no_place {name : String} (hplace : symbols.place? name = none)
    (change : Symbol → Symbol) : symbols.modify name change = symbols := by
  rw [modify, hplace]

theorem index_modify (name : String) (change : Symbol → Symbol) :
    (symbols.modify name change).index = symbols.index := by
  unfold modify
  split <;> rfl

section Modify

variable (h : symbols.Indexed) {name : String} {change : Symbol → Symbol}
  (hchange : ∀ symbol, symbol.name = name → (change symbol).name = name)

include h hchange

theorem names_modify : (symbols.modify name change).names = symbols.names := by
  cases hplace : symbols.place? name with
  | none => rw [modify_of_no_place hplace]
  | some place =>
    obtain ⟨symbol, hentry, hname⟩ := h.entry_of_place hplace
    apply List.ext_getElem?
    intro i
    rw [names_getElem?, names_getElem?, modify_of_place hplace, Array.getElem?_modify]
    split
    case isFalse => rfl
    case isTrue hi =>
      rw [← hi, hentry]
      exact congrArg some ((hchange symbol hname).trans hname.symm)

theorem indexed_modify : (symbols.modify name change).Indexed :=
  h.congr (index_modify name change) (names_modify h hchange)

omit hchange in
/-- A change of the symbol of a name changes what is found under this name alone. -/
theorem find?_modify (x : String) :
    (symbols.modify name change).find? x =
      if x = name then (symbols.find? name).map change else symbols.find? x := by
  cases hplace : symbols.place? name with
  | none =>
    rw [modify_of_no_place hplace]
    split
    case isFalse => rfl
    case isTrue hx => rw [hx, find?, hplace]; rfl
  | some place =>
    obtain ⟨symbol, hentry, hname⟩ := h.entry_of_place hplace
    have hfind : (symbols.modify name change).find? x =
        (symbols.place? x).bind fun i => (symbols.entries.modify place change)[i]? := by
      rw [modify_of_place hplace]
      rfl
    rw [hfind]
    split
    case isTrue hx =>
      subst hx
      simp [find?, hplace, Array.getElem?_modify]
    case isFalse hx =>
      refine Option.bind_congr fun i hi => ?_
      obtain ⟨other, hother, hxname⟩ := h.entry_of_place hi
      rw [Array.getElem?_modify, if_neg]
      rintro rfl
      rw [hentry, Option.some.injEq] at hother
      exact hx (hxname.symm.trans ((congrArg (·.name) hother).symm.trans hname))

end Modify

/-- Declaring a name again changes its symbol. -/
theorem insert_of_mem (h : symbols.Indexed) {new : Symbol} (hmem : new.name ∈ symbols.names) :
    symbols.insert new = symbols.modify new.name fun _ => new := by
  cases hplace : symbols.place? new.name with
  | none => exact absurd hmem (h.place?_eq_none_iff.mp hplace)
  | some place =>
    rw [insert, modify, hplace]
    rfl

theorem insert_of_not_mem (h : symbols.Indexed) {new : Symbol}
    (hfree : new.name ∉ symbols.names) :
    symbols.insert new =
      ⟨symbols.entries.push new, (new.name, symbols.entries.size) :: symbols.index⟩ := by
  rw [insert, h.place?_eq_none_iff.mpr hfree]

/-- A declared name keeps its place, and a new one comes last. -/
theorem names_insert (h : symbols.Indexed) (new : Symbol) :
    (symbols.insert new).names =
      if new.name ∈ symbols.names then symbols.names else symbols.names ++ [new.name] := by
  split
  case isTrue hmem =>
    rw [insert_of_mem h hmem]
    exact names_modify h fun _ _ => rfl
  case isFalse hfree =>
    rw [insert_of_not_mem h hfree]
    simp [names]

theorem indexed_push (h : symbols.Indexed) {new : Symbol} (hfree : new.name ∉ symbols.names) :
    Indexed ⟨symbols.entries.push new, (new.name, symbols.entries.size) :: symbols.index⟩ where
  place?_iff name place := by
    have hplace := h.place?_eq_none_iff.mpr hfree
    have hold := h.place?_iff name place
    rw [place?] at hold hplace
    rw [place?, List.lookup_cons, Array.getElem?_push]
    by_cases hname : name = new.name
    · subst hname
      simp only [hplace, BEq.rfl, Option.some.injEq] at hold ⊢
      split
      case isTrue hlast => simp [hlast]
      case isFalse hlast =>
        refine iff_of_false (fun hfirst => hlast hfirst.symm) fun hentry => ?_
        cases hold.mpr hentry
    · simp only [beq_eq_false_iff_ne.mpr hname]
      split
      case isFalse => exact hold
      case isTrue hlast =>
        subst hlast
        rw [hold]
        simp [Ne.symm hname]
  stored name place hmem := by
    rcases List.mem_cons.mp hmem with hnew | hold
    · obtain ⟨rfl, rfl⟩ := Prod.mk.inj hnew
      simp [place?]
    · have hplace := h.stored name place hold
      have hname : name ≠ new.name := by
        rintro rfl
        rw [h.place?_eq_none_iff.mpr hfree] at hplace
        cases hplace
      rw [place?, List.lookup_cons, beq_eq_false_iff_ne.mpr hname]
      exact hplace

theorem indexed_insert (h : symbols.Indexed) (new : Symbol) : (symbols.insert new).Indexed := by
  by_cases hmem : new.name ∈ symbols.names
  · rw [insert_of_mem h hmem]
    exact indexed_modify h fun _ _ => rfl
  · rw [insert_of_not_mem h hmem]
    exact indexed_push h hmem

/-- Insertion changes what is found under the name of the new symbol alone. -/
theorem find?_insert (h : symbols.Indexed) (new : Symbol) (name : String) :
    (symbols.insert new).find? name = if name = new.name then some new else symbols.find? name := by
  by_cases hmem : new.name ∈ symbols.names
  · obtain ⟨old, hold⟩ := Option.ne_none_iff_exists'.mp (h.find?_eq_none_iff.not_left.mpr hmem)
    rw [insert_of_mem h hmem, find?_modify h, hold]
    rfl
  · have hafter := indexed_insert h new
    rw [insert_of_not_mem h hmem] at hafter ⊢
    split
    case isTrue hname => exact hafter.find?_eq_some_iff.mpr ⟨Array.mem_push_self, hname.symm⟩
    case isFalse hname =>
      ext symbol
      rw [hafter.find?_eq_some_iff, h.find?_eq_some_iff, Array.mem_push]
      constructor
      · rintro ⟨hmem | rfl, rfl⟩
        · exact ⟨hmem, rfl⟩
        · exact absurd rfl hname
      · exact fun ⟨hmem, heq⟩ => ⟨.inl hmem, heq⟩

theorem names_unsetAll (symbols : Symbols) : symbols.unsetAll.names = symbols.names := by
  simp [names, unsetAll, Function.comp_def]

theorem indexed_unsetAll (h : symbols.Indexed) : symbols.unsetAll.Indexed :=
  h.congr rfl (names_unsetAll symbols)

theorem find?_unsetAll (symbols : Symbols) (name : String) :
    symbols.unsetAll.find? name =
      (symbols.find? name).map fun symbol => { symbol with value? := none } := by
  simp only [find?, place?, unsetAll, Array.getElem?_map]
  cases symbols.index.lookup name <;> rfl

end RuleLang.Symbols

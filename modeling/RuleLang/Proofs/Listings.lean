import RuleLang.Proofs.Isolation
import RuleLang.Proofs.UniqueText
import RuleLang.Proofs.Writes

/-!
What can be read off a listing. The names of the variables ascend, and so do their encodings in
bytes, since a larger character has a larger encoding whatever comes after it.

A listing tells the values too. In a written list every part ends before a comma or a bracket that
is not its own, so one part after the other can be read off the text, and a value is known from its
text and its shape. The shape is needed, as an empty vector and an empty matrix are written alike.
-/
namespace RuleLang

/-- The encoding in UTF-8. -/
def nameBytes (name : String) : List UInt8 := name.toUTF8.data.toList

theorem nameBytes_eq (name : String) :
    nameBytes name = name.toList.flatMap String.utf8EncodeChar := by
  rw [nameBytes, String.toUTF8_eq_toByteArray, ← String.ofList_toList (s := name),
    String.toByteArray_ofList, List.utf8Encode, List.data_toByteArray, String.toList_ofList]

theorem cons_ofNat_lt {j k : Nat} (hj : j < 256) (hk : k < 256) {front back : List UInt8} :
    UInt8.ofNat j :: front < UInt8.ofNat k :: back ↔ j < k ∨ j = k ∧ front < back := by
  rw [List.cons_lt_cons_iff, UInt8.lt_iff_toNat_lt, ← UInt8.toNat_inj,
    UInt8.toNat_ofNat_of_lt' hj, UInt8.toNat_ofNat_of_lt' hk]

/-- Numbers are compared by their four digits to the base 64, the leading ones first. -/
theorem digits_lt {m n : Nat} (h : m < n) :
    m / 262144 < n / 262144 ∨ m / 262144 = n / 262144 ∧
      (m / 4096 % 64 < n / 4096 % 64 ∨ m / 4096 % 64 = n / 4096 % 64 ∧
        (m / 64 % 64 < n / 64 % 64 ∨ m / 64 % 64 = n / 64 % 64 ∧ m % 64 < n % 64)) := by
  have hdigit {j k : Nat} (h : j < k) : j / 64 < k / 64 ∨ j / 64 = k / 64 ∧ j % 64 < k % 64 := by
    omega
  have hthird (h : m / 64 < n / 64) := hdigit h
  have hsecond (h : m / 4096 < n / 4096) := hdigit h
  simp only [Nat.div_div_eq_div_mul, Nat.reduceMul] at hthird hsecond
  rcases hdigit h with hlast | ⟨heq, hlast⟩
  · rcases hthird hlast with hthird | ⟨heq, hthird⟩
    · rcases hsecond hthird with hfirst | ⟨heq, hsecond⟩
      · exact .inl hfirst
      · exact .inr ⟨heq, .inl hsecond⟩
    · exact .inr ⟨by omega, .inr ⟨by omega, .inl hthird⟩⟩
  · exact .inr ⟨by omega, .inr ⟨by omega, .inr ⟨by omega, hlast⟩⟩⟩

/-- A larger character has a larger encoding, whatever comes after the two. -/
theorem utf8EncodeChar_append_lt {c d : Char} (h : c < d) (front back : List UInt8) :
    String.utf8EncodeChar c ++ front < String.utf8EncodeChar d ++ back := by
  have hlt : c.val.toNat < d.val.toNat := h
  have hd : d.val.toNat < 1114112 := by
    rcases d.valid with hlow | ⟨-, hhigh⟩ <;> omega
  rw [String.utf8EncodeChar, String.utf8EncodeChar]
  generalize c.val.toNat = m at *
  generalize d.val.toNat = n at *
  have hdigits := digits_lt hlt
  have hm : m / 262144 % 8 = m / 262144 := Nat.mod_eq_of_lt (by omega)
  have hn : n / 262144 % 8 = n / 262144 := Nat.mod_eq_of_lt (by omega)
  split_ifs
  all_goals
    simp (disch := omega) only [List.cons_append, List.nil_append, cons_ofNat_lt]
    omega

/-- Names in ascending order have ascending encodings. -/
theorem nameBytes_lt {x y : String} (h : x < y) : nameBytes x < nameBytes y := by
  rw [nameBytes_eq, nameBytes_eq]
  have hlist : x.toList < y.toList := String.lt_iff.mp h
  generalize x.toList = front at hlist
  generalize y.toList = back at hlist
  induction hlist with
  | @nil c back =>
    have hne : String.utf8EncodeChar c ≠ [] := String.utf8EncodeChar_ne_nil
    obtain ⟨byte, bytes, hbytes⟩ := List.exists_cons_of_ne_nil hne
    rw [List.flatMap_cons, hbytes]
    exact List.nil_lt_cons _ _
  | rel hlt => exact utf8EncodeChar_append_lt hlt _ _
  | cons _ ih => exact List.append_left_lt ih

namespace Value

/-- A text that can stand after a part of a list. -/
def EndsPart (tail : Text) : Prop := ∀ c ∈ tail.head?, c = ',' ∨ c = ']'

theorem endsPart_nil : EndsPart [] := nofun

/-- A way of writing the parts of a list in which a part can be read off a text that begins with
it, and in which no part is taken for the end of the list. -/
structure Separates {α : Type} (write : α → Text) : Prop where
  begins : ∀ a, ∃ c rest, write a = c :: rest ∧ c ≠ ']'
  ends : ∀ {a b : α} {tail tail' : Text}, EndsPart tail → EndsPart tail' →
    write a ++ tail = write b ++ tail' → a = b ∧ tail = tail'

/-- The parts of a list from the second on, with what comes after the list. -/
def moreOnto (tail : Text) : List Text → Text
  | [] => ']' :: tail
  | part :: parts => ',' :: ' ' :: (part ++ moreOnto tail parts)

theorem endsPart_moreOnto (tail : Text) (parts : List Text) : EndsPart (moreOnto tail parts) := by
  intro c hc
  cases parts with
  | nil => exact .inr (Option.mem_some_iff.mp hc).symm
  | cons => exact .inl (Option.mem_some_iff.mp hc).symm

theorem listText_cons_append (part : Text) (parts : List Text) (tail : Text) :
    listText (part :: parts) ++ tail = '[' :: (part ++ moreOnto tail parts) := by
  suffices hparts : [',', ' '].intercalate (part :: parts) ++ ']' :: tail =
      part ++ moreOnto tail parts by
    simp [listText, ← hparts]
  induction parts generalizing part with
  | nil => simp [moreOnto]
  | cons next parts ih =>
    rw [List.intercalate_cons_cons, List.append_assoc, ih]
    simp [moreOnto]

namespace Separates

variable {α : Type} {write : α → Text} (h : Separates write)

include h

theorem moreOnto_inj {items items' : List α} {tail tail' : Text}
    (heq : moreOnto tail (items.map write) = moreOnto tail' (items'.map write)) :
    items = items' ∧ tail = tail' := by
  induction items generalizing items' with
  | nil =>
    cases items' with
    | nil => exact ⟨rfl, (List.cons.inj heq).2⟩
    | cons => exact absurd (List.cons.inj heq).1 (by decide)
  | cons a items ih =>
    cases items' with
    | nil => exact absurd (List.cons.inj heq).1 (by decide)
    | cons b items' =>
      have hparts := (List.cons.inj (List.cons.inj heq).2).2
      obtain ⟨rfl, hrest⟩ := h.ends (endsPart_moreOnto _ _) (endsPart_moreOnto _ _) hparts
      obtain ⟨rfl, rfl⟩ := ih hrest
      exact ⟨rfl, rfl⟩

/-- A list can be read off a text that begins with it, if its parts can. -/
theorem listText_inj {items items' : List α} {tail tail' : Text}
    (heq : listText (items.map write) ++ tail = listText (items'.map write) ++ tail') :
    items = items' ∧ tail = tail' := by
  have hempty (a : α) (items : List α) (tail tail' : Text) :
      listText [] ++ tail ≠ listText (write a :: items.map write) ++ tail' := by
    obtain ⟨c, rest, hwrite, hc⟩ := h.begins a
    rw [listText_cons_append, hwrite]
    intro heq
    exact hc (List.cons.inj (List.cons.inj heq).2).1.symm
  cases items with
  | nil =>
    cases items' with
    | nil => exact ⟨rfl, List.append_cancel_left heq⟩
    | cons b items' => exact absurd heq (hempty _ _ _ _)
  | cons a items =>
    cases items' with
    | nil => exact absurd heq.symm (hempty _ _ _ _)
    | cons b items' =>
      rw [List.map_cons, List.map_cons, listText_cons_append, listText_cons_append] at heq
      obtain ⟨rfl, hrest⟩ :=
        h.ends (endsPart_moreOnto _ _) (endsPart_moreOnto _ _) (List.cons.inj heq).2
      obtain ⟨rfl, rfl⟩ := h.moreOnto_inj hrest
      exact ⟨rfl, rfl⟩

end Separates

theorem separates_number : Separates fun n : Int32 => Text.ofInt n.toInt where
  begins n := by
    obtain ⟨hne, hchars⟩ := ofInt_ne_nil n.toInt
    obtain ⟨c, rest, htext⟩ := List.exists_cons_of_ne_nil hne
    refine ⟨c, rest, htext, ?_⟩
    rintro rfl
    exact absurd (hchars ']' (by simp [htext])) (by decide)
  ends {m n} tail tail' htail htail' heq := by
    have hstops {tail : Text} (htail : EndsPart tail) :
        ∀ c ∈ tail.head?, ¬ (inWord c ∨ c = '-') := by
      intro c hc
      rcases htail c hc with rfl | rfl <;> decide
    obtain ⟨htext, rfl⟩ := Text.append_inj_of_stop (ofInt_ne_nil _).2 (ofInt_ne_nil _).2
      (hstops htail) (hstops htail') heq
    exact ⟨Int32.toInt_inj.mp (Text.ofInt_inj htext), rfl⟩

theorem separates_vector : Separates vectorText where
  begins items := ⟨'[', _, rfl, by decide⟩
  ends _ _ heq := by
    obtain ⟨hitems, rfl⟩ := separates_number.listText_inj heq
    exact ⟨Array.toList_inj.mp hitems, rfl⟩

/-- A value is known from its shape and its text. -/
theorem eq_of_shape_text {value value' : Value} (hshape : value.shape = value'.shape)
    (htext : value.text = value'.text) : value = value' := by
  cases value with
  | scalar n =>
    cases value' with
    | scalar n' => rw [Int32.toInt_inj.mp (Text.ofInt_inj htext)]
    | vector | matrix => cases hshape
  | vector items =>
    cases value' with
    | vector items' =>
      have htail : vectorText items ++ [] = vectorText items' ++ [] := congrArg (· ++ []) htext
      rw [(separates_vector.ends endsPart_nil endsPart_nil htail).1]
    | scalar | matrix => cases hshape
  | matrix rows =>
    cases value' with
    | matrix rows' =>
      have htail : listText (rows.toList.map vectorText) ++ [] =
          listText (rows'.toList.map vectorText) ++ [] := congrArg (· ++ []) htext
      rw [Array.toList_inj.mp (separates_vector.listText_inj htail).1]
    | scalar | vector => cases hshape

example : (vector #[]).text = (matrix #[]).text := rfl

end Value

/-- A symbol has no value or one of its shape. -/
def Symbol.Shaped (symbol : Symbol) : Prop := ∀ value ∈ symbol.value?, value.shape = symbol.shape

namespace Row

theorem ofSymbol_inj {symbol symbol' : Symbol} (h : symbol.Shaped) (h' : symbol'.Shaped)
    (heq : ofSymbol symbol = ofSymbol symbol') : symbol = symbol' := by
  obtain ⟨⟨name, description, shape⟩, value?⟩ := symbol
  obtain ⟨⟨name', description', shape'⟩, value?'⟩ := symbol'
  obtain ⟨rfl, rfl, hvalue, rfl⟩ := Row.mk.inj heq
  congr
  cases value? with
  | none =>
    cases value?' with
    | none => rfl
    | some => cases hvalue
  | some value =>
    cases value?' with
    | none => cases hvalue
    | some value' =>
      have htext : value.text = value'.text := String.ofList_injective (Option.some.inj hvalue)
      rw [Value.eq_of_shape_text ((h value rfl).trans (h' value' rfl).symm) htext]

/-- The value as which a variable is listed. -/
def shown (items : Array Int32) : Value :=
  match items.toList with
  | [n] => .scalar n
  | _ => .vector items

/-- A variable is listed as a symbol without a description would be. -/
theorem ofVariable_eq (name : String) (items : Array Int32) :
    ofVariable name items = ofSymbol ⟨⟨name, "", (shown items).shape⟩, some (shown items)⟩ := by
  obtain ⟨items⟩ := items
  match items with
  | [] | [_] | _ :: _ :: _ => rfl

/-- The elements of a variable that is listed as the value. -/
def elementsOf : Value → Array Int32
  | .scalar n => #[n]
  | .vector items => items
  | .matrix _ => #[]

theorem elementsOf_shown (items : Array Int32) : elementsOf (shown items) = items := by
  obtain ⟨items⟩ := items
  match items with
  | [] | [_] | _ :: _ :: _ => rfl

theorem ofVariable_inj {name name' : String} {items items' : Array Int32}
    (h : ofVariable name items = ofVariable name' items') : (name, items) = (name', items') := by
  have hshaped (name : String) (items : Array Int32) :
      Symbol.Shaped ⟨⟨name, "", (shown items).shape⟩, some (shown items)⟩ := by
    rintro value hvalue
    rw [Option.mem_some_iff.mp hvalue]
  rw [ofVariable_eq, ofVariable_eq] at h
  have hsymbols := ofSymbol_inj (hshaped name items) (hshaped name' items') h
  obtain ⟨hdeclaration, hvalue⟩ := Symbol.mk.inj hsymbols
  have hitems := congrArg elementsOf (Option.some.inj hvalue)
  rw [elementsOf_shown, elementsOf_shown] at hitems
  rw [(Declaration.mk.inj hdeclaration).1, hitems]

end Row

namespace RuleSet

variable {set set' : RuleSet}

theorem Arises.ascending (h : set.Arises) : set.store.scratch.Ascending := by
  obtain ⟨limits, calls, rfl⟩ := h
  exact afterAll_induction (P := fun later => later.store.scratch.Ascending)
    (fun call _ _ hlater => ascending_call hlater call) .nil

theorem Arises.shaped (h : set.Arises) : ∀ symbol ∈ set.store.symbols.entries, symbol.Shaped := by
  obtain ⟨limits, calls, rfl⟩ := h
  have hdescribes := Log.describes_afterAll limits calls
  exact fun symbol hmem =>
    hdescribes.shaped (hdescribes.indexed.find?_eq_some_iff.mpr ⟨hmem, rfl⟩)

theorem names_variableRows (set : RuleSet) :
    set.variableRows.map (·.name) = set.store.scratch.map (·.1) := by
  have hname (name : String) (items : Array Int32) : (Row.ofVariable name items).name = name := by
    rw [Row.ofVariable_eq]
    rfl
  simp [variableRows, hname]

theorem variableRows_inj (h : set.variableRows = set'.variableRows) :
    set.store.scratch = set'.store.scratch :=
  (List.map_inj_right fun _ _ => Row.ofVariable_inj).mp h

theorem Arises.symbolRows_inj (h : set.Arises) (h' : set'.Arises)
    (heq : set.symbolRows = set'.symbolRows) :
    set.store.symbols.entries = set'.store.symbols.entries := by
  rw [← Array.toList_inj]
  have hlength := congrArg List.length heq
  rw [symbolRows, symbolRows, List.length_map, List.length_map] at hlength
  refine List.ext_getElem hlength fun place hplace hplace' => ?_
  have hrow : set.symbolRows[place]? = set'.symbolRows[place]? := by rw [heq]
  rw [symbolRows, symbolRows, List.getElem?_map, List.getElem?_map, List.getElem?_eq_getElem hplace,
    List.getElem?_eq_getElem hplace'] at hrow
  exact Row.ofSymbol_inj (h.shaped _ (Array.mem_def.mpr (List.getElem_mem hplace)))
    (h'.shaped _ (Array.mem_def.mpr (List.getElem_mem hplace'))) (Option.some.inj hrow)

/-- The variables of a rule set are listed with the bytes of their names in strictly ascending
order. Rule sets with the same listing of variables have the same variables with the same
elements, and rule sets with the same listing of symbols have the same symbols in the same order,
with the same descriptions, shapes and values. -/
theorem listings_faithful (h : set.Arises) (h' : set'.Arises) :
    (set.variableRows.map fun row => nameBytes row.name).Pairwise (· < ·) ∧
      (set.variableRows = set'.variableRows → set.store.scratch = set'.store.scratch) ∧
      (set.symbolRows = set'.symbolRows →
        set.store.symbols.entries = set'.store.symbols.entries) := by
  refine ⟨?_, variableRows_inj, h.symbolRows_inj h'⟩
  have hnames : (set.variableRows.map (·.name)).Pairwise (· < ·) := by
    rw [names_variableRows, List.pairwise_map]
    exact h.ascending
  have hbytes := hnames.map nameBytes fun _ _ => nameBytes_lt
  rwa [List.map_map] at hbytes

/-- The symbols are the same, and so are the variables, whatever there was before. -/
theorem listings_faithful_matrix :
    let program : Program := ⟨#[.name "x", .name "n", .binary .assign 0 1], 2⟩
    let rows : Value := .matrix #[#[], #[-1, 20]]
    let set := (ofLimits .default).afterAll [.declareSymbol ⟨"m", "rows", .matrix⟩,
      .declareSymbol ⟨"n", "", .scalar⟩, .setSymbol "m" rows, .setSymbol "n" (.scalar 7),
      .evaluate (.program program), .unsetSymbol "n"]
    let set' := (ofLimits .default).afterAll [.declareSymbol ⟨"m", "", .scalar⟩,
      .declareSymbol ⟨"n", "", .scalar⟩, .declareSymbol ⟨"m", "rows", .matrix⟩,
      .setSymbol "n" (.scalar 7), .evaluate (.program program), .clearSymbolValues,
      .setSymbol "m" rows]
    set.variableRows = set'.variableRows ∧ set.symbolRows = set'.symbolRows ∧
      set.store.scratch = set'.store.scratch ∧
      set.store.symbols.entries = set'.store.symbols.entries := by
  intro program rows set set'
  have hvariables : set.variableRows = set'.variableRows := by decide +kernel
  have hsymbols : set.symbolRows = set'.symbolRows := by decide +kernel
  have h : set.Arises := ⟨.default, _, rfl⟩
  have h' : set'.Arises := ⟨.default, _, rfl⟩
  obtain ⟨-, hscratch, hentries⟩ := listings_faithful h h'
  exact ⟨hvariables, hsymbols, hscratch hvariables, hentries hsymbols⟩

end RuleSet
end RuleLang

import RuleLang.Proofs.Isolation
import RuleLang.Proofs.Phrases

/-!
The names that a symbol can have. A host declares a name just if a source that consists of the
name is read as that name, apart from four words that are names to the reader but have a meaning
of their own elsewhere in expressions. A symbol that is declared can therefore be read by rules.
-/
namespace RuleLang

theorem not_isDigit_of_isAlpha {c : Char} (h : c.isAlpha) : ¬ c.isDigit := by
  simp only [Char.isAlpha, Char.isUpper, Char.isLower, Char.isDigit, Bool.or_eq_true,
    Bool.and_eq_true, decide_eq_true_eq, UInt32.le_iff_toNat_le, ge_iff_le] at h ⊢
  have hA : 'A'.val.toNat = 65 := rfl
  have ha : 'a'.val.toNat = 97 := rfl
  have h9 : '9'.val.toNat = 57 := rfl
  omega

theorem begins_name_iff {c : Char} : (c.isAlpha || c == '_') ↔ inWord c ∧ ¬ c.isDigit := by
  constructor
  · intro h
    rw [Bool.or_eq_true, beq_iff_eq] at h
    rcases h with halpha | rfl
    · exact ⟨by simp [inWord, Char.isAlphanum, halpha], not_isDigit_of_isAlpha halpha⟩
    · decide
  · rintro ⟨hword, hdigit⟩
    simpa [inWord, Char.isAlphanum, hdigit] using hword

theorem isSymbolName_iff (name : String) :
    isSymbolName name ↔ IsIdentifier name ∧ name ∉ reservedNames := by
  unfold isSymbolName
  cases hletters : name.toList with
  | nil => exact ⟨nofun, fun h => absurd hletters h.1.nonempty⟩
  | cons c letters =>
    simp only [Bool.and_eq_true, begins_name_iff, List.all_eq_true, beq_iff_eq, Bool.not_eq_true',
      List.contains_eq_mem, decide_eq_false_iff_not]
    constructor
    · rintro ⟨⟨⟨⟨hc, hdigit⟩, hall⟩, hkeyword⟩, hfree⟩
      refine ⟨⟨?_, ?_, ?_, ?_⟩, hfree⟩
      · rw [hletters]
        exact nofun
      · rw [hletters]
        exact List.forall_mem_cons.mpr ⟨hc, hall⟩
      · simpa [hletters] using hdigit
      · rw [hletters, hkeyword]
    · rintro ⟨hname, hfree⟩
      have hall := hname.inWord
      have hdigit := hname.no_number
      have hkeyword := hname.no_keyword
      rw [hletters] at hall hdigit hkeyword
      have hcons := List.forall_mem_cons.mp hall
      exact ⟨⟨⟨⟨hcons.1, hdigit c rfl⟩, hcons.2⟩, hkeyword⟩, hfree⟩

namespace Grammar

variable {x : String}

theorem expression_name (hx : IsIdentifier x) (limit room : Nat) :
    expression limit (room + 1) x.toList x.toList = .ok (.name x) := by
  have hblank := (isPhrase_name hx).not_isBlank
  have hoperand : operand (expression limit room) (prefixed limit room x.toList) x.toList
      (x.toList ++ []) = (·, []) <$> .ok (.name x) :=
    operand_closes hx.isOperand (atom_name_closes hx closes_nil) rfl closes_nil
  rw [List.append_nil] at hoperand
  exact expression_operand hblank hoperand _

end Grammar

/-- A source that is read as a name is the name. -/
theorem Program.parse_name_iff {limit : Nat} (hlimit : 2 ≤ limit) (x : String) :
    (∃ program, parse limit x = .ok program ∧ program.tree = .block [.name x]) ↔
      IsIdentifier x := by
  constructor
  · rintro ⟨program, hparse, htree⟩
    obtain ⟨tree, hrule, rfl⟩ := parse_eq_ok hparse
    rw [tree_ofTree] at htree
    subst htree
    cases hrule.2 with
    | expression h => cases h
    | block _ hstatements =>
      cases hstatements _ List.mem_cons_self with
      | expression h =>
        cases h with
        | name hx => exact hx
  · intro hx
    obtain ⟨room, rfl⟩ := Nat.exists_eq_add_of_le' hlimit
    refine ⟨ofTree (.block [.name x]), ?_, tree_ofTree _⟩
    rw [parse_eq, (Grammar.isPhrase_name hx).rule_eq, Grammar.expression_name hx]
    rfl

/-- A symbol that has just been declared can be given any value of its shape. -/
theorem Symbols.set_insert {symbols : Symbols} (h : symbols.Indexed) (declaration : Declaration)
    {value : Value} (hshape : value.shape = declaration.shape) :
    ∃ valued, (symbols.insert ⟨declaration, none⟩).set declaration.name value = .ok valued ∧
      valued.find? declaration.name = some ⟨declaration, some value⟩ := by
  have hfind : (symbols.insert ⟨declaration, none⟩).find? declaration.name =
      some ⟨declaration, none⟩ := by
    rw [find?_insert h, if_pos rfl]
  refine ⟨(symbols.insert ⟨declaration, none⟩).modify declaration.name
    fun symbol => { symbol with value? := some value }, ?_, ?_⟩
  · rw [set, hfind]
    exact if_pos hshape
  · rw [find?_modify (indexed_insert h _), if_pos rfl, hfind]
    rfl

namespace RuleSet

variable {set : RuleSet} {name : String}

/-- A rule that is the name of a symbol with a number has this number as its value. -/
theorem evaluateSource_name (set : RuleSet) (hdepth : 2 ≤ set.limits.nestingDepth) (hname : IsIdentifier name)
    {symbol : Symbol} (hsymbol : set.store.symbols.find? name = some symbol) {v : Int32}
    (hvalue : symbol.value? = some (.scalar v)) :
    evaluateSource name set = .ok v set.cleared := by
  obtain ⟨room, hroom⟩ := Nat.exists_eq_add_of_le' hdepth
  have hphrase := evaluateSource_phrase (Grammar.isPhrase_name hname) set hroom
  rw [String.ofList_toList, Grammar.expression_name hname] at hphrase
  have hread : set.cleared.store.read name = .ok v := by
    simp only [Store.read, Store.lookup, cleared, hsymbol, Symbol.value, hvalue]
    rfl
  have heval : (Tree.name name).eval set.cleared.store = .ok (.counted v) set.cleared.store := by
    simp only [Tree.eval, bind, EStateM.bind, Store.reading, hread]
    rfl
  simp only [heval] at hphrase
  exact hphrase

/-- A name can be declared just if it is read as a name and is none of four words, and a rule
that is the name of a declared scalar has its value. -/
theorem declareSymbol_iff_parse (hset : set.Arises) (hdepth : 2 ≤ set.limits.nestingDepth)
    {limit : Nat} (hlimit : 2 ≤ limit) (declaration : Declaration) :
    ((∃ later, declareSymbol declaration set = .ok () later) ↔
      (∃ program, Program.parse limit declaration.name = .ok program ∧
        program.tree = .block [.name declaration.name]) ∧
      declaration.name ∉ ["and", "or", "max", "min"]) ∧
    ∀ later, declareSymbol declaration set = .ok () later → declaration.shape = .scalar →
      ∀ v, ∃ valued evaluated,
        setSymbol declaration.name (.scalar v) later = .ok () valued ∧
        evaluateSource declaration.name valued = .ok v evaluated := by
  rw [Program.parse_name_iff hlimit]
  refine ⟨⟨?_, fun hname => ?_⟩, fun later hlater hshape v => ?_⟩
  · rintro ⟨later, hlater⟩
    by_contra hname
    rw [declareSymbol_of_bad_name (mt (isSymbolName_iff _).mp hname)] at hlater
    cases hlater
  · exact ⟨_, declareSymbol_of_name ((isSymbolName_iff _).mpr hname) set⟩
  · by_cases hname : isSymbolName declaration.name
    · have hshape : (Value.scalar v).shape = declaration.shape := hshape.symm
      obtain ⟨symbols, hvalued, hfind⟩ := Symbols.set_insert hset.indexed declaration hshape
      have hdeclared : declareSymbol declaration set = _ := changeSymbols_of_ok (if_pos hname)
      obtain rfl := (EStateM.Result.ok.inj (hlater.symm.trans hdeclared)).2
      have hset : setSymbol declaration.name (.scalar v)
          ⟨set.limits, set.store.symbols.insert ⟨declaration, none⟩, set.store.scratch⟩ =
          .ok () ⟨set.limits, symbols, set.store.scratch⟩ := changeSymbols_of_ok hvalued
      have hevaluate := evaluateSource_name ⟨set.limits, symbols, set.store.scratch⟩ hdepth
        ((isSymbolName_iff _).mp hname).1 hfind rfl
      exact ⟨_, _, hset, hevaluate⟩
    · rw [declareSymbol_of_bad_name hname] at hlater
      cases hlater

/-- A word that begins like a keyword can be declared, and `max` cannot, though it is read as a
name. -/
theorem declareSymbol_forty_max :
    (∃ later, declareSymbol ⟨"forty", "", .scalar⟩ (ofLimits .default) = .ok () later ∧
      ∃ valued evaluated, setSymbol "forty" (.scalar 40) later = .ok () valued ∧
        evaluateSource "forty" valued = .ok 40 evaluated) ∧
    ¬ ∃ later, declareSymbol ⟨"max", "", .scalar⟩ (ofLimits .default) = .ok () later := by
  have harises : (ofLimits .default).Arises := ⟨.default, [], rfl⟩
  have hforty := declareSymbol_iff_parse harises (by decide) (Nat.le_refl 2)
    ⟨"forty", "", .scalar⟩
  have hmax := declareSymbol_iff_parse harises (by decide) (Nat.le_refl 2) ⟨"max", "", .scalar⟩
  have hname : IsIdentifier "forty" := ⟨by decide, by decide, by decide, by decide⟩
  obtain ⟨later, hlater⟩ :=
    hforty.1.mpr ⟨(Program.parse_name_iff (Nat.le_refl 2) _).mpr hname, by decide⟩
  exact ⟨⟨later, hlater, hforty.2 later hlater rfl 40⟩, fun h => (hmax.1.mp h).2 (by decide)⟩

end RuleSet
end RuleLang

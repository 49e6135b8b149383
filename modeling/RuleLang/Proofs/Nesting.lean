import RuleLang.Division
import RuleLang.Proofs.Text
import RuleLang.Text.Bracket

/-!
Nested texts. In a nested text every bracket has its partner, and outside of all brackets there
are neither separators nor braces. A scan passes over a nested text as over a single character:
the scan for a closing bracket, and the division into pieces. What is enclosed in a pair is thus
found again, and the pieces of a text made of nested texts with separators between them are these
nested texts.
-/
namespace RuleLang

namespace Text

def within (opening closing : Char) (text : Text) : Text := opening :: (text ++ [closing])

def bracketPairs : List (Char × Char) := [('(', ')'), ('[', ']'), ('{', '}')]

def brackets : List Char := ['(', ')', '[', ']', '{', '}']

/-- Whether a character is neither a bracket nor, unless it stands inside brackets, a separator. -/
def isPlain (inside : Bool) (c : Char) : Bool :=
  !(brackets.contains c) && (inside || !([';', ','].contains c))

/-- A text whose brackets are matched; separators and braces are allowed if it stands inside
brackets. -/
inductive Nested : Bool → Text → Prop
  | nil {inside : Bool} : Nested inside []
  | char {inside : Bool} {c : Char} (hc : isPlain inside c) : Nested inside [c]
  | append {inside : Bool} {front back : Text} (hfront : Nested inside front)
      (hback : Nested inside back) : Nested inside (front ++ back)
  | within {inside : Bool} {opening closing : Char} {text : Text}
      (hpair : (opening, closing) ∈ bracketPairs) (hbrace : opening = '{' → inside)
      (h : Nested true text) : Nested inside (within opening closing text)

theorem Nested.cons {inside : Bool} {c : Char} {text : Text} (hc : isPlain inside c)
    (h : Nested inside text) : Nested inside (c :: text) := .append (.char hc) h

theorem nested_of_forall {inside : Bool} {text : Text} (h : ∀ c ∈ text, isPlain inside c) :
    Nested inside text := by
  induction text with
  | nil => exact .nil
  | cons c text ih =>
    obtain ⟨hc, htext⟩ := List.forall_mem_cons.mp h
    exact .cons hc (ih htext)

/-- What is nested outside of brackets is so inside. -/
theorem Nested.inside {inside : Bool} {text : Text} (h : Nested inside text) :
    Nested true text := by
  induction h with
  | nil => exact .nil
  | char hc => exact .char (by simp_all [isPlain])
  | append _ _ ihfront ihback => exact .append ihfront ihback
  | within hpair _ _ ih => exact .within hpair (fun _ => rfl) ih

theorem ne_of_isPlain {inside : Bool} {c : Char} (hc : isPlain inside c) :
    ∀ pair ∈ bracketPairs, c ≠ pair.1 ∧ c ≠ pair.2 := by
  have hpairs : ∀ pair ∈ bracketPairs, pair.1 ∈ brackets ∧ pair.2 ∈ brackets := by decide
  have hmem : c ∉ brackets := by
    simp only [isPlain, Bool.and_eq_true, Bool.not_eq_true', List.contains_eq_mem,
      decide_eq_false_iff_not] at hc
    exact hc.1
  intro pair hpair
  constructor
  · rintro rfl
    exact hmem (hpairs pair hpair).1
  · rintro rfl
    exact hmem (hpairs pair hpair).2

/-- Different pairs have no bracket in common. -/
theorem bracketPairs_disjoint : ∀ pair ∈ bracketPairs, ∀ other ∈ bracketPairs, pair ≠ other →
    (pair.1 ≠ other.1 ∧ pair.1 ≠ other.2) ∧ pair.2 ≠ other.1 ∧ pair.2 ≠ other.2 := by
  decide

theorem closing_ne_opening : ∀ pair ∈ bracketPairs, pair.2 ≠ pair.1 := by decide

/-- The scan for a closing bracket passes over the text. -/
def Passes (opening closing : Char) (text : Text) : Prop :=
  ∀ depth seen rest, toClosing opening closing depth seen (text ++ rest) =
    toClosing opening closing depth (text.reverse ++ seen) rest

variable {opening closing : Char}

theorem passes_char {c : Char} (hopening : c ≠ opening) (hclosing : c ≠ closing) :
    Passes opening closing [c] := by
  intro depth seen rest
  simp [toClosing, hopening, hclosing]

theorem Passes.append {front back : Text} (hfront : Passes opening closing front)
    (hback : Passes opening closing back) : Passes opening closing (front ++ back) := by
  intro depth seen rest
  rw [List.append_assoc, hfront, hback, List.reverse_append, List.append_assoc]

theorem Passes.within {text : Text} (h : Passes opening closing text) (hne : closing ≠ opening) :
    Passes opening closing (within opening closing text) := by
  intro depth seen rest
  have htext := h (depth + 1) (opening :: seen) (closing :: rest)
  simp only [Text.within, List.cons_append, List.append_assoc, toClosing,
    if_true, htext, if_neg hne, List.reverse_cons, List.reverse_append, List.reverse_nil,
    List.nil_append]

/-- Other brackets are plain text. -/
theorem Passes.within_other {opening' closing' : Char} {text : Text}
    (h : Passes opening closing text) (hopening : opening' ≠ opening ∧ opening' ≠ closing)
    (hclosing : closing' ≠ opening ∧ closing' ≠ closing) :
    Passes opening closing (Text.within opening' closing' text) :=
  (passes_char hopening.1 hopening.2).append (h.append (passes_char hclosing.1 hclosing.2))

theorem passes_nil : Passes opening closing [] := fun _ _ _ => rfl

theorem Nested.passes {inside : Bool} {text : Text} (h : Nested inside text)
    (hpair : (opening, closing) ∈ bracketPairs) : Passes opening closing text := by
  induction h with
  | nil => exact passes_nil
  | char hc =>
    obtain ⟨hopening, hclosing⟩ := ne_of_isPlain hc _ hpair
    exact passes_char hopening hclosing
  | append _ _ ihfront ihback => exact ihfront.append ihback
  | @within _ opening' closing' _ hpair' _ _ ih =>
    by_cases heq : (opening', closing') = (opening, closing)
    · obtain ⟨rfl, rfl⟩ := Prod.mk.inj heq
      exact ih.within (closing_ne_opening _ hpair)
    · obtain ⟨hopening, hclosing⟩ := bracketPairs_disjoint _ hpair' _ hpair heq
      exact ih.within_other hopening hclosing

theorem enclosed?_within {inside : Bool} {text : Text} (h : Nested inside text)
    (hpair : (opening, closing) ∈ bracketPairs) (rest : Text) :
    enclosed? opening closing (within opening closing text ++ rest) = some (text, rest) := by
  have hscan := h.passes hpair 0 [] (closing :: rest)
  simp only [within, List.cons_append, List.append_assoc, List.nil_append, enclosed?, if_true,
    hscan, toClosing, if_neg (closing_ne_opening _ hpair), List.append_nil, List.reverse_reverse]

end Text

namespace Division

/-- The division reads on over the text, inside the pairs, without ending a piece. -/
def Passes (division : Division) (pairs : List (Char × Char)) (text : Text) : Prop :=
  ∀ whole piece rest, division.piecesFrom whole pairs piece (text ++ rest) =
    division.piecesFrom whole pairs (text.reverse ++ piece) rest

variable {division : Division} {pairs : List (Char × Char)}

theorem passes_nil : division.Passes pairs [] := fun _ _ _ => rfl

theorem Passes.append {front back : Text} (hfront : division.Passes pairs front)
    (hback : division.Passes pairs back) : division.Passes pairs (front ++ back) := by
  intro whole piece rest
  rw [List.append_assoc, hfront, hback, List.reverse_append, List.append_assoc]

theorem passes_char {c : Char} (hopening : division.closing? c = none)
    (hclosing : division.isClosing c = false)
    (hseparator : c ≠ division.separator ∨ pairs ≠ []) : division.Passes pairs [c] := by
  intro whole piece rest
  have hcut : ¬ (c == division.separator && pairs.isEmpty) := by
    simpa [List.isEmpty_iff, imp_iff_not_or] using hseparator
  rw [List.singleton_append, piecesFrom.eq_def]
  dsimp only
  rw [hopening]
  dsimp only
  rw [hclosing, if_neg (by decide), if_neg hcut]
  rfl

/-- A pair that no piece ends after. -/
theorem Passes.within {opening closing : Char} {text : Text}
    (hopening : division.closing? opening = some closing)
    (hclosing : division.closing? closing = none ∧ division.isClosing closing)
    (hbrace : closing ≠ '}' ∨ division.endsAtBrace = false ∨ pairs ≠ [])
    (h : division.Passes ((opening, closing) :: pairs) text) :
    division.Passes pairs (Text.within opening closing text) := by
  intro whole piece rest
  have hend : ¬ (division.endsAtBrace && closing == '}' && pairs.isEmpty) := by
    simp only [Bool.and_eq_true, beq_iff_eq, List.isEmpty_iff]
    rintro ⟨⟨hends, rfl⟩, rfl⟩
    simp [hends] at hbrace
  rw [Text.within, List.cons_append, piecesFrom.eq_def]
  dsimp only
  rw [hopening]
  dsimp only
  rw [List.append_assoc, h, List.singleton_append, piecesFrom.eq_3, hclosing.1]
  dsimp only
  rw [if_pos hclosing.2, if_neg (by simp), if_neg hend]
  simp

/-- The three divisions that the grammar makes. -/
def all : List Division := [statements, arguments, clauses]

theorem statements_mem : statements ∈ all := by simp [all]

theorem arguments_mem : arguments ∈ all := by simp [all]

theorem clauses_mem : clauses ∈ all := by simp [all]

/-- The division either reads the pair or takes its brackets, which are braces, as plain text. -/
theorem pair_or_plain : ∀ division ∈ all, ∀ pair ∈ Text.bracketPairs,
    (division.closing? pair.1 = some pair.2 ∧
      division.closing? pair.2 = none ∧ division.isClosing pair.2) ∨
    pair.1 = '{' ∧ (division.closing? pair.1 = none ∧ division.isClosing pair.1 = false) ∧
      division.closing? pair.2 = none ∧ division.isClosing pair.2 = false := by
  decide

theorem brace_of_closing : ∀ pair ∈ Text.bracketPairs, pair.2 = '}' → pair.1 = '{' := by decide

theorem separator_mem : ∀ division ∈ all, division.separator ∈ [';', ','] := by decide

theorem isPlain_closing? (hdivision : division ∈ all) {inside : Bool} {c : Char}
    (hc : Text.isPlain inside c) : division.closing? c = none ∧ division.isClosing c = false := by
  have hpairs : ∀ pair ∈ division.brackets, pair ∈ Text.bracketPairs := by
    revert division
    decide
  have hne := Text.ne_of_isPlain hc
  constructor
  · rw [closing?, Option.map_eq_none_iff, List.find?_eq_none]
    intro pair hpair
    simpa using fun h : pair.1 = c => (hne pair (hpairs pair hpair)).1 h.symm
  · rw [isClosing, List.any_eq_false]
    intro pair hpair
    simpa using fun h : pair.2 = c => (hne pair (hpairs pair hpair)).2 h.symm

/-- Separators end no piece inside of brackets, and outside there are none. -/
theorem passes_of_nested (hdivision : division ∈ all) {inside : Bool} {text : Text}
    (h : text.Nested inside) (hpairs : inside = true → pairs ≠ []) :
    division.Passes pairs text := by
  induction h generalizing pairs with
  | nil => exact passes_nil
  | @char inside c hc =>
    obtain ⟨hopening, hclosing⟩ := isPlain_closing? hdivision hc
    refine passes_char hopening hclosing ?_
    cases inside with
    | true => exact .inr (hpairs rfl)
    | false =>
      left
      rintro rfl
      have hmem := separator_mem division hdivision
      simp [Text.isPlain, hmem] at hc
  | append _ _ ihfront ihback => exact (ihfront hpairs).append (ihback hpairs)
  | @within inside opening closing text hpair hbrace _ ih =>
    rcases pair_or_plain division hdivision _ hpair with ⟨hopening, hclosing⟩ | ⟨hb, ho, hc⟩
    · refine Passes.within hopening hclosing ?_ (ih fun _ => by simp)
      by_cases hclosing : closing = '}'
      · exact .inr (.inr (hpairs (hbrace (brace_of_closing _ hpair hclosing))))
      · exact .inl hclosing
    · have hne : pairs ≠ [] := hpairs (hbrace hb)
      have htext := ih fun _ => hne
      exact (passes_char ho.1 ho.2 (.inr hne)).append
        (htext.append (passes_char hc.1 hc.2 (.inr hne)))

/-- A text that is one piece, at the end of what is divided or before a separator. -/
structure IsPiece (division : Division) (text : Text) : Prop where
  last : ∀ whole, division.piecesFrom whole [] [] text = .ok (division.put text.reverse [])
  next : ∀ whole rest, division.piecesFrom whole [] [] (text ++ division.separator :: rest) =
    division.put text.reverse <$> division.piecesFrom whole [] [] rest

theorem piecesFrom_separator (hdivision : division ∈ all) (whole piece rest : Text) :
    division.piecesFrom whole [] piece (division.separator :: rest) =
      division.put piece <$> division.piecesFrom whole [] [] rest := by
  have hplain : Text.isPlain true division.separator := by
    revert division
    decide
  obtain ⟨hopening, hclosing⟩ := isPlain_closing? hdivision hplain
  rw [piecesFrom.eq_2, hopening]
  dsimp only
  rw [hclosing, if_neg (by decide), if_pos (by simp)]

theorem isPiece_of_nested (hdivision : division ∈ all) {text : Text} (h : text.Nested false) :
    division.IsPiece text where
  last whole := by
    have hpasses : division.Passes [] text := passes_of_nested hdivision h nofun
    simpa [piecesFrom] using hpasses whole [] []
  next whole rest := by
    have hpasses : division.Passes [] text := passes_of_nested hdivision h nofun
    rw [hpasses, piecesFrom_separator hdivision, List.append_nil]

theorem piecesFrom_braces {front inside : Text} (hfront : front.Nested false)
    (hinside : inside.Nested true) (whole rest : Text) :
    statements.piecesFrom whole [] [] (front ++ (Text.within '{' '}' inside ++ rest)) =
      statements.put (front ++ Text.within '{' '}' inside).reverse <$>
        statements.piecesFrom whole [] [] rest := by
  have hfront : statements.Passes [] front := passes_of_nested statements_mem hfront nofun
  have hinside : statements.Passes [('{', '}')] inside :=
    passes_of_nested statements_mem hinside fun _ => by simp
  have hclosing : statements.closing? '}' = none := by decide
  rw [hfront, Text.within, List.cons_append, piecesFrom.eq_2]
  have hopening : statements.closing? '{' = some '}' := by decide
  rw [hopening]
  dsimp only
  rw [List.append_assoc, hinside, List.singleton_append, piecesFrom.eq_3, hclosing]
  dsimp only
  rw [if_pos (by decide), if_neg (by simp), if_pos (by decide)]
  simp

/-- A statement that ends with braces ends after them, and the blank piece that is left before
the separator is dropped. -/
theorem isPiece_braces {front inside : Text} (hfront : front.Nested false)
    (hinside : inside.Nested true) :
    statements.IsPiece (front ++ Text.within '{' '}' inside) where
  last whole := by
    have hscan := piecesFrom_braces hfront hinside whole []
    rw [List.append_nil] at hscan
    exact hscan
  next whole rest := by
    have hblank (others : Except Fault (List Text)) : statements.put [] <$> others = others := by
      cases others <;> rfl
    rw [List.append_assoc, piecesFrom_braces hfront hinside,
      piecesFrom_separator statements_mem whole [] rest, hblank]

theorem put_reverse {text : Text} (h : division.keepsBlank ∨ ¬ text.isBlank) (others : List Text) :
    division.put text.reverse others = text.trim :: others := by
  rw [put, if_pos, List.reverse_reverse]
  simpa [Text.isBlank_reverse] using h

theorem pieces_intercalate {texts : List Text} (hne : texts ≠ [])
    (hpieces : ∀ text ∈ texts, division.IsPiece text)
    (hkept : ∀ text ∈ texts, division.keepsBlank ∨ ¬ text.isBlank)
    (hwhole : ¬ Text.isBlank ([division.separator].intercalate texts)) :
    division.pieces ([division.separator].intercalate texts) = .ok (texts.map Text.trim) := by
  have hscan (whole : Text) :
      division.piecesFrom whole [] [] ([division.separator].intercalate texts) =
        .ok (texts.map Text.trim) := by
    clear hwhole
    induction texts with
    | nil => contradiction
    | cons text texts ih =>
      obtain ⟨htext, htexts⟩ := List.forall_mem_cons.mp hpieces
      obtain ⟨hfirst, hothers⟩ := List.forall_mem_cons.mp hkept
      by_cases hlast : texts = []
      · subst hlast
        rw [List.intercalate_singleton, htext.last, put_reverse hfirst]
        rfl
      · rw [List.intercalate_cons_of_ne_nil hlast, List.append_assoc, List.singleton_append,
          htext.next, ih hlast htexts hothers]
        exact congrArg Except.ok (put_reverse hfirst _)
  rw [pieces, if_neg hwhole, hscan]

end Division
end RuleLang

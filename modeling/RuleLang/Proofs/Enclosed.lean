import RuleLang.Proofs.Text
import RuleLang.Text.Zipper

/-!
The inside of a pair of brackets. A text matches the brackets of one pair if it closes as many as it
opens, and no part that it begins with closes more. The scan for a closing bracket counts the open
ones; with some of them open it stops at the first place where all of them are closed and one more
closing bracket comes. What has been read up to there is then known from the text, whatever other
characters stand in it.
-/
namespace RuleLang

namespace Text

variable {opening closing c : Char} {depth : Nat} {text inside rest : Text}

/-- As many brackets of a pair are closed as are opened, and nowhere more before. -/
structure Matched (opening closing : Char) (text : Text) : Prop where
  total : text.count closing = text.count opening
  front_le : ∀ front, front <+: text → front.count closing ≤ front.count opening

/-- A text that closes the brackets that it opens and a number of earlier ones. -/
structure Closes (opening closing : Char) (depth : Nat) (text : Text) : Prop where
  total : text.count closing = text.count opening + depth
  front_le : ∀ front, front <+: text → front.count closing ≤ front.count opening + depth

theorem closes_zero : Closes opening closing 0 text ↔ Matched opening closing text :=
  ⟨fun h => ⟨h.total, h.front_le⟩, fun h => ⟨h.total, h.front_le⟩⟩

theorem closes_nil : Closes opening closing depth [] ↔ depth = 0 := by
  constructor
  · intro h
    simpa using h.total.symm
  · rintro rfl
    refine ⟨rfl, fun front hfront => ?_⟩
    rw [List.prefix_nil.mp hfront]
    rfl

/-- The first character moves the depth from which the rest is read. -/
theorem closes_cons_iff {depth' : Nat}
    (hcount : ∀ text : Text, (c :: text).count closing + text.count opening + depth' =
      (c :: text).count opening + text.count closing + depth) :
    Closes opening closing depth (c :: text) ↔ Closes opening closing depth' text := by
  constructor
  · refine fun h => ⟨?_, fun front hfront => ?_⟩
    · have htotal := h.total
      have htext := hcount text
      omega
    · have hle := h.front_le (c :: front) (List.cons_prefix_cons.mpr ⟨rfl, hfront⟩)
      have htext := hcount front
      omega
  · refine fun h => ⟨?_, fun front hfront => ?_⟩
    · have htotal := h.total
      have htext := hcount text
      omega
    · rcases List.prefix_cons_iff.mp hfront with rfl | ⟨others, rfl, hothers⟩
      · exact Nat.zero_le _
      · have hle := h.front_le others hothers
        have htext := hcount others
        omega

theorem closes_opening (hne : opening ≠ closing) :
    Closes opening closing depth (opening :: text) ↔ Closes opening closing (depth + 1) text := by
  refine closes_cons_iff fun text => ?_
  rw [List.count_cons_self, List.count_cons_of_ne hne]
  omega

theorem closes_closing (hne : opening ≠ closing) :
    Closes opening closing (depth + 1) (closing :: text) ↔ Closes opening closing depth text := by
  refine closes_cons_iff fun text => ?_
  rw [List.count_cons_self, List.count_cons_of_ne hne.symm]
  omega

theorem not_closes_closing (hne : opening ≠ closing) :
    ¬ Closes opening closing 0 (closing :: text) := by
  intro h
  have hle := h.front_le [closing] (List.cons_prefix_cons.mpr ⟨rfl, List.nil_prefix⟩)
  rw [List.count_cons_self, List.count_cons_of_ne hne.symm] at hle
  simp at hle

theorem closes_other (hopening : c ≠ opening) (hclosing : c ≠ closing) :
    Closes opening closing depth (c :: text) ↔ Closes opening closing depth text := by
  refine closes_cons_iff fun text => ?_
  rw [List.count_cons_of_ne hclosing, List.count_cons_of_ne hopening]
  omega

/-- The closing bracket is the first character, or it comes after the first character. -/
theorem exists_read_cons {P : Text → Prop} {seen : Text} :
    (∃ read, P read ∧ c :: text = read ++ closing :: rest ∧ inside = seen.reverse ++ read) ↔
      (c = closing ∧ P [] ∧ text = rest ∧ inside = seen.reverse) ∨
      ∃ read, P (c :: read) ∧ text = read ++ closing :: rest ∧
        inside = (c :: seen).reverse ++ read := by
  constructor
  · rintro ⟨read, hread, heq, rfl⟩
    cases read with
    | nil =>
      obtain ⟨rfl, rfl⟩ := List.cons.inj heq
      exact .inl ⟨rfl, hread, rfl, List.append_nil _⟩
    | cons d read =>
      obtain ⟨rfl, rfl⟩ := List.cons.inj heq
      exact .inr ⟨read, hread, rfl, by simp⟩
  · rintro (⟨rfl, hnil, rfl, rfl⟩ | ⟨read, hread, rfl, rfl⟩)
    · exact ⟨[], hnil, rfl, (List.append_nil _).symm⟩
    · exact ⟨c :: read, hread, rfl, by simp⟩

theorem toClosing_opening (seen text : Text) :
    toClosing opening closing depth seen (opening :: text) =
      toClosing opening closing (depth + 1) (opening :: seen) text := by
  cases depth <;> simp [toClosing]

theorem toClosing_other (hopening : c ≠ opening) (hclosing : c ≠ closing) (seen text : Text) :
    toClosing opening closing depth seen (c :: text) =
      toClosing opening closing depth (c :: seen) text := by
  cases depth <;> simp [toClosing, hopening, hclosing]

theorem toClosing_eq_some_iff (hne : opening ≠ closing) {seen : Text} :
    toClosing opening closing depth seen text = some (inside, rest) ↔
      ∃ read, Closes opening closing depth read ∧ text = read ++ closing :: rest ∧
        inside = seen.reverse ++ read := by
  induction text generalizing depth seen with
  | nil => simp [toClosing]
  | cons c text ih =>
    rw [exists_read_cons]
    by_cases hopening : c = opening
    · subst hopening
      rw [toClosing_opening, ih]
      simp [closes_opening hne, hne]
    · by_cases hclosing : c = closing
      · subst hclosing
        cases depth with
        | zero => simp [toClosing, hopening, closes_nil, not_closes_closing hne, eq_comm, and_comm]
        | succ depth => simp [toClosing, hopening, closes_nil, closes_closing hne, ih]
      · rw [toClosing_other hopening hclosing, ih]
        simp [closes_other hopening hclosing, hclosing]

theorem enclosed?_eq_some_iff (hne : opening ≠ closing) :
    enclosed? opening closing text = some (inside, rest) ↔
      text = opening :: (inside ++ closing :: rest) ∧ Matched opening closing inside := by
  cases text with
  | nil => simp [enclosed?]
  | cons c text =>
    rw [enclosed?]
    by_cases hopening : c = opening
    · subst hopening
      simp [toClosing_eq_some_iff hne, closes_zero, and_comm]
    · simp [hopening]

end Text

namespace Zipper

variable {opening closing : Char}

theorem advanceBy_append (before front back : Text) :
    advanceBy front.length ⟨before, front ++ back⟩ = ⟨front.reverse ++ before, back⟩ := by
  induction front generalizing before with
  | nil => rfl
  | cons c front ih =>
    rw [List.length_cons, List.cons_append, advanceBy, ih]
    simp

/-- The text goes on at the place with a pair of brackets, what is inside of it, and what comes
after it. -/
structure Encloses (zipper : Zipper) (opening closing : Char) (inside after : Text) : Prop where
  rest_eq : zipper.rest = opening :: (inside ++ closing :: after)
  matched : Text.Matched opening closing inside

/-- The text falls into a pair of brackets with its inside and a rest in one way at most. -/
theorem Encloses.unique {zipper : Zipper} {inside after inside' after' : Text}
    (hne : opening ≠ closing) (h : zipper.Encloses opening closing inside after)
    (h' : zipper.Encloses opening closing inside' after') : inside = inside' ∧ after = after' := by
  have hfound := (Text.enclosed?_eq_some_iff hne).mpr ⟨h.rest_eq, h.matched⟩
  have hfound' := (Text.enclosed?_eq_some_iff hne).mpr ⟨h'.rest_eq, h'.matched⟩
  exact Prod.mk.inj (Option.some.inj (hfound.symm.trans hfound'))

theorem readEnclosed_of_encloses {zipper : Zipper} {inside after : Text} (hne : opening ≠ closing)
    (h : zipper.Encloses opening closing inside after) :
    zipper.readEnclosed opening closing =
      (.ok inside, ⟨closing :: (inside.reverse ++ opening :: zipper.before), after⟩) := by
  obtain ⟨before, rest⟩ := zipper
  have hfound := (Text.enclosed?_eq_some_iff hne).mpr ⟨h.rest_eq, h.matched⟩
  obtain rfl : rest = opening :: (inside ++ closing :: after) := h.rest_eq
  have hmove := advanceBy_append before (opening :: (inside ++ [closing])) after
  simp only [List.length_cons, List.length_append, List.length_nil, List.cons_append,
    List.append_assoc, List.nil_append, List.reverse_cons, List.reverse_append, List.reverse_nil]
    at hmove
  simp only [readEnclosed, hfound]
  rw [hmove]

theorem readEnclosed_of_not_encloses {zipper : Zipper} (hne : opening ≠ closing)
    (h : ¬ ∃ inside after, zipper.Encloses opening closing inside after) :
    zipper.readEnclosed opening closing =
      (.error (.syntactic ⟨.unbalanced, [[opening], zipper.rest]⟩),
        if zipper.peek? = some opening then
        ⟨zipper.rest.reverse ++ zipper.before, []⟩ else zipper) := by
  have hnone : zipper.rest.enclosed? opening closing = none := by
    refine Option.eq_none_iff_forall_ne_some.mpr fun ⟨inside, after⟩ hfound => ?_
    obtain ⟨hrest, hmatched⟩ := (Text.enclosed?_eq_some_iff hne).mp hfound
    exact h ⟨inside, after, hrest, hmatched⟩
  have hmove := advanceBy_append zipper.before zipper.rest []
  rw [List.append_nil] at hmove
  simp only [readEnclosed, hnone]
  rw [hmove]

/-- Where the rest of a text begins is known from the rest. -/
theorem eq_of_rest {zipper later : Zipper} (hsource : later.source = zipper.source)
    (hrest : later.rest = zipper.rest) : later = zipper := by
  obtain ⟨before, rest⟩ := zipper
  obtain ⟨before', rest'⟩ := later
  obtain rfl : rest' = rest := hrest
  have hbefore : before' = before := by simpa [source] using hsource
  rw [hbefore]

/-- A pair of brackets is read exactly if the text goes on with one: with a bracket that opens it,
an inside in which its brackets match, and the bracket that closes it. There is only one such
inside, and the place moves behind the pair. Otherwise the fault names the opening bracket and all
that is left of the text; the place stays if the bracket is not even opened, and else moves to the
end. -/
theorem readEnclosed_exact (hne : opening ≠ closing) (zipper : Zipper) :
    (∀ inside later, zipper.readEnclosed opening closing = (.ok inside, later) ↔
      zipper.Encloses opening closing inside later.rest ∧ later.source = zipper.source) ∧
    (∀ inside after inside' after', zipper.Encloses opening closing inside after →
      zipper.Encloses opening closing inside' after' → inside = inside' ∧ after = after') ∧
    ((¬ ∃ inside after, zipper.Encloses opening closing inside after) →
      ∃ fault later, zipper.readEnclosed opening closing = (.error fault, later) ∧
        fault.report = ⟨.syntactic, ⟨.unbalanced, [[opening], zipper.rest]⟩⟩ ∧
        (zipper.peek? ≠ some opening → later = zipper) ∧
        (zipper.peek? = some opening → later.rest = [] ∧ later.source = zipper.source)) := by
  refine ⟨fun inside later => ⟨fun hread => ?_, fun ⟨h, hsource⟩ => ?_⟩,
    fun _ _ _ _ h h' => h.unique hne h', fun h => ?_⟩
  · by_cases h : ∃ inside after, zipper.Encloses opening closing inside after
    · obtain ⟨inside', after, h⟩ := h
      have hfound := (readEnclosed_of_encloses hne h).symm.trans hread
      obtain ⟨hinside, rfl⟩ := Prod.mk.inj hfound
      obtain rfl := Except.ok.inj hinside
      refine ⟨h, ?_⟩
      simp [source, h.rest_eq]
    · have hfound := (readEnclosed_of_not_encloses hne h).symm.trans hread
      cases (Prod.mk.inj hfound).1
  · rw [readEnclosed_of_encloses hne h]
    refine congrArg (Prod.mk _) (eq_of_rest ?_ rfl)
    rw [hsource]
    simp [source, h.rest_eq]
  · refine ⟨_, _, readEnclosed_of_not_encloses hne h, rfl, fun hpeek => if_neg hpeek,
      fun hpeek => ?_⟩
    rw [if_pos hpeek]
    simp [source]

/-- Other brackets and characters of several bytes are plain text. -/
theorem readEnclosed_quotes :
    let zipper : Zipper := ⟨['f'], ['«', 'a', '«', '»', 'é', ']', '»', 'b', '«']⟩
    '«' ≠ '»' ∧ zipper.Encloses '«' '»' ['a', '«', '»', 'é', ']'] ['b', '«'] ∧
      ∀ inside after, zipper.Encloses '«' '»' inside after → after = ['b', '«'] := by
  intro zipper
  have hne : '«' ≠ '»' := by decide
  obtain ⟨hread, hunique, -⟩ := readEnclosed_exact hne zipper
  have h := ((hread _ ⟨['»', ']', 'é', '»', '«', 'a', '«', 'f'], ['b', '«']⟩).mp rfl).1
  exact ⟨hne, h, fun inside after h' => (hunique _ _ _ _ h' h).2⟩

end Zipper
end RuleLang

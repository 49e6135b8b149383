import RuleLang.Proofs.Spelling

/-!
Balanced texts. In a balanced text every bracket of the given pairs has its partner, the pairs
being properly nested; all other characters may stand anywhere. What is balanced for all pairs is
balanced for some of them. In a balanced text the scan for a closing bracket finds the partner of
the opening one, although it counts the brackets of one pair only.
-/
namespace RuleLang

namespace Text

variable {pairs pairs' : List (Char × Char)} {opening closing c : Char}
  {front back text inside rest : Text} {n m : Nat}

/-- A character that is no bracket of the pairs. -/
def Ordinary (pairs : List (Char × Char)) (c : Char) : Prop :=
  ∀ pair ∈ pairs, c ≠ pair.1 ∧ c ≠ pair.2

/-- A text whose brackets are matched and properly nested. -/
inductive Balanced (pairs : List (Char × Char)) : Text → Prop
  | nil : Balanced pairs []
  | cons {c : Char} {rest : Text} (hc : Ordinary pairs c) (h : Balanced pairs rest) :
      Balanced pairs (c :: rest)
  | pair {opening closing : Char} {inside rest : Text} (hpair : (opening, closing) ∈ pairs)
      (hinside : Balanced pairs inside) (hrest : Balanced pairs rest) :
      Balanced pairs (opening :: (inside ++ closing :: rest))

/-- A balanced text that is shorter than a bound. -/
structure Fits (pairs : List (Char × Char)) (n : Nat) (text : Text) : Prop where
  balanced : Balanced pairs text
  length_lt : text.length < n

theorem Balanced.append (hfront : Balanced pairs front) (hback : Balanced pairs back) :
    Balanced pairs (front ++ back) := by
  induction hfront with
  | nil => exact hback
  | cons hc _ ih => exact .cons hc ih
  | pair hpair hinside _ _ ih =>
    rw [List.cons_append, List.append_assoc, List.cons_append]
    exact .pair hpair hinside ih

/-- Brackets of pairs that do not count are ordinary characters. -/
theorem ordinary_of_not_mem (hpairs : pairs ⊆ bracketPairs)
    (hpair : (opening, closing) ∈ bracketPairs) (hnot : (opening, closing) ∉ pairs) :
    Ordinary pairs opening ∧ Ordinary pairs closing := by
  have hdisjoint : ∀ pair ∈ pairs, (opening ≠ pair.1 ∧ opening ≠ pair.2) ∧
      closing ≠ pair.1 ∧ closing ≠ pair.2 := fun pair hmem =>
    bracketPairs_disjoint _ hpair pair (hpairs hmem) fun heq => hnot (heq ▸ hmem)
  exact ⟨fun pair hmem => (hdisjoint pair hmem).1, fun pair hmem => (hdisjoint pair hmem).2⟩

theorem Balanced.of_subset (h : Balanced bracketPairs text) (hpairs : pairs ⊆ bracketPairs) :
    Balanced pairs text := by
  induction h with
  | nil => exact .nil
  | cons hc _ ih => exact .cons (fun pair hpair => hc pair (hpairs hpair)) ih
  | @pair opening closing _ _ hpair _ _ ihinside ihrest =>
    by_cases hmem : (opening, closing) ∈ pairs
    · exact .pair hmem ihinside ihrest
    · obtain ⟨ho, hc⟩ := ordinary_of_not_mem hpairs hpair hmem
      exact .cons ho (ihinside.append (.cons hc ihrest))

theorem Balanced.tail (h : Balanced pairs (c :: rest)) (hc : Ordinary pairs c) :
    Balanced pairs rest := by
  cases h with
  | cons _ h => exact h
  | pair hpair => exact absurd rfl (hc _ hpair).1

theorem Balanced.drop (h : Balanced pairs text) (n : Nat)
    (hn : ∀ c ∈ text.take n, Ordinary pairs c) : Balanced pairs (text.drop n) := by
  induction n generalizing text with
  | zero => exact h
  | succ n ih =>
    cases text with
    | nil => exact h
    | cons c text =>
      obtain ⟨hc, htext⟩ := List.forall_mem_cons.mp hn
      exact ih (h.tail hc) htext

theorem Balanced.dropWhile (h : Balanced pairs text) {p : Char → Bool}
    (hp : ∀ c, p c → Ordinary pairs c) : Balanced pairs (text.dropWhile p) := by
  induction text with
  | nil => exact h
  | cons c text ih =>
    by_cases hc : p c
    · rw [List.dropWhile_cons_of_pos hc]
      exact ih (h.tail (hp c hc))
    · rwa [List.dropWhile_cons_of_neg hc]

theorem ordinary_of_isPlain (hpairs : pairs ⊆ bracketPairs) {inside : Bool}
    (hc : isPlain inside c) : Ordinary pairs c :=
  fun pair hpair => ne_of_isPlain hc pair (hpairs hpair)

theorem ordinary_of_isBlank (hpairs : pairs ⊆ bracketPairs) (hc : isBlankChar c) :
    Ordinary pairs c := by
  have hbrackets : ∀ pair ∈ bracketPairs, ¬ isBlankChar pair.1 ∧ ¬ isBlankChar pair.2 := by decide
  refine fun pair hpair => ⟨?_, ?_⟩
  · rintro rfl
    exact (hbrackets pair (hpairs hpair)).1 hc
  · rintro rfl
    exact (hbrackets pair (hpairs hpair)).2 hc

theorem Balanced.trimStart (h : Balanced pairs text) (hpairs : pairs ⊆ bracketPairs) :
    Balanced pairs text.trimStart := h.dropWhile fun _ => ordinary_of_isBlank hpairs

theorem ordinary_of_inWord (hpairs : pairs ⊆ bracketPairs) (hc : inWord c) : Ordinary pairs c :=
  have hplain : isPlain true c := isPlain_of_inWord hc
  ordinary_of_isPlain hpairs hplain

theorem Balanced.afterWord (h : Balanced pairs text) (hpairs : pairs ⊆ bracketPairs) :
    Balanced pairs text.afterWord := h.dropWhile fun _ => ordinary_of_inWord hpairs

theorem Fits.mono (h : Fits pairs n text) (hle : n ≤ m) : Fits pairs m text :=
  ⟨h.balanced, h.length_lt.trans_le hle⟩

theorem Fits.of_subset (h : Fits bracketPairs n text) (hpairs : pairs ⊆ bracketPairs) :
    Fits pairs n text := ⟨h.balanced.of_subset hpairs, h.length_lt⟩

theorem Fits.tail (h : Fits pairs n (c :: text)) (hc : Ordinary pairs c) : Fits pairs n text :=
  ⟨h.balanced.tail hc, (Nat.lt_succ_self _).trans h.length_lt⟩

theorem Fits.trimStart (h : Fits pairs n text) (hpairs : pairs ⊆ bracketPairs) :
    Fits pairs n text.trimStart :=
  ⟨h.balanced.trimStart hpairs, (List.length_dropWhile_le _ _).trans_lt h.length_lt⟩

theorem Fits.afterWord (h : Fits pairs n text) (hpairs : pairs ⊆ bracketPairs) :
    Fits pairs n text.afterWord :=
  ⟨h.balanced.afterWord hpairs, (List.length_dropWhile_le _ _).trans_lt h.length_lt⟩

/-- The scan for a closing bracket passes over a balanced text. -/
theorem Balanced.passes (h : Balanced pairs text) (hpairs : pairs ⊆ bracketPairs)
    (hmem : (opening, closing) ∈ pairs) : Passes opening closing text := by
  induction h with
  | nil => exact passes_nil
  | cons hc _ ih => exact (passes_char (hc _ hmem).1 (hc _ hmem).2).append ih
  | @pair opening' closing' inside rest hpair _ _ ihinside ihrest =>
    have hwithin : Passes opening closing (within opening' closing' inside) := by
      by_cases heq : (opening', closing') = (opening, closing)
      · obtain ⟨rfl, rfl⟩ := Prod.mk.inj heq
        exact ihinside.within (closing_ne_opening _ (hpairs hmem))
      · obtain ⟨ho, hc⟩ := bracketPairs_disjoint _ (hpairs hpair) _ (hpairs hmem) heq
        exact ihinside.within_other ho hc
    simpa [within] using hwithin.append ihrest

theorem Fits.enclosed? (h : Fits pairs (n + 1) (opening :: text)) (hpairs : pairs ⊆ bracketPairs)
    (hmem : (opening, closing) ∈ pairs) :
    ∃ inside rest, Text.enclosed? opening closing (opening :: text) = some (inside, rest) ∧
      Fits pairs n inside ∧ Fits pairs n rest := by
  obtain ⟨hbalanced, hlength⟩ := h
  cases hbalanced with
  | cons hc _ => exact absurd rfl (hc _ hmem).1
  | @pair _ closing' inside rest hpair hinside hrest =>
    obtain rfl : closing' = closing := by
      by_contra hne
      exact (bracketPairs_disjoint _ (hpairs hpair) _ (hpairs hmem) (by simpa using hne)).1.1 rfl
    have hscan := hinside.passes hpairs hmem 0 [] (closing' :: rest)
    have henclosed : Text.enclosed? opening closing' (opening :: (inside ++ closing' :: rest)) =
        some (inside, rest) := by
      rw [Text.enclosed?.eq_2, if_pos rfl, hscan, toClosing,
        if_neg (closing_ne_opening _ (hpairs hmem)), if_pos rfl, List.append_nil,
        List.reverse_reverse]
    simp only [List.length_cons, List.length_append] at hlength
    exact ⟨inside, rest, henclosed, ⟨hinside, by omega⟩, ⟨hrest, by omega⟩⟩

end Text
end RuleLang

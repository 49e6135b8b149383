import Mathlib
import RuleLang.Text.Blank

/-!
Blanks and trimming. A text that neither begins nor ends with a blank is its own trimming.
-/
namespace RuleLang.Text

/-- What holds of all characters of a text is decided along the text, not over all characters. -/
instance (priority := 2000) decidableForallMem {p : Char → Prop} [DecidablePred p] (text : Text) :
    Decidable (∀ c ∈ text, p c) := List.decidableBAll p text

instance (priority := 2000) decidableForallMemOption {p : Char → Prop} [DecidablePred p]
    (head? : Option Char) : Decidable (∀ c ∈ head?, p c) := Option.decidableForallMem head?

theorem isBlank_iff {text : Text} : text.isBlank ↔ ∀ c ∈ text, isBlankChar c := by
  simp [isBlank]

theorem not_isBlank_cons {c : Char} (hc : ¬ isBlankChar c) (text : Text) :
    ¬ isBlank (c :: text) :=
  fun h => hc (isBlank_iff.mp h c List.mem_cons_self)

theorem trimStart_cons_of_blank {c : Char} (hc : isBlankChar c) (text : Text) :
    trimStart (c :: text) = trimStart text := List.dropWhile_cons_of_pos hc

theorem trimStart_cons_of_not_blank {c : Char} (hc : ¬ isBlankChar c) (text : Text) :
    trimStart (c :: text) = c :: text := List.dropWhile_cons_of_neg hc

theorem trimStart_of_isBlank {text : Text} (h : text.isBlank) : text.trimStart = [] :=
  List.dropWhile_eq_nil_iff.mpr (isBlank_iff.mp h)

theorem trimStart_of_head {text : Text} (h : ∀ c ∈ text.head?, ¬ isBlankChar c) :
    text.trimStart = text := by
  cases text with
  | nil => rfl
  | cons c text => exact trimStart_cons_of_not_blank (h c rfl) text

theorem trim_of_ends {text : Text} (hhead : ∀ c ∈ text.head?, ¬ isBlankChar c)
    (hlast : ∀ c ∈ text.getLast?, ¬ isBlankChar c) : text.trim = text := by
  have hreverse : List.dropWhile isBlankChar text.reverse = text.reverse :=
    trimStart_of_head (by rwa [List.head?_reverse])
  rw [trim, trimStart_of_head hhead, trimEnd, hreverse, List.reverse_reverse]

/-- The blanks at the end of a text come after its trimming there. -/
theorem trimEnd_append_blanks (text : Text) :
    text.trimEnd ++ (text.reverse.takeWhile isBlankChar).reverse = text := by
  rw [trimEnd, ← List.reverse_append, List.takeWhile_append_dropWhile, List.reverse_reverse]

theorem isBlank_trimStart (text : Text) : text.trimStart.isBlank = text.isBlank := by
  induction text with
  | nil => rfl
  | cons c text ih =>
    unfold trimStart at ih ⊢
    cases hc : isBlankChar c with
    | true => simpa [List.dropWhile_cons_of_pos hc, isBlank, hc] using ih
    | false => rw [List.dropWhile_cons_of_neg (by simp [hc])]

theorem isBlank_reverse (text : Text) : isBlank text.reverse = text.isBlank := by
  simp [isBlank]

theorem isBlank_trim (text : Text) : text.trim.isBlank = text.isBlank := by
  have h := isBlank_trimStart (Text.trimStart text).reverse
  rw [isBlank_reverse, isBlank_trimStart text] at h
  rw [← h]
  exact isBlank_reverse _

theorem trim_eq_nil_iff {text : Text} : text.trim = [] ↔ text.isBlank := by
  constructor
  · intro h
    rw [← isBlank_trim, h]
    rfl
  · intro h
    have hnil := trimStart_of_isBlank h
    simp [trim, hnil, trimEnd]

end RuleLang.Text

import RuleLang.Proofs.Culprit
import RuleLang.Token.Operator
import RuleLang.Token.Word

/-!
Blanks as separators. Squeezing a text makes each run of blanks in it a single space. What the
scanning of a text finds lies between the blanks, so it finds the same in the squeezed text: words,
operators and keywords are equal, and what is left over and what brackets enclose is squeezed.
-/
namespace RuleLang

namespace Text

/-- Makes each run of blanks a single space. -/
def squeeze : Text → Text
  | [] => []
  | c :: text =>
    if isBlankChar c then
      if text.head?.any isBlankChar then squeeze text else ' ' :: squeeze text
    else c :: squeeze text

theorem isBlankChar_space : isBlankChar ' ' := by decide

theorem squeeze_cons_of_not_blank {c : Char} (hc : ¬ isBlankChar c) (text : Text) :
    squeeze (c :: text) = c :: squeeze text := if_neg hc

/-- A blank at the start of a text is dropped before another one, or else is made a space. -/
theorem squeeze_blank_cases {c : Char} (hc : isBlankChar c) (text : Text) :
    squeeze (c :: text) = squeeze text ∨ squeeze (c :: text) = ' ' :: squeeze text := by
  rw [squeeze, if_pos hc]
  split
  · exact .inl rfl
  · exact .inr rfl

theorem squeeze_cons_cons (c d : Char) (text : Text) :
    squeeze (c :: d :: text) =
      if isBlankChar c then
        if isBlankChar d then squeeze (d :: text) else ' ' :: squeeze (d :: text)
      else c :: squeeze (d :: text) := rfl

theorem exists_squeeze_blank {c : Char} (hc : isBlankChar c) (text : Text) :
    ∃ rest, squeeze (c :: text) = ' ' :: rest := by
  induction text generalizing c with
  | nil => exact ⟨[], by simp [squeeze, hc]⟩
  | cons d text ih =>
    by_cases hd : isBlankChar d
    · obtain ⟨rest, heq⟩ := ih hd
      exact ⟨rest, by rw [squeeze_cons_cons, if_pos hc, if_pos hd, heq]⟩
    · exact ⟨squeeze (d :: text), by rw [squeeze_cons_cons, if_pos hc, if_neg hd]⟩

theorem squeeze_append {text rest : Text} (hhead : ∀ c ∈ rest.head?, ¬ isBlankChar c) :
    squeeze (text ++ rest) = squeeze text ++ squeeze rest := by
  induction text with
  | nil => rfl
  | cons c text ih =>
    have hany : (text ++ rest).head?.any isBlankChar = text.head?.any isBlankChar := by
      cases text with
      | nil =>
        cases rest with
        | nil => rfl
        | cons d rest => simpa using hhead
      | cons d text => rfl
    simp only [List.cons_append, squeeze, hany, ih]
    split
    · split <;> rfl
    · rfl

theorem squeeze_append_of_not_blank {text : Text} (h : ∀ c ∈ text, ¬ isBlankChar c) (rest : Text) :
    squeeze (text ++ rest) = text ++ squeeze rest := by
  induction text with
  | nil => rfl
  | cons c text ih =>
    obtain ⟨hc, htext⟩ := List.forall_mem_cons.mp h
    rw [List.cons_append, squeeze_cons_of_not_blank hc, ih htext]
    rfl

theorem squeeze_eq_nil_iff {text : Text} : squeeze text = [] ↔ text = [] := by
  induction text with
  | nil => simp [squeeze]
  | cons c text ih =>
    unfold squeeze
    split
    · split
      · next hhead =>
        cases text with
        | nil => simp at hhead
        | cons d text => simpa using ih
      · simp
    · simp

theorem exists_squeeze_cons (c : Char) (text : Text) :
    ∃ d rest, squeeze (c :: text) = d :: rest :=
  List.exists_cons_of_ne_nil fun heq => List.cons_ne_nil c text (squeeze_eq_nil_iff.mp heq)

theorem isBlank_cons (c : Char) (text : Text) :
    isBlank (c :: text) = (isBlankChar c && text.isBlank) := rfl

theorem isBlank_squeeze (text : Text) : (squeeze text).isBlank = text.isBlank := by
  induction text with
  | nil => rfl
  | cons c text ih =>
    by_cases hc : isBlankChar c
    · rw [isBlank_cons, hc, Bool.true_and, ← ih]
      rcases squeeze_blank_cases hc text with heq | heq
      · rw [heq]
      · rw [heq, isBlank_cons, isBlankChar_space, Bool.true_and]
    · rw [squeeze_cons_of_not_blank hc, isBlank_cons, isBlank_cons, ih]

theorem squeeze_suffix {rest text : Text} (h : rest <:+ text) : squeeze rest <:+ squeeze text := by
  induction text with
  | nil =>
    rw [List.suffix_nil.mp h]
  | cons c text ih =>
    rcases List.suffix_cons_iff.mp h with rfl | hrest
    · exact List.suffix_rfl
    · have htext : squeeze text <:+ squeeze (c :: text) := by
        by_cases hc : isBlankChar c
        · rcases squeeze_blank_cases hc text with heq | heq
          · rw [heq]
          · rw [heq]
            exact List.suffix_cons _ _
        · rw [squeeze_cons_of_not_blank hc]
          exact List.suffix_cons _ _
      exact (ih hrest).trans htext

theorem trimStart_suffix (text : Text) : trimStart text <:+ text := List.dropWhile_suffix _

theorem afterWord_suffix (text : Text) : afterWord text <:+ text := List.dropWhile_suffix _

theorem trimStart_squeeze (text : Text) : trimStart (squeeze text) = squeeze text.trimStart := by
  induction text with
  | nil => rfl
  | cons c text ih =>
    by_cases hc : isBlankChar c
    · rw [trimStart_cons_of_blank hc, ← ih]
      rcases squeeze_blank_cases hc text with heq | heq
      · rw [heq]
      · rw [heq, trimStart_cons_of_blank isBlankChar_space]
    · rw [squeeze_cons_of_not_blank hc, trimStart_cons_of_not_blank hc,
        trimStart_cons_of_not_blank hc, squeeze_cons_of_not_blank hc]

/-- A blank at the end of a text is dropped after another one, or else is made a space. -/
theorem squeeze_concat_blank {c : Char} (hc : isBlankChar c) (text : Text) :
    squeeze (text ++ [c]) =
      if text.getLast?.any isBlankChar then squeeze text else squeeze text ++ [' '] := by
  induction text with
  | nil => simp [squeeze, hc]
  | cons d text ih =>
    cases text with
    | nil => by_cases hd : isBlankChar d <;> simp [squeeze, hc, hd]
    | cons e text =>
      rw [List.getLast?_cons_cons, List.cons_append, List.cons_append, squeeze_cons_cons,
        squeeze_cons_cons, ← List.cons_append, ih]
      split_ifs <;> rfl

theorem squeeze_reverse (text : Text) : squeeze text.reverse = (squeeze text).reverse := by
  induction text with
  | nil => rfl
  | cons c text ih =>
    rw [List.reverse_cons]
    by_cases hc : isBlankChar c
    · rw [squeeze_concat_blank hc, List.getLast?_reverse, ih, squeeze, if_pos hc]
      split
      · rfl
      · rw [List.reverse_cons]
    · have hhead : ∀ d ∈ [c].head?, ¬ isBlankChar d := by simpa using hc
      rw [squeeze_append hhead, ih, squeeze_cons_of_not_blank hc text, List.reverse_cons,
        squeeze_cons_of_not_blank hc]
      rfl

theorem trim_squeeze (text : Text) : trim (squeeze text) = squeeze text.trim := by
  have htrimEnd (text : Text) : trimEnd (squeeze text) = squeeze text.trimEnd := by
    calc trimEnd (squeeze text)
      _ = (trimStart (squeeze text).reverse).reverse := rfl
      _ = (trimStart (squeeze text.reverse)).reverse := by rw [squeeze_reverse]
      _ = (squeeze (trimStart text.reverse)).reverse := by rw [trimStart_squeeze]
      _ = squeeze text.trimEnd := (squeeze_reverse _).symm
  rw [trim, trimStart_squeeze, htrimEnd, trim]

/-- A text with each run of blanks made a single space and without blanks at its ends. -/
def spaced (text : Text) : Text := trim (squeeze text)

section Runs

variable {p : Char → Bool} (hp : ∀ c, p c → ¬ isBlankChar c)

include hp

theorem takeWhile_squeeze (text : Text) : (squeeze text).takeWhile p = text.takeWhile p := by
  induction text with
  | nil => rfl
  | cons c text ih =>
    by_cases hc : isBlankChar c
    · obtain ⟨rest, heq⟩ := exists_squeeze_blank hc text
      rw [heq, List.takeWhile_cons_of_neg fun h => hp c h hc,
        List.takeWhile_cons_of_neg fun h => hp ' ' h isBlankChar_space]
    · rw [squeeze_cons_of_not_blank hc, List.takeWhile_cons, List.takeWhile_cons, ih]

theorem dropWhile_squeeze (text : Text) :
    (squeeze text).dropWhile p = squeeze (text.dropWhile p) := by
  induction text with
  | nil => rfl
  | cons c text ih =>
    by_cases hc : isBlankChar c
    · obtain ⟨rest, heq⟩ := exists_squeeze_blank hc text
      rw [List.dropWhile_cons_of_neg fun h => hp c h hc, heq,
        List.dropWhile_cons_of_neg fun h => hp ' ' h isBlankChar_space]
    · rw [squeeze_cons_of_not_blank hc, List.dropWhile_cons, List.dropWhile_cons, ih]
      split
      · rfl
      · rw [squeeze_cons_of_not_blank hc]

end Runs

theorem firstWord_squeeze (text : Text) : firstWord (squeeze text) = text.firstWord :=
  takeWhile_squeeze (fun _ => not_blank_of_inWord) text

theorem afterWord_squeeze (text : Text) : afterWord (squeeze text) = squeeze text.afterWord :=
  dropWhile_squeeze (fun _ => not_blank_of_inWord) text

theorem squeeze_eq_cons {c : Char} (hc : ¬ isBlankChar c) {text rest : Text}
    (h : squeeze text = c :: rest) : ∃ after, text = c :: after ∧ rest = squeeze after := by
  cases text with
  | nil => cases h
  | cons d text =>
    by_cases hd : isBlankChar d
    · obtain ⟨after, heq⟩ := exists_squeeze_blank hd text
      obtain ⟨rfl, -⟩ := List.cons.inj (heq.symm.trans h)
      exact absurd isBlankChar_space hc
    · rw [squeeze_cons_of_not_blank hd] at h
      obtain ⟨rfl, rfl⟩ := List.cons.inj h
      exact ⟨text, rfl, rfl⟩

theorem squeeze_ne_cons {c : Char} (hc : ¬ isBlankChar c) {text : Text}
    (h : ∀ rest, text = c :: rest → False) : ∀ rest, squeeze text = c :: rest → False := by
  intro rest heq
  obtain ⟨after, htext, -⟩ := squeeze_eq_cons hc heq
  exact h after htext

end Text

open Text

namespace Operator

/-- An operator takes up some characters, none of which is a bracket or a blank. -/
theorem atStart?_takes {text : Text} {op : Operator} {k : Nat} (h : atStart? text = some (op, k)) :
    k ≠ 0 ∧ k ≤ text.length ∧ ∀ c ∈ text.take k, Text.isPlain true c ∧ ¬ isBlankChar c := by
  unfold atStart? at h
  split at h
  case h_18 =>
    obtain ⟨word, hword, hk⟩ := Option.map_eq_some_iff.mp h
    obtain rfl := (Prod.mk.inj hk).2
    have htake : text.firstWord = text.take text.firstWord.length :=
      List.prefix_iff_eq_take.mp (List.takeWhile_prefix _)
    refine ⟨fun hzero => ?_, (List.takeWhile_prefix _).length_le, ?_⟩
    · rw [List.length_eq_zero_iff.mp hzero] at hword
      cases hword
    · rw [← htake]
      intro c hc
      have hin : inWord c := List.mem_takeWhile_imp hc
      exact ⟨isPlain_of_inWord hin, not_blank_of_inWord hin⟩
  all_goals
    cases h
    refine ⟨by decide, by simp, ?_⟩
    simp only [List.take_succ_cons, List.take_zero]
    decide

/-- Operators are found by their first two characters or as words, and neither has blanks in it. -/
theorem atStart?_squeeze (text : Text) : atStart? (squeeze text) = atStart? text := by
  have htwo {c d : Char} (hc : ¬ isBlankChar c) (hd : ¬ isBlankChar d)
      (h : ∀ rest, text = c :: d :: rest → False) :
      ∀ rest, squeeze text = c :: d :: rest → False := by
    intro rest heq
    obtain ⟨after, htext, hafter⟩ := squeeze_eq_cons hc heq
    obtain ⟨after', hafter', -⟩ := squeeze_eq_cons hd hafter.symm
    exact h after' (htext.trans (congrArg _ hafter'))
  fun_cases atStart? text
  case case9 rest h | case10 rest h | case11 rest h | case12 rest h | case13 rest h |
      case17 rest h =>
    rw [squeeze_cons_of_not_blank (by decide), atStart?]
    exact squeeze_ne_cons (by decide) h
  case case14 | case15 | case16 =>
    rw [squeeze_cons_of_not_blank (by decide)]
    rfl
  case case18 =>
    rw [atStart?, firstWord_squeeze]
    all_goals first
      | exact squeeze_ne_cons (by decide) (by assumption)
      | exact htwo (by decide) (by decide) (by assumption)
  all_goals
    rw [squeeze_cons_of_not_blank (by decide), squeeze_cons_of_not_blank (by decide)]
    rfl

theorem length_drop_lt {text : Text} {op : Operator} {k : Nat}
    (h : atStart? text.trimStart = some (op, k)) :
    (text.trimStart.drop k).length < text.length := by
  obtain ⟨hk, hlength, -⟩ := atStart?_takes h
  have hle : text.trimStart.length ≤ text.length := List.length_dropWhile_le _ _
  rw [List.length_drop]
  omega

theorem drop_squeeze {text : Text} {op : Operator} {k : Nat} (h : atStart? text = some (op, k)) :
    (squeeze text).drop k = squeeze (text.drop k) := by
  obtain ⟨-, hk, htake⟩ := atStart?_takes h
  have hlength : (text.take k).length = k := List.length_take_of_le hk
  have hsqueeze : squeeze text = text.take k ++ squeeze (text.drop k) := by
    rw [← squeeze_append_of_not_blank fun c hc => (htake c hc).2, List.take_append_drop]
  rw [hsqueeze, List.drop_left' hlength]

end Operator

theorem Keyword.atStart?_squeeze (text : Text) :
    atStart? (squeeze text) = (atStart? text).map fun found => (found.1, squeeze found.2) := by
  unfold atStart?
  rw [trimStart_squeeze, firstWord_squeeze, afterWord_squeeze, Option.map_map]
  rfl

theorem Word.atStart?_squeeze (text : Text) : atStart? (squeeze text) = atStart? text := by
  rw [atStart?, firstWord_squeeze, atStart?]

/-- What has been read of a text, together with what is left of it, and the same of the squeezed
text. -/
def Beside (seen seen' text : Text) : Prop :=
  seen'.reverse ++ squeeze text = squeeze (seen.reverse ++ text)

namespace Beside

variable {seen seen' text : Text} {c : Char}

theorem start (text : Text) : Beside [] [] text := rfl

/-- A blank may have been dropped from the squeezed text. -/
theorem blank (h : Beside seen seen' (c :: text)) (hc : isBlankChar c) :
    squeeze (c :: text) = squeeze text ∧ Beside (c :: seen) seen' text ∨
      squeeze (c :: text) = ' ' :: squeeze text ∧ Beside (c :: seen) (' ' :: seen') text := by
  unfold Beside at h ⊢
  rw [List.reverse_cons, List.append_assoc]
  rcases squeeze_blank_cases hc text with heq | heq
  · rw [heq] at h ⊢
    exact .inl ⟨rfl, h⟩
  · rw [heq] at h ⊢
    refine .inr ⟨rfl, ?_⟩
    rw [List.reverse_cons, List.append_assoc]
    exact h

theorem char (h : Beside seen seen' (c :: text)) (hc : ¬ isBlankChar c) :
    Beside (c :: seen) (c :: seen') text := by
  unfold Beside at h ⊢
  rw [squeeze_cons_of_not_blank hc] at h
  rw [List.reverse_cons, List.reverse_cons, List.append_assoc, List.append_assoc]
  exact h

/-- What has been read up to a character that is no blank is squeezed. -/
theorem reverse_eq (h : Beside seen seen' (c :: text)) (hc : ¬ isBlankChar c) :
    seen'.reverse = squeeze seen.reverse := by
  have hhead : ∀ d ∈ (c :: text).head?, ¬ isBlankChar d := by simpa using hc
  unfold Beside at h
  rw [squeeze_append hhead] at h
  exact List.append_cancel_right h

theorem reverse_cons_eq (h : Beside seen seen' (c :: text)) (hc : ¬ isBlankChar c) :
    (c :: seen').reverse = squeeze (c :: seen).reverse := by
  have hhead : ∀ d ∈ [c].head?, ¬ isBlankChar d := by simpa using hc
  rw [List.reverse_cons, List.reverse_cons, squeeze_append hhead, h.reverse_eq hc,
    squeeze_cons_of_not_blank hc]
  rfl

theorem reverse_eq_of_end (h : Beside seen seen' []) : seen'.reverse = squeeze seen.reverse := by
  unfold Beside at h
  rwa [List.append_nil, squeeze, List.append_nil] at h

end Beside

theorem Text.toClosing_squeeze {opening closing : Char} (hopening : ¬ isBlankChar opening)
    (hclosing : ¬ isBlankChar closing) (depth : Nat) {seen seen' text : Text}
    (h : Beside seen seen' text) :
    toClosing opening closing depth seen' (squeeze text) =
      (toClosing opening closing depth seen text).map fun parts =>
        (squeeze parts.1, squeeze parts.2) := by
  induction text generalizing depth seen seen' with
  | nil => rfl
  | cons c text ih =>
    by_cases hc : isBlankChar c
    · have hblank {d : Char} (hd : isBlankChar d) (seen rest : Text) :
          toClosing opening closing depth seen (d :: rest) =
            toClosing opening closing depth (d :: seen) rest := by
        have hne (special : Char) (hspecial : ¬ isBlankChar special) : d ≠ special := by
          rintro rfl
          exact hspecial hd
        rw [toClosing.eq_def]
        dsimp only
        rw [if_neg (hne opening hopening), if_neg (hne closing hclosing)]
      rw [hblank hc]
      rcases h.blank hc with ⟨heq, hbeside⟩ | ⟨heq, hbeside⟩
      · rw [heq]
        exact ih depth hbeside
      · rw [heq, hblank isBlankChar_space]
        exact ih depth hbeside
    · rw [squeeze_cons_of_not_blank hc]
      unfold toClosing
      split
      · exact ih _ (h.char hc)
      · split
        · cases depth with
          | zero =>
            rw [Option.map_some, h.reverse_eq hc]
          | succ depth => exact ih _ (h.char hc)
        · exact ih _ (h.char hc)

theorem Text.toClosing_suffix {opening closing : Char} {depth : Nat} {seen text inside rest : Text}
    (h : toClosing opening closing depth seen text = some (inside, rest)) : rest <:+ text := by
  induction text generalizing depth seen with
  | nil => cases h
  | cons c text ih =>
    unfold toClosing at h
    split at h
    · exact (ih h).trans (List.suffix_cons c text)
    · split at h
      · cases depth with
        | zero =>
          obtain ⟨-, rfl⟩ := Prod.mk.inj (Option.some.inj h)
          exact List.suffix_cons c text
        | succ depth => exact (ih h).trans (List.suffix_cons c text)
      · exact (ih h).trans (List.suffix_cons c text)

theorem Text.enclosed?_suffix {opening closing : Char} {text inside rest : Text}
    (h : enclosed? opening closing text = some (inside, rest)) : rest <:+ text := by
  cases text with
  | nil => cases h
  | cons c text =>
    rw [enclosed?] at h
    split at h
    · exact (toClosing_suffix h).trans (List.suffix_cons c text)
    · cases h

theorem Text.enclosed?_squeeze {opening closing : Char} (hopening : ¬ isBlankChar opening)
    (hclosing : ¬ isBlankChar closing) (text : Text) :
    enclosed? opening closing (squeeze text) =
      (enclosed? opening closing text).map fun parts => (squeeze parts.1, squeeze parts.2) := by
  cases text with
  | nil => rfl
  | cons c text =>
    by_cases hc : isBlankChar c
    · have hblank {d : Char} (hd : isBlankChar d) (rest : Text) :
          enclosed? opening closing (d :: rest) = none := by
        refine if_neg ?_
        rintro rfl
        exact hopening hd
      obtain ⟨rest, heq⟩ := exists_squeeze_blank hc text
      rw [heq, hblank hc, hblank isBlankChar_space, Option.map_none]
    · rw [squeeze_cons_of_not_blank hc, enclosed?, enclosed?]
      split
      · exact toClosing_squeeze hopening hclosing 0 (.start text)
      · rfl

end RuleLang

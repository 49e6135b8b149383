import RuleLang.Proofs.Comments

/-!
Where comments are cut. Lines are read one after another, so what a text is without its comments is
put together from what each of its lines is. Within a line the first two slashes decide, whatever
comes after them: cutting the line there leaves no two slashes side by side, and neither does
joining the lines, since there is a line end between them.
-/
namespace RuleLang.Text

variable {before line comment after text : Text}

/-- A line end ends the line that has been read so far. -/
theorem linesFrom_line_end (h : '\n' ∉ line) (begun after : Text) :
    linesFrom begun (line ++ '\n' :: after) =
      (dropReturn (line.reverse ++ begun)).reverse :: lines after := by
  induction line generalizing begun with
  | nil => rfl
  | cons c line ih =>
    obtain ⟨hc, hline⟩ := not_or.mp (List.mem_cons.not.mp h)
    rw [List.cons_append, linesFrom.eq_3 _ _ _ fun heq => hc heq.symm, ih hline]
    simp

theorem lines_line_end (h : '\n' ∉ line) (after : Text) :
    lines (line ++ '\n' :: after) = (dropReturn line.reverse).reverse :: lines after := by
  rw [lines, linesFrom_line_end h, List.append_nil]

theorem linesFrom_append (begun front after : Text) :
    linesFrom begun (front ++ '\n' :: after) =
      linesFrom begun (front ++ ['\n']) ++ lines after := by
  induction front generalizing begun with
  | nil => rfl
  | cons c front ih =>
    by_cases hc : c = '\n'
    · subst hc
      simp only [List.cons_append, linesFrom, ih]
    · rw [List.cons_append, List.cons_append, linesFrom.eq_3 _ _ _ hc, linesFrom.eq_3 _ _ _ hc, ih]

/-- After a line end the lines begin anew. -/
theorem lines_append (h : ∀ c ∈ before.getLast?, c = '\n') (after : Text) :
    lines (before ++ after) = lines before ++ lines after := by
  cases before using List.reverseRecOn with
  | nil => rfl
  | append_singleton front c =>
    obtain rfl := h c (by simp)
    rw [List.append_assoc]
    exact linesFrom_append [] front after

theorem dropReturn_of_last (h : ∀ c ∈ line.getLast?, c ≠ '\r') :
    (dropReturn line.reverse).reverse = line := by
  cases line using List.reverseRecOn with
  | nil => rfl
  | append_singleton front c =>
    have hc : c ≠ '\r' := h c (by simp)
    rw [List.reverse_concat, dropReturn]
    · simp
    · simpa using hc

/-- Behind two slashes a carriage return is part of the comment or of the line end. -/
theorem exists_dropReturn_comment (line comment : Text) :
    ∃ rest, (dropReturn (line ++ '/' :: '/' :: comment).reverse).reverse =
      line ++ '/' :: '/' :: rest := by
  cases comment using List.reverseRecOn with
  | nil =>
    refine ⟨[], dropReturn_of_last ?_⟩
    simp
  | append_singleton front c =>
    by_cases hc : c = '\r'
    · subst hc
      refine ⟨front, ?_⟩
      have hreverse : (line ++ '/' :: '/' :: (front ++ ['\r'])).reverse =
          '\r' :: (line ++ '/' :: '/' :: front).reverse := by simp
      rw [hreverse, dropReturn, List.reverse_reverse]
    · have hlast : (line ++ '/' :: '/' :: (front ++ [c])).getLast? = some c := by
        rw [← List.cons_append, ← List.cons_append, ← List.append_assoc, List.getLast?_concat]
      refine ⟨front ++ [c], dropReturn_of_last fun d hd => ?_⟩
      rw [hlast] at hd
      exact Option.some.inj hd ▸ hc

/-- A slash at the end of the line would begin the comment one character earlier. -/
theorem beforeComment_slashes (h : ∀ c ∈ line.getLast?, c ≠ '/') (rest : Text) :
    beforeComment (line ++ '/' :: '/' :: rest) = beforeComment line := by
  fun_induction beforeComment line with
  | case1 => rfl
  | case2 => rfl
  | case3 c line hslashes ih =>
    have hline : ∀ d ∈ line.getLast?, d ≠ '/' := by
      intro d hd
      refine h d ?_
      rw [List.getLast?_cons, hd]
      rfl
    rw [List.cons_append, beforeComment.eq_3, ih hline]
    intro tail hc htail
    cases line with
    | nil => exact h c rfl hc
    | cons d line => exact hslashes line hc (congrArg (· :: line) (List.cons.inj htail).1)

/-- A comment at the end of a line leaves no trace. -/
theorem stripComments_comment (hbefore : ∀ c ∈ before.getLast?, c = '\n') (hline : '\n' ∉ line)
    (hlast : ∀ c ∈ line.getLast?, c ≠ '/' ∧ c ≠ '\r') (hcomment : '\n' ∉ comment) (after : Text) :
    stripComments (before ++ (line ++ '/' :: '/' :: (comment ++ '\n' :: after))) =
      stripComments (before ++ (line ++ '\n' :: after)) := by
  have hwhole : '\n' ∉ line ++ '/' :: '/' :: comment := by simp [hline, hcomment]
  have hcut : beforeComment (dropReturn (line ++ '/' :: '/' :: comment).reverse).reverse =
      beforeComment (dropReturn line.reverse).reverse := by
    obtain ⟨rest, hrest⟩ := exists_dropReturn_comment line comment
    rw [hrest, beforeComment_slashes fun c hc => (hlast c hc).1,
      dropReturn_of_last fun c hc => (hlast c hc).2]
  have hcommented := lines_line_end hwhole after
  rw [List.append_assoc, List.cons_append, List.cons_append] at hcommented
  rw [stripComments, stripComments, lines_append hbefore, lines_append hbefore, hcommented,
    lines_line_end hline, List.map_append, List.map_append, List.map_cons, List.map_cons, hcut]

/-- Characters side by side that are not both slashes. -/
def NotSlashes (c d : Char) : Prop := ¬ (c = '/' ∧ d = '/')

theorem isChain_notSlashes_iff : text.IsChain NotSlashes ↔ ¬ ['/', '/'] <:+: text := by
  rw [List.isChain_iff_forall_rel_of_append_cons_cons]
  constructor
  · rintro h ⟨front, back, rfl⟩
    exact @h _ _ front back (by simp) ⟨rfl, rfl⟩
  · rintro h c d front back rfl ⟨rfl, rfl⟩
    exact h ⟨front, back, by simp⟩

theorem head_beforeComment (text : Text) : ∀ c ∈ (beforeComment text).head?, c ∈ text.head? := by
  fun_cases beforeComment text with
  | case1 => exact nofun
  | case2 => exact nofun
  | case3 c rest _ => exact fun _ hc => hc

theorem isChain_beforeComment (line : Text) : (beforeComment line).IsChain NotSlashes := by
  fun_induction beforeComment line with
  | case1 => exact .nil
  | case2 => exact .nil
  | case3 c line hslashes ih =>
    refine List.isChain_cons.mpr ⟨fun d hd => ?_, ih⟩
    rintro ⟨hc, rfl⟩
    obtain ⟨tail, htail⟩ := List.head?_eq_some_iff.mp (head_beforeComment line _ hd)
    exact hslashes tail hc htail

/-- The line ends between the lines keep slashes apart. -/
theorem isChain_intercalate {lines : List Text} (h : ∀ line ∈ lines, List.IsChain NotSlashes line) :
    (['\n'].intercalate lines).IsChain NotSlashes := by
  induction lines with
  | nil => exact .nil
  | cons line lines ih =>
    obtain ⟨hline, hlines⟩ := List.forall_mem_cons.mp h
    by_cases hlast : lines = []
    · rwa [hlast, List.intercalate_singleton]
    · have hend (c d : Char) (hne : c ≠ '/' ∨ d ≠ '/') : NotSlashes c d :=
        fun hboth => hne.elim (· hboth.1) (· hboth.2)
      rw [List.intercalate_cons_of_ne_nil hlast, List.append_assoc, List.singleton_append]
      refine List.isChain_append.mpr ⟨hline, List.isChain_cons.mpr ⟨?_, ih hlines⟩, ?_⟩
      · exact fun d _ => hend '\n' d (.inl (by decide))
      · rintro c - d ⟨rfl⟩
        exact hend c '\n' (.inr (by decide))

theorem isChain_stripComments (text : Text) : text.stripComments.IsChain NotSlashes := by
  refine isChain_intercalate fun line hline => ?_
  obtain ⟨whole, -, rfl⟩ := List.mem_map.mp hline
  exact isChain_beforeComment whole

/-- What is left of a line is the line up to its first two slashes, or all of it if there are
none. -/
theorem beforeComment_eq_iff {kept : Text} :
    beforeComment line = kept ↔
      ¬ ['/', '/'] <:+: kept ∧ (line = kept ∨
        kept.getLast? ≠ some '/' ∧ ∃ comment, line = kept ++ '/' :: '/' :: comment) := by
  constructor
  · rintro rfl
    refine ⟨isChain_notSlashes_iff.mp (isChain_beforeComment line), ?_⟩
    fun_induction beforeComment line with
    | case1 => exact .inl rfl
    | case2 comment => exact .inr ⟨by simp, comment, rfl⟩
    | case3 c line hslashes ih =>
      refine ih.imp (congrArg (c :: ·)) ?_
      rintro ⟨hlast, comment, hline⟩
      refine ⟨fun hslash => ?_, comment, congrArg (c :: ·) hline⟩
      cases hkept : beforeComment line with
      | nil =>
        rw [hkept] at hslash hline
        exact hslashes ('/' :: comment) (Option.some.inj hslash) hline
      | cons d kept =>
        rw [hkept] at hslash hlast
        exact hlast (by rwa [List.getLast?_cons_cons] at hslash)
  · rintro ⟨hchain, hline⟩
    have hkept : beforeComment kept = kept := by
      have h := isChain_notSlashes_iff.mpr hchain
      clear hline hchain
      fun_induction beforeComment kept with
      | case1 => rfl
      | case2 => exact absurd ⟨rfl, rfl⟩ (List.isChain_cons_cons.mp h).1
      | case3 c kept _ ih => rw [ih (List.isChain_of_isChain_cons h)]
    rcases hline with rfl | ⟨hlast, comment, rfl⟩
    · exact hkept
    · rw [beforeComment_slashes (fun c hc heq => hlast (heq ▸ hc)), hkept]

/-- The lines of a text are kept in their order, each up to its first two slashes. -/
theorem stripComments_lines {lines : List Text}
    (h : ∀ line ∈ lines, '\n' ∉ line ∧ line.getLast? ≠ some '\r') :
    stripComments (lines.flatMap (· ++ ['\n'])) =
      ['\n'].intercalate (lines.map beforeComment) := by
  have hlines : Text.lines (lines.flatMap (· ++ ['\n'])) = lines := by
    induction lines with
    | nil => rfl
    | cons line lines ih =>
      obtain ⟨hline, hothers⟩ := List.forall_mem_cons.mp h
      rw [List.flatMap_cons, List.append_assoc, List.singleton_append, lines_line_end hline.1,
        ih hothers, dropReturn_of_last fun c hc heq => hline.2 (heq ▸ hc)]
  rw [stripComments, hlines]

/-- Comments are cut, and cut line by line. No two slashes are left side by side in any text. And
whatever stands in the lines before and after it, a line gives the same with a comment as without,
unless its last character makes another comment or another line end of it. -/
theorem stripComments_exact :
    (∀ text : Text, ¬ ['/', '/'] <:+: text.stripComments) ∧
    ∀ before line comment after : Text, (before = [] ∨ before.getLast? = some '\n') →
      '\n' ∉ line → line.getLast? ≠ some '/' → line.getLast? ≠ some '\r' → '\n' ∉ comment →
      stripComments (before ++ line ++ ['/', '/'] ++ comment ++ ['\n'] ++ after) =
        stripComments (before ++ line ++ ['\n'] ++ after) := by
  refine ⟨fun text => isChain_notSlashes_iff.mp (isChain_stripComments text), ?_⟩
  intro before line comment after hbefore hline hslash hreturn hcomment
  have hbefore : ∀ c ∈ before.getLast?, c = '\n' := by
    rintro c hc
    rcases hbefore with rfl | hlast
    · cases hc
    · exact (Option.some.inj (hlast.symm.trans hc)).symm
  have hlast : ∀ c ∈ line.getLast?, c ≠ '/' ∧ c ≠ '\r' := by
    refine fun c hc => ⟨?_, ?_⟩
    · rintro rfl
      exact hslash hc
    · rintro rfl
      exact hreturn hc
  simpa using stripComments_comment hbefore hline hlast hcomment after

/-- A comment that ends with a carriage return, behind a line with a comment of its own. -/
theorem stripComments_two_comments :
    stripComments "a//b\nc / d//e\r\n//".toList = stripComments "a//b\nc / d\n//".toList :=
  stripComments_exact.2 "a//b\n".toList "c / d".toList "e\r".toList "//".toList (.inr (by decide))
    (by decide) (by decide) (by decide) (by decide)

end RuleLang.Text

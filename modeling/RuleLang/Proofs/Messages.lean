import Mathlib
import RuleLang.Fault

/-!
Messages that are filled in completely. A template asks for as many arguments as it has placeholders
and is listed under one category. Where a fault brings that many arguments and is raised under that
category, its text is the text of the template with the arguments between the pieces, and nothing in
an argument is taken for a placeholder.
-/
namespace RuleLang

/-- A piece, an argument, a piece and so on, up to the last piece. -/
def interleave (pieces args : List Text) : Text :=
  (List.zipWith (· ++ ·) pieces (args ++ [[]])).flatten

theorem fill_eq_interleave {pattern : Text} {args : List Text}
    (h : args.length = pattern.count '#') :
    fill pattern args = interleave (pattern.splitOn '#') args := by
  induction pattern generalizing args with
  | nil =>
    obtain rfl : args = [] := List.length_eq_zero_iff.mp h
    rfl
  | cons c pattern ih =>
    rw [List.splitOn_cons_eq_if_modifyHead]
    by_cases hc : c = '#'
    · subst hc
      cases args with
      | nil => simp at h
      | cons arg args =>
        have hlength : args.length = pattern.count '#' := by simpa using h
        rw [fill, ih hlength]
        simp [interleave]
    · have hlength : args.length = pattern.count '#' := by simpa [hc] using h
      have hfill : fill (c :: pattern) args = c :: fill pattern args :=
        fill.eq_3 args c pattern fun _ _ _ hhash => hc hhash
      obtain ⟨first, others, hpieces⟩ :=
        List.exists_cons_of_ne_nil (List.splitOn_ne_nil '#' pattern)
      obtain ⟨next, left, hargs⟩ : ∃ next left, args ++ [[]] = next :: left :=
        List.exists_cons_of_ne_nil (by simp)
      rw [hfill, ih hlength, hpieces]
      simp [interleave, hargs, hc]

/-- The number of arguments that a template asks for. -/
def Template.placeholders : Template → Nat
  | strayBreak => 0
  | unbalanced | methodTarget | tooDeep | outOfRange => 2
  | argumentCount | wrongShape => 3
  | _ => 1

theorem Template.count_text (template : Template) :
    template.text.toList.count '#' = template.placeholders := by
  cases template <;> decide +kernel

namespace Report

/-- A report in the category of its template, with as many arguments as that has placeholders. -/
structure Fits (report : Report) : Prop where
  category_eq : report.category = report.message.template.category
  args_length : report.message.args.length = report.message.template.text.toList.count '#'
  text_eq : report.text = report.category.heading.toList ++
    interleave (report.message.template.text.toList.splitOn '#') report.message.args

end Report

namespace Fault

/-- The fault is raised under the category of its template, with an argument for each
placeholder. -/
structure Fills (fault : Fault) : Prop where
  category_eq : fault.category = fault.template.category
  args_length : fault.message.args.length = fault.template.placeholders

theorem Fills.fits {fault : Fault} (h : fault.Fills) : fault.report.Fits := by
  have hlength : fault.message.args.length = fault.template.text.toList.count '#' :=
    h.args_length.trans fault.template.count_text.symm
  exact ⟨h.category_eq, hlength, congrArg _ (fill_eq_interleave hlength)⟩

end Fault
end RuleLang

import RuleLang.Text.Numeral

/-!
The limits under which rules are read and run: how often a loop may run its body, and how deep
statements and expressions may nest.
-/
namespace RuleLang

structure Limits where
  loopCeiling : Nat
  nestingDepth : Nat
  deriving DecidableEq

namespace Limits

def default : Limits := ⟨1000, 256⟩

/-- Why limits are refused. -/
inductive Refusal
  | loopCeiling (given : Nat)
  | nestingDepth (given : Nat)
  deriving DecidableEq

def Refusal.text : Refusal → Text
  | loopCeiling given => "max_loop_iterations must be positive: ".toList ++ .ofNat given
  | nestingDepth given => "max_nesting_depth must be >= 4: ".toList ++ .ofNat given

/-- The least nesting depth, which holds an `if` inside a loop. -/
def leastNestingDepth : Nat := 4

/-- Refuses limits under which hardly any rule could succeed. -/
def of? (loopCeiling nestingDepth : Nat) : Except Refusal Limits :=
  if loopCeiling = 0 then .error (.loopCeiling loopCeiling)
  else if nestingDepth < leastNestingDepth then .error (.nestingDepth nestingDepth)
  else .ok ⟨loopCeiling, nestingDepth⟩

end Limits
end RuleLang

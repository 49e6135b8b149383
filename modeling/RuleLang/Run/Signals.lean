/-!
The signals of a run. A `return` or a `break` does not jump; it raises a signal, which every
sequence of statements and every loop looks at before it goes on.
-/
namespace RuleLang

structure Signals where
  returned? : Option Int32
  breaking : Bool
  deriving DecidableEq

namespace Signals

def none : Signals := ⟨.none, false⟩

def setReturn (value : Int32) (signals : Signals) : Signals :=
  { signals with returned? := some value }

def setBreak (signals : Signals) : Signals := { signals with breaking := true }

/-- Whether a `break` is pending, and the signals without it. -/
def takeBreak (signals : Signals) : Bool × Signals :=
  (signals.breaking, { signals with breaking := false })

/-- Whether the statements that follow are to be skipped. -/
def pending (signals : Signals) : Bool := signals.returned?.isSome || signals.breaking

end Signals
end RuleLang

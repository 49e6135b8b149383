import RuleLang.Message

/-!
What can go wrong. A fault is a message under a category. Whoever raises it chooses the category,
the template and the arguments each on its own; that they go together is not a matter of the type.
-/
namespace RuleLang

inductive Fault
  | syntactic (message : Message)
  | name (message : Message)
  | shape (message : Message)
  | arithmetic (message : Message)
  | runaway (message : Message)
  deriving DecidableEq

namespace Fault

def category : Fault → Category
  | syntactic _ => .syntactic
  | name _ => .name
  | shape _ => .shape
  | arithmetic _ => .arithmetic
  | runaway _ => .runaway

def message : Fault → Message
  | syntactic message | name message | shape message | arithmetic message | runaway message =>
    message

def template (fault : Fault) : Template := fault.message.template

/-- What a host is told. -/
def report (fault : Fault) : Report := ⟨fault.category, fault.message⟩

end Fault
end RuleLang

import Intensional.Engine.Basic
import Intensional.Operator.Builtin

/-!
# Libraries

A library is a change of an engine under a name. Where loading one fails, what it has changed so
far stays, and the fault says which library it was.
-/

namespace Intensional

/-- Changes of an engine under a name. -/
structure Library where
  name : String
  install : Action Engine Unit

namespace Library

def builtins : Library := ⟨"builtins", .update (Engine.updateOperators Builtin.install)⟩

/-- The fault of a library: its own, or what it failed with, told as its own. -/
def faultOf (library : Library) : Fault → Fault
  | .libraryFailed name reason => .libraryFailed name reason
  | e => .libraryFailed library.name e.message

end Library

namespace Engine

def load (library : Library) : Action Engine Unit :=
  library.install.mapFault library.faultOf

/-- An engine with some libraries loaded in order, or the first fault. -/
def build (config : Config) (libraries : List Library) : Except Fault Engine :=
  match Action.each load libraries (initial config) with
  | (.ok _, s) => .ok s
  | (.error e, _) => .error e

end Engine
end Intensional

import Pds1.Command.Directory
import Pds1.Command.Options

/-!
# What a command leaves behind
-/

namespace Pds1

structure Outcome where
  exit : Nat
  output : String
  log : List Event
  directory : Directory

namespace Outcome

/-- The log lines at or above a level. -/
def shown (level : Level) (log : List Event) : List Event :=
  log.filter fun e => e.level.rank ≤ level.rank

/-- The outcome of arguments that do not ask for a run. -/
def refused (program help : String) (d : Directory) : Options.Refusal → Outcome
  | .usage => ⟨2, "", [], d⟩
  | .help => ⟨0, help, [], d⟩
  | .version => ⟨0, program ++ " 0.0.1\n", [], d⟩

end Outcome

end Pds1

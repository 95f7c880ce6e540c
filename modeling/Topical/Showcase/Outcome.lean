import Topical.Level
/-!
# Outcomes of a command

What a command leaves behind: its exit code and what it wrote on its two channels.
-/
namespace Topical

structure Outcome where
  exitCode : Nat
  output : Text
  errors : Text

namespace Outcome

def ofLines (lines : List Text) : Outcome := ⟨0, lines.flatMap (· ++ ['\n']), []⟩

def failed (lines : List Text) (message : Text) : Outcome :=
  ⟨1, lines.flatMap (· ++ ['\n']), "Error: ".toList ++ message ++ ['\n']⟩

end Outcome
end Topical

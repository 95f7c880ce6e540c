import Topical.Showcase.Table
import Topical.Showcase.RoundTrip
/-!
# The command line

`topical table [PATTERN TOPIC…]` shows a pattern over topics; without a pattern it shows samples.
`topical round-trip` formats a topic and matches it back.
-/

namespace Topical

/-- Writes an outcome to the two channels. -/
def Outcome.report (o : Outcome) : IO UInt32 := do
  IO.print (String.ofList o.output)
  IO.eprint (String.ofList o.errors)
  return o.exitCode.toUInt32

end Topical

open Topical

def main (args : List String) : IO UInt32 :=
  match args with
  | "table" :: rest => (Showcase.Table.run (rest.map String.toList)).report
  | ["round-trip"] => Showcase.RoundTrip.run.report
  | _ => do
    IO.eprintln "usage: topical table [PATTERN TOPIC...] | topical round-trip"
    return 2

import Formula.CommandLine.Run

/-!
# The command line

The outer layer of the program: it takes the arguments, reads the standard input line by line
as long as lines are wanted, and writes what `CommandLine.run` says, expression by expression.
-/

namespace Formula.CommandLine

/-- Writes a report, behind the log of the expression if that is asked for. -/
def writeReport (options : Options) (expression : String) : IO Bool := do
  if options.verbose then
    (options.log expression).forM fun line => IO.eprintln line
  let report := options.report expression
  IO.print report.output
  (← IO.getStdout).flush
  IO.eprint report.errors
  return report.isFailure

/-- The next line of a stream with the newline that ends it; empty at the end. -/
partial def readLine (stream : IO.FS.Stream) (line : List UInt8) : IO (List UInt8) := do
  let bytes ← stream.read 1
  match bytes.toList with
  | [] => return line.reverse
  | b :: _ => if b = newline then return (b :: line).reverse else readLine stream (b :: line)

/-- Evaluates the lines of a stream until one of them ends the input; has one of them failed? -/
partial def evaluateLines (options : Options) (stream : IO.FS.Stream) (failed : Bool) :
    IO Bool := do
  let bytes ← readLine stream []
  if bytes.isEmpty then return failed
  match Line.ofBytes bytes with
  | .blank => return failed
  | .unreadable =>
    IO.eprintln unreadableMessage
    return true
  | .expression text => evaluateLines options stream ((← writeReport options text) || failed)

/-- Evaluates the expressions that the options name; has one of them failed? -/
def evaluateAll (options : Options) : IO Bool := do
  if options.expressions.isEmpty then
    IO.println prompt
    (← IO.getStdout).flush
    evaluateLines options (← IO.getStdin) false
  else
    options.expressions.foldlM
      (fun failed expression => return (← writeReport options expression) || failed) false

end Formula.CommandLine

open Formula.CommandLine in
/-- Runs the program. -/
def main (arguments : List String) : IO UInt32 := do
  match Request.ofArguments arguments with
  | .error e =>
    IO.eprintln e.message
    return usageCode.toUInt32
  | .ok .help =>
    IO.println helpText
    return 0
  | .ok .version =>
    IO.println versionText
    return 0
  | .ok (.evaluate options) => return if ← evaluateAll options then 1 else 0

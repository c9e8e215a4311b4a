import Formula.CommandLine.Arguments
import Formula.Trace

/-!
# The program

`CommandLine.run` is what the program does, as a function from its arguments and its standard
input to what it writes and the code with which it ends. Each expression gives one report: its
value goes to the standard output, and the message of a failure to the standard error. A
failure does not keep later expressions from being evaluated, but the program ends with a code
that tells of it.

The expressions are those of the command line. If it has none, they are the lines of the
standard input up to one that is blank or cannot be read.
-/

namespace Formula.CommandLine

/-- What the program makes of one expression. -/
inductive Report where
  | shown (text : String)
  | failed (message : String)
  deriving DecidableEq

/-- What the program has written, and the code with which it ends. -/
structure Outcome where
  code : UInt8
  output : String
  errors : String

/-! ### Evaluating an expression -/

/-- The value of a variable: that of its last definition, or else the fallback. -/
def Options.value? (o : Options) (name : String) : Option Value :=
  match o.definitions.reverse.find? (·.1 == name) with
  | some (_, v) => some v
  | none => o.fallback

/-- The lookup of the variables that the options define. -/
def Options.lookup (o : Options) : Lookup Unit Error := fun name s =>
  match o.value? name with
  | some v => (.ok v, s)
  | none => Lookup.noVariables name s

/-- The report of a value or a failure. -/
def Report.ofResult : Except (Failure Error) Value → Report
  | .ok v => .shown v.text
  | .error (.fault e) => .failed e.message
  | .error (.lookup e) => .failed e.message

/-- The report of an expression. -/
def Options.report (o : Options) (expression : String) : Report :=
  .ofResult ((Formula.evaluate o.lookup expression).run ()).1

/-- The log of an expression's evaluation, a line for each of its stages. -/
def Options.log (o : Options) (expression : String) : List String :=
  (Trace.run o.lookup expression ()).2.1.filterMap fun
    | .evaluating expression normalized =>
      some ("DEBUG evaluating expression=" ++ expression ++ " normalized=" ++ normalized)
    | .parsed rpn => some ("DEBUG parsed expression postfix=" ++ rpn)
    | .evaluated value => some ("DEBUG evaluated value=" ++ value)
    | .token _ _ | .push _ _ _ => none

/-! ### The lines of the standard input -/

/-- The code of the character that ends a line. -/
def newline : UInt8 := 10

/-- The code of the character that may stand in front of it. -/
def carriageReturn : UInt8 := 13

/-- A line without the characters that end it; only a line that has an end loses a carriage
return. -/
def withoutEnd (line : List UInt8) : List UInt8 :=
  match line.reverse with
  | last :: before =>
    if last = newline then
      (match before with
        | c :: before => if c = carriageReturn then before else c :: before
        | [] => []).reverse
    else line
  | [] => []

/-- The lines of the bytes, each with the newline that ends it. -/
def splitLines : List UInt8 → List (List UInt8)
  | [] => []
  | b :: bs =>
    if b = newline then [b] :: splitLines bs
    else match splitLines bs with
      | line :: lines => (b :: line) :: lines
      | [] => [[b]]

/-- The text of a line, if its bytes are one. -/
def lineText? (line : List UInt8) : Option String :=
  String.fromUTF8? (ByteArray.mk (withoutEnd line).toArray)

/-- What a line of the standard input is. -/
inductive Line where
  | expression (text : String)
  /-- A line of nothing but white space, which ends the input. -/
  | blank
  /-- The bytes of the line are no text. -/
  | unreadable

/-- What the bytes of a line are. -/
def Line.ofBytes (line : List UInt8) : Line :=
  match lineText? line with
  | none => .unreadable
  | some text => if text.toList.all Text.isBlank then .blank else .expression text

/-- The message for a line that cannot be read. -/
def unreadableMessage : String := "Failed to read from standard input."

/-- The reports of the lines, and whether one could not be read. -/
def Options.reportLines (o : Options) : List (List UInt8) → List Report
  | [] => []
  | line :: lines =>
    match Line.ofBytes line with
    | .expression text => o.report text :: o.reportLines lines
    | .blank => []
    | .unreadable => [.failed unreadableMessage]

/-! ### The outcome -/

/-- A line of the program's output. -/
def asLine (text : String) : String := text ++ "\n"

/-- The text that a report writes to the standard output. -/
def Report.output : Report → String
  | shown text => asLine text
  | failed _ => ""

/-- The text that a report writes to the standard error. -/
def Report.errors : Report → String
  | shown _ => ""
  | failed message => asLine message

/-- Does the report tell of a failure? -/
def Report.isFailure : Report → Bool
  | shown _ => false
  | failed _ => true

/-- The outcome of several reports. -/
def Outcome.ofReports (reports : List Report) : Outcome where
  code := if reports.any Report.isFailure then 1 else 0
  output := String.join (reports.map Report.output)
  errors := String.join (reports.map Report.errors)

/-- The line that asks for expressions. -/
def prompt : String := "Enter one expression per line; an empty line quits."

/-- The name of the program and its version. -/
def versionText : String := "shunt 0.1.0"

/-- What the program is for and how it is called. -/
def helpText : String :=
  String.intercalate "\n"
    [ "shunt evaluates arithmetic, comparison, bitwise and logical expressions over integers,",
      "floats and booleans. Without expressions on the command line it reads one expression",
      "per line from standard input until an empty line or the end of input.",
      "",
      "Usage: shunt [OPTIONS] [EXPRESSIONS]...",
      "",
      "Options:",
      "  -d, --define <NAME=VALUE>  Defines a variable, for example `-d rate=0.25`",
      "      --default <VALUE>      Value used for every variable that is not defined",
      "  -v, --verbose              Logs every pipeline stage",
      "  -h, --help                 Print help",
      "  -V, --version              Print version" ]

/-- The code of a command line that cannot be read. -/
def usageCode : UInt8 := 2

/-- The outcome of the expressions of the command line, or else of those of the standard
input. -/
def Options.run (o : Options) (input : List UInt8) : Outcome :=
  if o.expressions = [] then
    let outcome := Outcome.ofReports (o.reportLines (splitLines input))
    { outcome with output := asLine prompt ++ outcome.output }
  else Outcome.ofReports (o.expressions.map o.report)

/-- What the program does with its arguments and its standard input. -/
def run (arguments : List String) (input : List UInt8) : Outcome :=
  match Request.ofArguments arguments with
  | .error e => ⟨usageCode, "", asLine e.message⟩
  | .ok .help => ⟨0, asLine helpText, ""⟩
  | .ok .version => ⟨0, asLine versionText, ""⟩
  | .ok (.evaluate options) => options.run input

end Formula.CommandLine

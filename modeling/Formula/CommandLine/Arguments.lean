import Formula.Evaluate
import Formula.Text.Printable

/-!
# The arguments of the command line

`CommandLine.Request.ofArguments` reads the words of a command line. Words are expressions,
except those that begin with a dash, which name options, and those that follow an option with
a value. Behind the word `--` every word is an expression.

The value of an option stands in the same word, behind an equals sign or the option's letter,
or is the next word that is no option. It is read when the option is *settled*: at the next
option or expression, or at the end. The first error ends the reading.
-/

namespace Formula.CommandLine

/-- An option with a value. -/
inductive ValueOption where
  /-- Defines a variable. -/
  | define
  /-- Gives a value to all variables that are not defined. -/
  | default
  deriving DecidableEq

/-- An option without a value. -/
inductive Flag where
  | verbose
  | help
  | version
  deriving DecidableEq

/-- The option as it is shown in errors. -/
def ValueOption.usage : ValueOption → String
  | define => "--define <NAME=VALUE>"
  | default => "--default <VALUE>"

/-- The option as it is shown in errors. -/
def Flag.usage : Flag → String
  | verbose => "--verbose"
  | help => "--help"
  | version => "--version"

/-- What is wrong with the value of an option. -/
inductive ValueFault where
  | noEqualsSign (text : String)
  | noName (text : String)
  /-- The value is an expression that fails. -/
  | expression (e : Error)
  deriving DecidableEq

/-- The wording of a fault in the value of an option. -/
def ValueFault.message : ValueFault → String
  | noEqualsSign text => "expected NAME=VALUE, found '" ++ text ++ "'"
  | noName text => "missing variable name in '" ++ text ++ "'"
  | expression e => e.message

/-- What is wrong with a command line. -/
inductive UsageError where
  | unexpectedArgument (word : String)
  | unexpectedValue (value : String) (flag : Flag)
  | missingValue (option : ValueOption)
  /-- An option that may be given once is given again. -/
  | repeated (usage : String)
  | invalidValue (value : String) (option : ValueOption) (fault : ValueFault)
  deriving DecidableEq

/-- What stands at the end of a message, in front of the option that tells more. -/
def adviceStart : String := "\n\nFor more information, try '"

/-- What stands at the end of a message. -/
def advice : String := adviceStart ++ Flag.help.usage ++ "'."

/-- The wording of an error in a command line, without control characters. Words that are
quoted are set in a style of their own, so a control sequence that one of them leaves open ends
with it; one that the account of a fault leaves open reaches as far as the option at the end. -/
def UsageError.message : UsageError → String
  | unexpectedArgument word =>
    "error: unexpected argument '" ++ Text.printable word ++ "' found" ++ advice
  | unexpectedValue value flag =>
    "error: unexpected value '" ++ Text.printable value ++ "' for '" ++ flag.usage
      ++ "' found; no more were expected" ++ advice
  | missingValue option =>
    "error: a value is required for '" ++ option.usage ++ "' but none was supplied" ++ advice
  | repeated usage =>
    "error: the argument '" ++ usage ++ "' cannot be used multiple times" ++ advice
  | invalidValue value option fault =>
    "error: invalid value '" ++ Text.printable value ++ "' for '" ++ option.usage ++ "'"
      ++ Text.printable (": " ++ fault.message ++ adviceStart) ++ Flag.help.usage ++ "'."

/-- What the command line says about the evaluation of its expressions. -/
structure Options where
  /-- The definitions of variables, in the order in which they were given. -/
  definitions : List (String × Value)
  fallback : Option Value
  verbose : Bool
  expressions : List String

/-- The options of an empty command line. -/
def Options.empty : Options := ⟨[], none, false, []⟩

/-- What a command line asks for. -/
inductive Request where
  | evaluate (options : Options)
  | help
  | version

/-! ### The values of options -/

/-- The value of an expression without variables. -/
def constant (text : String) : Except ValueFault Value :=
  match (evaluate Lookup.noVariables text : Evaluation Unit Error Value).run () with
  | (.ok v, _) => .ok v
  | (.error (.fault e), _) => .error (.expression e)
  | (.error (.lookup e), _) => .error (.expression e)

/-- The characters in front of the first equals sign and those behind it. -/
def splitEquals? : List Char → Option (List Char × List Char)
  | [] => none
  | '=' :: cs => some ([], cs)
  | c :: cs => (splitEquals? cs).map fun (before, behind) => (c :: before, behind)

/-- A definition: the name of a variable in normal form and the value of an expression. -/
def definition (text : String) : Except ValueFault (String × Value) :=
  match splitEquals? text.toList with
  | none => .error (.noEqualsSign text)
  | some (name, value) =>
    if Text.normalizeChars name = [] then .error (.noName text)
    else do
      return (String.ofList (Text.normalizeChars name), ← constant (String.ofList value))

/-! ### Reading the words -/

/-- An option that has been named, with its value if that has been met. -/
structure Pending where
  option : ValueOption
  value : Option String

/-- What has been read of a command line. -/
structure Reading where
  options : Options
  pending : Option Pending
  /-- Has the word been met behind which there are only expressions? -/
  trailing : Bool

/-- What ends the reading of a command line early. -/
inductive Interruption where
  | usage (e : UsageError)
  | request (r : Request)

/-- A step in the reading of a command line. -/
abbrev Step := Except Interruption

/-- Ends the reading with an error. -/
def refuse {α : Type} (e : UsageError) : Step α := .error (.usage e)

namespace Reading

/-- The reading before the first word. -/
def empty : Reading := ⟨.empty, none, false⟩

/-- The reading with the value of an option taken in. -/
def accept (r : Reading) (option : ValueOption) (value : String) : Step Reading :=
  match option with
  | .define =>
    match definition value with
    | .ok d => .ok { r with options.definitions := r.options.definitions ++ [d] }
    | .error fault => refuse (.invalidValue value option fault)
  | .default =>
    if r.options.fallback.isSome then refuse (.repeated option.usage)
    else match constant value with
      | .ok v => .ok { r with options.fallback := some v }
      | .error fault => refuse (.invalidValue value option fault)

/-- The reading with a named option settled. -/
def settle (r : Reading) : Step Reading :=
  match r.pending with
  | none => .ok r
  | some ⟨option, none⟩ => refuse (.missingValue option)
  | some ⟨option, some value⟩ => { r with pending := none }.accept option value

/-- The reading with an option that has its value in the same word. -/
def attached (r : Reading) (option : ValueOption) (value : String) : Step Reading := do
  (← r.settle).accept option value

/-- The reading with an option that is named and waits for its value. -/
def named (r : Reading) (option : ValueOption) : Step Reading := do
  return { ← r.settle with pending := some ⟨option, none⟩ }

/-- The reading with an option that has no value. -/
def flag (r : Reading) (f : Flag) : Step Reading := do
  let r ← r.settle
  match f with
  | .help => .error (.request .help)
  | .version => .error (.request .version)
  | .verbose =>
    if r.options.verbose then refuse (.repeated f.usage)
    else return { r with options.verbose := true }

/-- The reading with another expression. -/
def expression (r : Reading) (text : String) : Step Reading := do
  let r ← r.settle
  return { r with options.expressions := r.options.expressions ++ [text] }

/-- The reading with a flag named in full, behind which no value may stand. -/
def longFlag (r : Reading) (f : Flag) : Option String → Step Reading
  | none => r.flag f
  | some value => refuse (.unexpectedValue value f)

/-- The reading with an option with a value named in full. -/
def longOption (r : Reading) (option : ValueOption) : Option String → Step Reading
  | none => r.named option
  | some value => r.attached option value

/-- The reading with an option named in full, given by the characters behind its dashes. -/
def long (r : Reading) (cs : List Char) : Step Reading :=
  let (name, value) := match splitEquals? cs with
    | some (name, value) => (String.ofList name, some (String.ofList value))
    | none => (String.ofList cs, none)
  match name with
  | "define" => r.longOption .define value
  | "default" => r.longOption .default value
  | "verbose" => r.longFlag .verbose value
  | "help" => r.longFlag .help value
  | "version" => r.longFlag .version value
  | _ => refuse (.unexpectedArgument ("--" ++ name))

/-- The characters behind an option's letter, without an equals sign in front. -/
def attachedValue : List Char → String
  | '=' :: cs => String.ofList cs
  | cs => String.ofList cs

/-- The reading with options named by their letters, the last of which may be followed by its
value. -/
def letters (r : Reading) : List Char → Step Reading
  | [] => .ok r
  | 'v' :: cs => do (← r.flag .verbose).letters cs
  | 'h' :: _ => r.flag .help
  | 'V' :: _ => r.flag .version
  | ['d'] => r.named .define
  | 'd' :: cs => r.attached .define (attachedValue cs)
  | c :: _ => refuse (.unexpectedArgument (String.ofList ['-', c]))

/-- The reading with a word that is no option: the value that an option waits for, or an
expression. -/
def plain (r : Reading) (word : String) : Step Reading :=
  match r.pending with
  | some ⟨option, none⟩ => .ok { r with pending := some ⟨option, some word⟩ }
  | _ => r.expression word

/-- The reading with another word. -/
def word (r : Reading) (word : String) : Step Reading :=
  if r.trailing then r.expression word
  else match word.toList with
    | ['-', '-'] => .ok { r with trailing := true }
    | '-' :: '-' :: cs => r.long cs
    | '-' :: c :: cs => r.letters (c :: cs)
    | _ => r.plain word

end Reading

/-- What the words of a command line ask for. -/
def Request.ofArguments (words : List String) : Except UsageError Request :=
  match (do (← words.foldlM Reading.word .empty).settle : Step Reading) with
  | .ok r => .ok (.evaluate r.options)
  | .error (.request r) => .ok r
  | .error (.usage e) => .error e

end Formula.CommandLine

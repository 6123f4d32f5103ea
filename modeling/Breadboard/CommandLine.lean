import Breadboard.Demo
import Breadboard.Report

/-!
# The command line

The command runs one of the canned circuits for a number of clock cycles and
shows what became of it. `CommandLine.run` is the whole command but for the
printing.

Options that take a value accept it in the same argument behind `=`, or as
the next argument unless that looks like an option. No option may be given
twice, and there are no other arguments.
-/

namespace Breadboard.CommandLine

/-- The options that were given. A capped clock rate only slows the run down, so
it is checked and kept as it was written. -/
structure Options where
  demo : Option String := none
  steps : Option Nat := none
  rate : Option String := none
  usage : Bool := false
  json : Bool := false
  debug : Bool := false
  deriving DecidableEq, Repr

/-- What is wrong with the arguments. -/
inductive UsageError where
  | unexpected (argument : String)
  | repeated (option : String)
  | missingValue (option : String)
  | invalidValue (option value : String)
  deriving DecidableEq, Repr

def UsageError.message : UsageError → String
  | unexpected argument => s!"error: unexpected argument '{argument}' found"
  | repeated option => s!"error: the argument '--{option}' cannot be used multiple times"
  | missingValue option => s!"error: a value is required for '--{option}' but none was supplied"
  | invalidValue option value => s!"error: invalid value '{value}' for '--{option}'"

/-! ## Values -/

def isDigits (text : List Char) : Bool :=
  !text.isEmpty && text.all (·.isDigit)

/-- A count of steps: decimal digits, perhaps behind a plus sign, that fit a word. -/
def count? (text : String) : Option Nat :=
  let digits :=
    match text.toList with
    | '+' :: digits => digits
    | digits => digits
  if isDigits digits then
    let value := digits.foldl (fun value digit => 10 * value + (digit.toNat - 48)) 0
    if value < UInt64.size then some value else none
  else none

/-- Digits with at most one point, and at least one digit. -/
def isMantissa (text : List Char) : Bool :=
  match splitFirst '.' text with
  | some (whole, fraction) => isDigits (whole ++ fraction)
  | none => isDigits text

/-- Text without its sign, if it has one. -/
def unsigned : List Char → List Char
  | '+' :: rest => rest
  | '-' :: rest => rest
  | text => text

/-- Whether the text is a decimal number, perhaps with a sign, a point and an
exponent, or one of the words for infinity and not-a-number. -/
def isNumber (text : String) : Bool :=
  let body := (unsigned text.toList).map Char.toLower
  let isWord := ["inf", "infinity", "nan"].any fun word => word.toList = body
  let isDecimal :=
    match splitFirst 'e' body with
    | some (mantissa, exponent) => isMantissa mantissa && isDigits (unsigned exponent)
    | none => isMantissa body
  isWord || isDecimal

/-! ## Arguments -/

/-- Switch an option on. -/
def setFlag (options : Options) (name : String) : Except UsageError Options :=
  match name with
  | "usage" => if options.usage then .error (.repeated name) else .ok { options with usage := true }
  | "json" => if options.json then .error (.repeated name) else .ok { options with json := true }
  | "debug" => if options.debug then .error (.repeated name) else .ok { options with debug := true }
  | _ => .error (.unexpected ("--" ++ name))

/-- Give an option its value. -/
def setValue (options : Options) (name value : String) : Except UsageError Options :=
  match name with
  | "demo" =>
    if options.demo.isSome then .error (.repeated name) else .ok { options with demo := value }
  | "steps" =>
    match count? value with
    | none => .error (.invalidValue name value)
    | some steps =>
      if options.steps.isSome then .error (.repeated name)
      else .ok { options with steps := some steps }
  | "hz" =>
    if !isNumber value then .error (.invalidValue name value)
    else if options.rate.isSome then .error (.repeated name)
    else .ok { options with rate := value }
  | _ => .error (.unexpected ("--" ++ name))

def takesValue (name : String) : Bool :=
  name ∈ ["demo", "steps", "hz"]

/-- Whether an argument looks like an option, so that it is not taken as a value. -/
def looksLikeOption (argument : String) : Bool :=
  match argument.toList with
  | '-' :: _ :: _ => true
  | _ => false

/-- Read the arguments that are left. -/
def parse (options : Options) : List String → Except UsageError Options
  | [] => .ok options
  | argument :: rest =>
    match argument.toList with
    | ['-', '-'] =>
      match rest with
      | [] => .ok options
      | extra :: _ => .error (.unexpected extra)
    | '-' :: '-' :: body =>
      match splitFirst '=' body with
      | some (name, value) => do
        parse (← setValue options (String.ofList name) (String.ofList value)) rest
      | none =>
        let name := String.ofList body
        if takesValue name then
          match rest with
          | value :: rest => do
            if looksLikeOption value then throw (.missingValue name)
            parse (← setValue options name value) rest
          | [] => .error (.missingValue name)
        else do
          parse (← setFlag options name) rest
    | ['-', 'd'] => do
      parse (← setFlag options "debug") rest
    | _ => .error (.unexpected argument)

/-! ## Running -/

/-- How the command ended. -/
inductive Outcome where
  | finished (output : String) (diagnostics : List Diagnostic)
  | unknownDemo (name : String)
  | misused (error : UsageError)
  | faulty (fault : Fault)

namespace Outcome

/-- The exit status. -/
def status : Outcome → Nat
  | finished .. => 0
  | unknownDemo _ | faulty _ => 1
  | misused _ => 2

/-- What is printed. -/
def output : Outcome → String
  | finished output _ => output
  | _ => ""

/-- The messages for the error stream, in order. -/
def errors : Outcome → List String
  | finished _ diagnostics => diagnostics.map Diagnostic.message
  | unknownDemo name =>
    let names := String.intercalate ", " Demo.names
    [s!"Error: Unknown demo {name}. Try one of: {names}"]
  | misused error => [error.message]
  | faulty fault => [fault.message]

end Outcome

/-- What is shown of a circuit after its run. -/
def display (options : Options) (simulation : Simulation) : String :=
  let halt :=
    match simulation.state.status.reason? with
    | some reason => "Halted: " ++ reason ++ "\n"
    | none => ""
  let body :=
    if options.json then (Report.snapshot simulation).pretty ++ "\n"
    else Report.netTable simulation
  halt ++ body

/-- The command with the given arguments. -/
def run (arguments : List String) : Outcome :=
  match parse {} arguments with
  | .error error => .misused error
  | .ok options =>
    let name := options.demo.getD "counter"
    match Demo.schematic? name with
    | none => .unknownDemo name
    | some schematic =>
      match Simulation.start Demo.library schematic with
      | .error fault => .faulty fault
      | .ok simulation =>
        let simulation := simulation.withUsageTracking options.usage
        let finished := simulation.run (options.steps.getD 0)
        .finished (display options finished) simulation.diagnostics

end Breadboard.CommandLine

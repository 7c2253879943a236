import SymbolicAlgebra.Failure.Basic
import SymbolicAlgebra.Limits

/-!
# Settings

What the arguments of the program ask for. One table of options is the ground both for reading the
arguments and for the text that explains them.
-/

namespace SymbolicAlgebra.Session

/-- What an option sets. -/
inductive Flag where
  | var
  | grammar
  | steps
  | maxNodes
  | maxDepth
  | help
deriving DecidableEq, Repr

/-- An option as it is written and explained; `value` names what must come after it, if anything
must. -/
structure OptionEntry where
  flag : Flag
  name : String
  value : Option String
  about : String

/-- All options of the program. -/
def optionTable : List OptionEntry :=
  [⟨.var, "--var", some "LETTER", "differentiate with respect to LETTER (default `x`)"⟩,
    ⟨.grammar, "--grammar", some "FILE", "load the parser grammar from FILE"⟩,
    ⟨.steps, "--steps", none, "print the rewrite steps taken while canonicalizing"⟩,
    ⟨.maxNodes, "--max-nodes", some "N", "fail if an intermediate tree has more than N nodes"⟩,
    ⟨.maxDepth, "--max-depth", some "N",
      "fail if an expression is nested more than N levels deep"⟩,
    ⟨.help, "--help", none, "print this message and exit"⟩]

/-- An option with the name of its value. -/
def OptionEntry.pattern (o : OptionEntry) : String :=
  match o.value with
  | some value => o.name ++ " " ++ value
  | none => o.name

/-- A text filled up with blanks to a width. -/
def padded (width : Nat) (text : String) : String :=
  text ++ String.ofList (List.replicate (width - text.length) ' ')

/-- The lines of the text that explains the program. -/
def usage : List String :=
  let width := (optionTable.map fun o => o.pattern.length).foldl max 0
  ["usage: mathtree [OPTIONS] [FILE]", "", "options:"] ++
    optionTable.map fun o => "  " ++ padded width o.pattern ++ "  " ++ o.about

/-- What the program is to do. -/
structure Settings where
  /-- The variable to differentiate by. -/
  var : String := "x"
  /-- A file with the grammar to use. -/
  grammar : Option String := none
  /-- The steps are to be shown. -/
  steps : Bool := false
  limits : Limits := {}
  /-- A file with the expressions, one a line. -/
  file : Option String := none
  /-- Only the explanation is asked for. -/
  help : Bool := false
deriving DecidableEq, Repr

namespace Settings

/-- The failure to make sense of an argument. -/
def invalid (argument reason : String) : Failure := .detached (.invalidArgument argument reason)

/-- Reads a natural number below `2 ^ 64`, which may have a plus sign in front. -/
def readCount? (text : String) : Option Nat :=
  let digits :=
    match text.toList with
    | '+' :: cs => cs
    | cs => cs
  if digits.isEmpty || !digits.all Char.isDigit then none
  else
    let n := digits.foldl (fun n c => 10 * n + (c.toNat - '0'.toNat)) 0
    if n < UInt64.size then some n else none

/-- Reads a limit. -/
def readLimit (text : String) : Except Failure Nat :=
  match readCount? text with
  | some n => .ok n
  | none => .error (invalid text "expected a positive number")

/-- The text is a single letter of the English alphabet. -/
def isLetter (text : String) : Bool :=
  match text.toList with
  | [c] => c.isAlpha
  | _ => false

/-- The settings with one option set; an option without a value ignores `value`. -/
def set (s : Settings) (flag : Flag) (value : String) : Except Failure Settings :=
  match flag with
  | .var =>
    if isLetter value then .ok { s with var := value }
    else .error (invalid value "variables are single letters")
  | .grammar => .ok { s with grammar := some value }
  | .steps => .ok { s with steps := true }
  | .maxNodes => do
    let n ← readLimit value
    return { s with limits := { s.limits with maxNodes := n } }
  | .maxDepth => do
    let n ← readLimit value
    return { s with limits := { s.limits with maxDepth := n } }
  | .help => .ok { s with help := true }

/-- Reads arguments one after the other into settings. -/
def readFrom (s : Settings) : List String → Except Failure Settings
  | [] => .ok s
  | argument :: arguments =>
    if !argument.startsWith "--" then
      if s.file.isSome then .error (invalid argument "only one input file may be given")
      else readFrom { s with file := some argument } arguments
    else
      match optionTable.find? (·.name == argument) with
      | none => .error (invalid argument "unknown option")
      | some option =>
        if option.value.isNone then
          match s.set option.flag "" with
          | .error failure => .error failure
          | .ok s => readFrom s arguments
        else
          match arguments with
          | [] => .error (invalid argument "missing value")
          | value :: arguments =>
            match s.set option.flag value with
            | .error failure => .error failure
            | .ok s => readFrom s arguments

/-- The settings that the arguments of the program ask for. -/
def ofArguments (arguments : List String) : Except Failure Settings := readFrom {} arguments

end Settings

end SymbolicAlgebra.Session

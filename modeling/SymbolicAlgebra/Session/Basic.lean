import SymbolicAlgebra.Canonical
import SymbolicAlgebra.Expr.Reader
import SymbolicAlgebra.Failure.Message
import SymbolicAlgebra.Grammar.Expression
import SymbolicAlgebra.Session.FileFault
import SymbolicAlgebra.Session.Settings
import SymbolicAlgebra.Text.Location

/-!
# Sessions

What the program writes for its input. Each line of the input is an expression, and after a
semicolon it may have values for variables; the answer shows the canonical form, the derivative,
the points that neither holds for, and the values at the given point.
-/

namespace SymbolicAlgebra.Session

/-- What a run of the program leaves behind: what it writes to its two outputs, and whether it did
all it was asked for. -/
structure Outcome where
  output : String
  errors : List String
  success : Bool

/-- Lines as a text. -/
def unlines (lines : List String) : String := String.join (lines.map (· ++ "\n"))

/-- A failure as it is reported: what went wrong and, if a region of the text is to blame, where. -/
def report (f : Failure) (source : String) (text : List Char) : List String :=
  let headline := "Error: " ++ f.fault.message
  match f.spans with
  | [] => [headline]
  | span :: _ =>
    [headline, "at " ++ source ++ ":" ++ Text.locationText (Text.locate text span.start)]

/-- A computation that writes lines, and keeps those that it wrote if it fails. -/
abbrev Writing := ExceptT Failure (StateM (List String))

/-- Writes a line. -/
def write (line : String) : Writing Unit := modify fun written => written ++ [line]

variable {α : Type} [Scalar α]

/-- Reads bindings between commas, the first of which starts at a byte offset. -/
def readBindings (start : Nat) (b : Bindings α) : List (List Char) → Except Failure (Bindings α)
  | [] => .ok b
  | text :: texts =>
    let stop := start + Text.byteLength text
    let invalid := Failure.located ⟨start, stop⟩ (.invalidBinding (String.ofList text))
    match Text.splitFirst (· == '=') text with
    | none => .error invalid
    | some (name, value) =>
      match Scalar.read? (Text.trim value) with
      | none => .error invalid
      | some v =>
        if (Text.trim name).isEmpty then .error invalid
        else readBindings (stop + 1) (b.insert (String.ofList (Text.trim name)) v) texts

/-- Cuts a line into its expression and the bindings after a semicolon, if there are any. -/
def splitBindings (line : List Char) : Except Failure (String × Option (Bindings α)) :=
  match Text.splitFirst (· == ';') line with
  | none => .ok (String.ofList line, none)
  | some (source, bindings) => do
    let b ← readBindings (Text.byteLength source + 1) .empty (Text.pieces (· == ',') bindings)
    return (String.ofList source, some b)

/-- Writes the steps of a computation, if they are asked for. -/
def writeSteps (settings : Settings) (steps : List Step) : Writing Unit := do
  if settings.steps then
    modify fun written => written ++ steps.map fun step => "  " ++ step.text

/-- Answers one line of input. -/
def answer (α : Type) [Scalar α] (table : Table) (settings : Settings) (line : List Char) :
    Writing Unit := do
  let (source, bindings) ← (splitBindings line : Except Failure (String × Option (Bindings α)))
  let e ← (Expr.read table settings.limits source : Except Failure (Expr α))
  let canonical ← e.canonicalize settings.limits
  write ("Representation: " ++ canonical.expr.text)
  writeSteps settings canonical.steps
  write ("Exclusions: " ++ canonical.exclusions.text)
  let slope ← canonical.expr.differentiate settings.limits settings.var
  let slopeExclusions := slope.exclusions.extend canonical.exclusions
  write ("Derivative: " ++ slope.expr.text)
  writeSteps settings slope.steps
  write ("Derivative exclusions: " ++ slopeExclusions.text)
  match bindings with
  | none => return
  | some b =>
    write ("Value: " ++ Scalar.text (← canonical.exclusions.valueOutside canonical.expr b))
    write ("Slope: " ++ Scalar.text (← slopeExclusions.valueOutside slope.expr b))

/-- Answers one line of input, with the line itself in front. -/
def answerLine (α : Type) [Scalar α] (table : Table) (settings : Settings) (line : List Char) :
    Outcome :=
  let (result, written) := (answer α table settings line).run.run []
  let output := unlines (("> " ++ String.ofList line) :: written)
  match result with
  | .ok _ => ⟨output, [], true⟩
  | .error failure => ⟨output, report failure "input" line, false⟩

/-- Answers all lines of an input that are not blank. -/
def answerAll (α : Type) [Scalar α] (table : Table) (settings : Settings) (input : String) :
    Outcome :=
  let lines := (Text.lines input.toList).filter fun line => !(Text.trim line).isEmpty
  let outcomes := lines.map (answerLine α table settings)
  ⟨String.join (outcomes.map Outcome.output), outcomes.flatMap Outcome.errors,
    outcomes.all Outcome.success⟩

/-- A file cannot be read. -/
def unreadable (path : String) (fault : FileFault) : Outcome :=
  ⟨"", ["cannot read " ++ path ++ ": " ++ fault.text], false⟩

/-- The input cannot be read. -/
def unreadableInput (fault : FileFault) : Outcome := ⟨"", [fault.text], false⟩

/-- The table of the grammar in a file, or of the grammar of expressions. -/
def loadTable {m : Type → Type} [Monad m] (readFile : String → m (Except FileFault String))
    (settings : Settings) : m (Except Outcome Table) := do
  match settings.grammar with
  | none =>
    return Table.expression.mapError fun failure => ⟨"", report failure "grammar" [], false⟩
  | some path =>
    match ← readFile path with
    | .error fault => return .error (unreadable path fault)
    | .ok text =>
      let table := do Table.build (← Grammar.read text) Token.alphabet
      return table.mapError fun failure => ⟨"", report failure path text.toList, false⟩

/-- Runs the program with the given arguments. -/
def run (α : Type) [Scalar α] {m : Type → Type} [Monad m]
    (readFile : String → m (Except FileFault String)) (readInput : m (Except FileFault String))
    (arguments : List String) : m Outcome := do
  match Settings.ofArguments arguments with
  | .error failure => return ⟨"", report failure "arguments" [] ++ usage, false⟩
  | .ok settings =>
    if settings.help then return ⟨unlines usage, [], true⟩
    match ← loadTable readFile settings with
    | .error outcome => return outcome
    | .ok table =>
      match settings.file with
      | none =>
        match ← readInput with
        | .error fault => return unreadableInput fault
        | .ok input => return answerAll α table settings input
      | some path =>
        match ← readFile path with
        | .error fault => return unreadable path fault
        | .ok input => return answerAll α table settings input

end SymbolicAlgebra.Session

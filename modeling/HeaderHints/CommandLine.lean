import HeaderHints.Suggestion.Batch
import HeaderHints.Suggestion.Json

/-!
# The command line

What the program prints for its arguments. Files are read through a function, in whatever monad it
runs, at the moment when their contents are needed: first the arguments are checked, then the source
is read, and then the suggestions.
-/

namespace HeaderHints.CommandLine

/-- What a run prints and the code it exits with. -/
structure Outcome where
  /-- Standard output. -/
  out : Text := []
  /-- Standard error. -/
  err : Text := []
  /-- Exit code. -/
  code : Nat := 0

/-- Why a file could not be read. -/
inductive ReadFailure where
  /-- There is no such file. -/
  | missing
  /-- The file may not be read. -/
  | forbidden
  /-- The file is not UTF-8. -/
  | notText
  /-- Any other reason, in the words of the system. -/
  | other (reason : Text)

/-- What is printed when the file at a path could not be read. -/
def ReadFailure.message (path : Text) : ReadFailure → Text
  | missing => "cannot find file '".toList ++ path ++ "'".toList
  | forbidden => "permission denied reading '".toList ++ path ++ "'".toList
  | notText => "'".toList ++ path ++ "' contains invalid UTF-8 data".toList
  | other reason => "error reading '".toList ++ path ++ "': ".toList ++ reason

/-! ### Fixed texts -/

/-- Lines of text, each with a line feed. -/
def unlines (lines : List String) : Text :=
  lines.flatMap fun line => line.toList ++ ['\n']

/-- The options of the command that fills in headers. -/
def optionLines : List String :=
  ["  --replace               Replace headers instead of inserting above them",
    "  --comment-prefix=<p>    Prefix for error comments (default: '# types: ')",
    "  --apply                 Print the whole file with suggestions applied"]

/-- The overview of all commands. -/
def usage : Text :=
  unlines <|
    ["Python signature annotation from collected types",
      "",
      "Usage: sigfill <command> [options]",
      "",
      "Commands:",
      "  annotate <file.py> <suggestions.json>   Turn suggestions into header edits",
      "  tokens <file.py> <line>                 Show the tokens of a function header",
      "  help                                    Show this help message",
      "  version                                 Show version information",
      "",
      "Annotate options:"] ++ optionLines ++
    ["",
      "Line numbers are 1-based. Files are never modified.",
      "Set RUST_LOG=sigfill=debug to trace what happens."]

/-- How the command that fills in headers is used. -/
def fillUsage : Text :=
  unlines <|
    ["Usage: sigfill annotate <file.py> <suggestions.json> [options]",
      "",
      "Options:"] ++ optionLines

/-- How the command that shows tokens is used. -/
def tokensUsage : Text :=
  unlines ["Usage: sigfill tokens <file.py> <line>"]

/-- Name and version of the program. -/
def version : Text :=
  unlines ["sigfill 0.1.0"]

/-- A run that fails with a line on standard error. -/
def failure (message : Text) : Outcome :=
  { err := message ++ ['\n'], code := 1 }

/-! ### Arguments -/

/-- The options of the command that fills in headers. -/
structure Options where
  /-- How suggestions are written. -/
  style : Style := {}
  /-- Whether the whole file is printed. -/
  apply : Bool := false

/-- The options given by arguments, or the first argument that is none. -/
def Options.parse (options : Options) : List Text → Except Text Options
  | [] => .ok options
  | arg :: args =>
    if arg = "--replace".toList then
      parse { options with style := { options.style with replace := true } } args
    else if arg = "--apply".toList then
      parse { options with apply := true } args
    else
      match Text.after? "--comment-prefix=".toList arg with
      | some lead => parse { options with style := { options.style with commentLead := lead } } args
      | none => .error arg

/-- The line number that an argument stands for: digits, perhaps after a plus sign. -/
def lineNumber? (arg : Text) : Option Nat :=
  let digits := (Text.after? ['+'] arg).getD arg
  if digits.isEmpty || !digits.all Char.isDigit then none
  else
    let n := Decimal.value digits
    if n < Decimal.wordSize then some n else none

/-! ### Commands -/

/-- The report of an edit to the file at a path. -/
def report (path : Text) (edit : Edit) : Text :=
  path ++ [':'] ++ Decimal.write (edit.startLine + 1) ++ ": ".toList ++
    (if edit.replace then "replace ".toList ++ Decimal.write edit.lineCount ++ " line(s)".toList
      else "insert".toList) ++
    ['\n'] ++ edit.text

/-- Print the edits for a document, or the document with the edits applied. -/
def fill (path : Text) (options : Options) (d : Document) (suggestions : List Suggestion) :
    Outcome :=
  let edits := Suggestion.edits suggestions d options.style
  if options.apply then
    { out := Edit.applyAll edits d }
  else if edits.isEmpty then
    { err := path ++ ": nothing to change\n".toList }
  else
    { out := edits.flatMap (report path) }

/-- Fill suggestions into a document. Their lines count from one. -/
def fillFrom (path suggestionsPath : Text) (options : Options) (d : Document) (json : Text) :
    Outcome :=
  match Suggestion.decode json with
  | none =>
    failure <| "error: '".toList ++ suggestionsPath ++
      "' is not a list of suggestions: unexpected JSON".toList
  | some suggestions =>
    fill path options d (suggestions.map fun s => { s with line := s.line - 1 })

/-- Print the tokens of the header at a line, counted from one. -/
def tokens (path : Text) (line : Nat) (d : Document) : Outcome :=
  match (Header.read d.source (line - 1)).1 with
  | .ok header =>
    { out := (header.tokens.flatMap fun t => t.display ++ ['\n']) ++ ['\n'] ++
        "header spans ".toList ++ Decimal.write header.lineCount ++ " line(s)\n".toList }
  | .error e =>
    failure (path ++ [':'] ++ Decimal.write line ++ ": ".toList ++ e.fault.message)

section Run

variable {m : Type → Type} [Monad m] (read : Text → m (Except ReadFailure Text))

/-- Go on with the contents of a file. -/
def withFile (path : Text) (use : Text → m Outcome) : m Outcome := do
  match ← read path with
  | .ok contents => use contents
  | .error e => return failure (e.message path)

/-- Run the program on its arguments. -/
def run (args : List Text) : m Outcome := do
  match args with
  | [] => return { out := usage }
  | command :: args =>
    if command = "annotate".toList then
      match args with
      | path :: suggestionsPath :: rest =>
        match Options.parse {} rest with
        | .error arg => return failure ("error: unknown option '".toList ++ arg ++ "'".toList)
        | .ok options =>
          withFile read path fun source =>
            withFile read suggestionsPath fun json =>
              return fillFrom path suggestionsPath options (.ofText source) json
      | _ => return { err := fillUsage, code := 1 }
    else if command = "tokens".toList then
      match args with
      | path :: line :: _ =>
        match lineNumber? line with
        | none => return failure ("error: '".toList ++ line ++ "' is not a line number".toList)
        | some n => withFile read path fun source => return tokens path n (.ofText source)
      | _ => return { err := tokensUsage, code := 1 }
    else if ["help".toList, "--help".toList, "-h".toList].contains command then
      return { out := usage }
    else if ["version".toList, "--version".toList, "-v".toList].contains command then
      return { out := version }
    else
      let complaint := "Unknown command: ".toList ++ command ++ "\n\n".toList
      return { out := usage, err := complaint, code := 1 }

end Run

end HeaderHints.CommandLine

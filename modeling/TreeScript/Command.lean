import TreeScript.Code.Listing
import TreeScript.Files
import TreeScript.Json.Writer
import TreeScript.Session

set_option autoImplicit false

/- The command line: its arguments, and what it does with them. -/
namespace TreeScript.Command

/-- Where the tree is read from. -/
inductive Input where
  | file (path : String)
  | stdin
  deriving Repr, DecidableEq

inductive Action where
  | version
  | help
  | list (input : Input)
  | run (input : Input) (callLimit : Nat) (json : Bool)
  deriving Repr, DecidableEq

/-- The arguments seen so far. -/
structure Options where
  path : Option String
  listing : Bool
  callLimit : Option Nat
  json : Bool
  deriving Repr, DecidableEq

def Options.initial : Options := ⟨none, false, none, false⟩

def Options.action (o : Options) : Action :=
  let input := match o.path with
    | some path => if path == "-" then .stdin else .file path
    | none => .stdin
  if o.listing then .list input
  else .run input (o.callLimit.getD Config.default.callLimit) o.json

/-- A 64-bit number, with or without a plus sign. -/
def readCount (text : String) : Option Nat :=
  let digits := match text.toList with
    | '+' :: rest => rest
    | cs => cs
  if !digits.isEmpty && digits.all Char.isDigit && digitsToNat digits < 18446744073709551616 then
    some (digitsToNat digits)
  else none

/-- One path, not empty. -/
def Options.withPath (o : Options) (path : String) : Option Options :=
  if o.path.isSome || path == "" then none else some { o with path := some path }

def Options.withLimit (o : Options) (text : String) : Option Options :=
  if o.callLimit.isSome then none
  else (readCount text).map fun n => { o with callLimit := some n }

/-- Reads arguments after the mark that ends options. -/
def readPaths (o : Options) : List String → Option Action
  | [] => some o.action
  | path :: rest => do readPaths (← o.withPath path) rest

/-- Reads arguments from left to right; `none` is wrong usage. -/
def readArguments (o : Options) : List String → Option Action
  | [] => some o.action
  | "--" :: rest => readPaths o rest
  | "--version" :: _ => some .version
  | "--help" :: _ => some .help
  | "--dump-ir" :: rest =>
      if o.listing then none else readArguments { o with listing := true } rest
  | "--json" :: rest => if o.json then none else readArguments { o with json := true } rest
  | "--max-call-depth" :: text :: rest => do readArguments (← o.withLimit text) rest
  | argument :: rest => do
      match argument.toList with
      | ['-'] => readArguments (← o.withPath argument) rest
      | '-' :: 'V' :: _ => some .version
      | '-' :: 'h' :: _ => some .help
      | '-' :: _ =>
          let option := "--max-call-depth=".toList
          if option.isPrefixOf argument.toList then
            readArguments (← o.withLimit (String.ofList (argument.toList.drop option.length))) rest
          else none
      | _ => readArguments (← o.withPath argument) rest

/-- What a command leaves behind. -/
structure Result where
  exitCode : Nat
  stdout : String
  stderr : String
  deriving Repr, DecidableEq

/-- The error line of a stage, its label in bold red. -/
def errorLine (stage message : String) : String :=
  "\x1b[31m\x1b[1m" ++ stage ++ " error\x1b[0m\x1b[39m: " ++ message ++ "\n"

def failed (e : EvalError) : Result := ⟨1, "", errorLine e.stage e.message⟩

def runTree (callLimit : Nat) (json : Bool) (stdin : List String) (tree : Node) : Result :=
  let session := Session.start { Config.default with callLimit } stdin
  match session.evaluate tree with
  | (.ok outcome, s) =>
      let shown := if json then outcome.toJson.write ++ "\n" else ""
      ⟨0, s.stdout.text ++ shown, s.stderr.text⟩
  | (.error e, s) =>
      let told := match e with
        | .runtime (.script _) => ""
        | e => errorLine e.stage e.message
      ⟨1, s.stdout.text, s.stderr.text ++ told⟩

def listTree (tree : Node) : Result :=
  match Compile.program tree with
  | .ok p => ⟨0, p.listing, ""⟩
  | .error e => failed (.compile e)

/-- The lines of a text, without their ends. -/
def inputLines (text : String) : List String :=
  let isEnd (c : Char) : Bool := c == '\n' || c == '\r'
  let pieces := text.toList.splitOn '\n'
  let lines := match pieces.getLast? with
    | some [] => pieces.dropLast
    | _ => pieces
  lines.map fun line => String.ofList (line.reverse.dropWhile isEnd).reverse

/-- Reads the tree and goes on with it and the lines that are left of the standard input. -/
def withTree (openPath : String → Opened) (stdin : String) (input : Input)
    (go : List String → Node → Result) : Result :=
  match input with
  | .stdin =>
      match Tree.ofText stdin with
      | some tree => go [] tree
      | none => failed .malformed
  | .file path =>
      match openPath path with
      | .error e => ⟨1, "", errorLine "Load" ("I/O error: " ++ e.message)⟩
      | .ok text =>
          match text.bind Tree.ofText with
          | some tree => go (inputLines stdin) tree
          | none => failed .malformed

def versionText : String := "ember 0.1.0\n"

def helpText : String :=
  "Usage: ember [OPTIONS] [FILE]\n\n" ++
  "  [FILE]                    syntax tree in JSON; - or none reads the standard input\n" ++
  "  --dump-ir                 print the compiled code instead of running it\n" ++
  "  --max-call-depth <COUNT>  how deep calls may nest\n" ++
  "  --json                    print the result as JSON after the output\n" ++
  "  -h, --help                print this text\n" ++
  "  -V, --version             print the version\n"

/-- Runs the command with the files that `openPath` finds and the whole standard input. -/
def execute (openPath : String → Opened) (stdin : String) : Action → Result
  | .version => ⟨0, versionText, ""⟩
  | .help => ⟨0, helpText, ""⟩
  | .list input => withTree openPath stdin input fun _ => listTree
  | .run input callLimit json => withTree openPath stdin input (runTree callLimit json)

end TreeScript.Command

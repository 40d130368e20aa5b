import TreeScript.Command

set_option autoImplicit false

/- The program: reads files and the standard input, and prints what the command leaves behind. -/
namespace TreeScript.Command

/-- What a failed read says about the path. A directory opens, but gives no text. -/
def openedOfError : IO.Error → Opened
  | .inappropriateType _ 21 _ => .ok none
  | .inappropriateType .. => .error .notADirectory
  | .noFileOrDirectory .. => .error .missing
  | .invalidArgument .. => .error .nameTooLong
  | .permissionDenied .. => .error (.other "Permission denied" 13)
  | e => .error (.other (toString e) 5)

def openFile (path : String) : IO Opened := do
  try pure (.ok (String.fromUTF8? (← IO.FS.readBinFile path)))
  catch e => pure (openedOfError e)

end TreeScript.Command

open TreeScript in
def main (arguments : List String) : IO UInt32 := do
  match Command.readArguments .initial arguments with
  | none =>
      (← IO.getStderr).putStr Command.helpText
      pure 2
  | some action =>
      let opened ← match action with
        | .list (.file path) | .run (.file path) _ _ => Command.openFile path
        | _ => pure (.ok none)
      let input ← match action with
        | .version | .help => pure ""
        | _ => (← IO.getStdin).readToEnd
      let result := Command.execute (fun _ => opened) input action
      (← IO.getStdout).putStr result.stdout
      (← IO.getStderr).putStr result.stderr
      pure (UInt32.ofNat result.exitCode)

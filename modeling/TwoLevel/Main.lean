import TwoLevel.Session

/-! The command line program. It reads bytes, hands lines to `Session`, and writes what
that returns; the log goes to the error output. -/

set_option autoImplicit false

open TwoLevel

/-- Write text at once, without waiting for the end of a line. -/
def put (stream : IO.FS.Stream) (text : String) : IO Unit := do
  stream.putStr text
  stream.flush

def putLog (options : Options) (events : List Event) : IO Unit := do
  let errors ← IO.getStderr
  for record in Event.shown (Session.threshold options.verbosity) events do
    put errors (record.severity.name ++ " " ++ record.text ++ "\n")

/-- Read bytes up to the end of a line. At the end of the input there are none. -/
partial def readLine (stream : IO.FS.Stream) (sofar : List UInt8) : IO (List UInt8) := do
  let bytes ← stream.read 1
  match bytes.toList with
  | [] => return sofar.reverse
  | byte :: _ => if byte = 10 then return (byte :: sofar).reverse else readLine stream (byte :: sofar)

/-- Answer lines until there are no more, and return the exit code. -/
partial def converseLive (options : Options) (input output : IO.FS.Stream) : IO UInt32 := do
  put output Session.prompt
  let line ← readLine input []
  if line.isEmpty then
    put output "\n"
    return 0
  match Session.turn options line with
  | .leave => return 0
  | .failed error =>
    (← IO.getStderr).putStr (Session.inputError error)
    return 1
  | .reply events text =>
    putLog options events
    put output text
    converseLive options input output

def readFile (path : String) : IO (Except SourceError (List UInt8)) := do
  try
    return .ok (← IO.FS.readBinFile path).toList
  catch _ =>
    return .error .notFound

/-- Answer the entries of a file, and return the exit code. -/
def answerFileLive (options : Options) (path : String) (output : IO.FS.Stream) : IO UInt32 := do
  match (← readFile path).bind Definition.readAll with
  | .error error =>
    (← IO.getStderr).putStr (Session.unreadable path error)
    return 1
  | .ok entries =>
    for entry in entries do
      let (events, text) := Session.answerEntry options entry
      putLog options events
      put output text
    return 0

def main (arguments : List String) : IO UInt32 := do
  let output ← IO.getStdout
  match Invocation.ofArguments arguments with
  | .misuse =>
    (← IO.getStderr).putStr Session.misuseText
    return 2
  | .version =>
    put output Session.versionText
    return 0
  | .help =>
    put output Session.helpText
    return 0
  | .run options =>
    match options.file? with
    | some path => answerFileLive options path output
    | none => converseLive options (← IO.getStdin) output

import TwoLevel.Settings
import TwoLevel.Text.Number

/-! Options of the command line. Arguments are taken from left to right. Single letters
may be bundled behind one dash, two dashes end the options, and every other argument is
the file to read, of which there can be one. -/

set_option autoImplicit false

namespace TwoLevel

structure Options where
  /-- The file with the definitions; without one they are read interactively. -/
  file? : Option String := none
  tree : Bool := false
  /-- How often more log output was asked for. -/
  verbosity : Nat := 0
  settings : Settings := {}
  deriving DecidableEq, Repr

inductive Invocation where
  | run (options : Options)
  | version
  | help
  | misuse
  deriving DecidableEq, Repr

namespace Options

/-- The outcome of one option: go on with changed options, or stop. -/
inductive Step where
  | go (options : Options)
  | stop (invocation : Invocation)

def setTree (o : Options) : Step := if o.tree then .stop .misuse else .go { o with tree := true }

def setTraceColumns (o : Options) : Step :=
  if o.settings.traceColumns then .stop .misuse
  else .go { o with settings := { o.settings with traceColumns := true } }

def setCoverLimit (o : Options) (value : List Char) : Step :=
  match o.settings.coverLimit, Text.readNumber? value with
  | none, some limit => .go { o with settings := { o.settings with coverLimit := some limit } }
  | _, _ => .stop .misuse

def setFile (o : Options) (path : String) : Step :=
  if o.file?.isSome || path.isEmpty then .stop .misuse else .go { o with file? := some path }

/-- Single letters behind one dash. -/
def letters (o : Options) : List Char → Step
  | [] => .go o
  | 't' :: rest =>
    match o.setTree with
    | .go next => next.letters rest
    | stop => stop
  | 'v' :: rest => letters { o with verbosity := o.verbosity + 1 } rest
  | 'V' :: _ => .stop .version
  | 'h' :: _ => .stop .help
  | _ :: _ => .stop .misuse

/-- An option with a long name, and the value behind an equals sign if there is one. -/
def long (o : Options) (name : String) (value? : Option (List Char)) : Step :=
  match name, value? with
  | "tree", none => o.setTree
  | "verbose", none => .go { o with verbosity := o.verbosity + 1 }
  | "trace-columns", none => o.setTraceColumns
  | "max-cover-candidates", some value => o.setCoverLimit value
  | "version", none => .stop .version
  | "help", none => .stop .help
  | _, _ => .stop .misuse

/-- One argument that needs no other one. -/
def argument (o : Options) (text : String) : Step :=
  match text.toList with
  | '-' :: '-' :: word =>
    let name := word.takeWhile (· ≠ '=')
    o.long (String.ofList name) (word.dropWhile (· ≠ '=')).tail?
  | '-' :: first :: rest => o.letters (first :: rest)
  | _ => o.setFile text

def files (o : Options) : List String → Invocation
  | [] => .run o
  | text :: rest =>
    match o.setFile text with
    | .go next => next.files rest
    | .stop invocation => invocation

/-- An argument that can be the value of the option before it. -/
def isValue (text : String) : Bool := text.toList.head? != some '-'

def arguments (o : Options) : List String → Invocation
  | [] => .run o
  | "--" :: rest => o.files rest
  | "--max-cover-candidates" :: value :: rest =>
    if isValue value then
      match o.setCoverLimit value.toList with
      | .go next => next.arguments rest
      | .stop invocation => invocation
    else .misuse
  | text :: rest =>
    match o.argument text with
    | .go next => next.arguments rest
    | .stop invocation => invocation

end Options

def Invocation.ofArguments (arguments : List String) : Invocation := ({} : Options).arguments arguments

end TwoLevel

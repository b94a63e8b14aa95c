import TarGuard.Path.Basic

namespace TarGuard.CommandLine

inductive Command
  | extract (archive directory : Path) (program : Option String)
  | list (archive : Path)
  | pack (archive : Path) (files : List Path)
  deriving DecidableEq, Repr

inductive Notice
  | usageError
  | help
  | version
  deriving DecidableEq, Repr

-- What an argument looks like. A lone hyphen is a value.
inductive Argument
  | escape
  | long (name : List Char) (value : Option (List Char))
  | short (flags : List Char)
  | value (text : String)
  deriving DecidableEq

def Argument.ofText (s : String) : Argument :=
  match s.toList with
  | ['-', '-'] => escape
  | '-' :: '-' :: cs =>
    long (cs.takeWhile (· ≠ '='))
      (if '=' ∈ cs then some ((cs.dropWhile (· ≠ '=')).drop 1) else none)
  | '-' :: c :: cs => short (c :: cs)
  | _ => value s

structure Shape where
  least : Nat
  most : Option Nat
  takesProgram : Bool := false

-- What was read of a command's arguments. The values are in reverse order.
structure Reading where
  verbose : Bool := false
  program : Option String := none
  values : List String := []
  -- The next argument is to name the program.
  awaitsProgram : Bool := false
  -- There was `--`, behind which there are only values.
  onlyValues : Bool := false

namespace Reading

def setVerbose (r : Reading) : Except Notice Reading :=
  if r.verbose then .error .usageError else .ok { r with verbose := true }

def setProgram (shape : Shape) (program : Option String) (r : Reading) : Except Notice Reading :=
  if shape.takesProgram ∧ r.program = none then
    .ok { r with program := program, awaitsProgram := program.isNone }
  else
    .error .usageError

def addValue (shape : Shape) (s : String) (r : Reading) : Except Notice Reading :=
  if s ≠ "" ∧ shape.most.all (r.values.length < ·) then .ok { r with values := s :: r.values }
  else .error .usageError

def addFlag (r : Reading) (c : Char) : Except Notice Reading :=
  match c with
  | 'v' => r.setVerbose
  | 'h' => .error .help
  | _ => .error .usageError

def addLong (shape : Shape) (name : String) (value : Option String) (r : Reading) :
    Except Notice Reading :=
  match name, value with
  | "verbose", none => r.setVerbose
  | "help", none    => .error .help
  | "exec", program => r.setProgram shape program
  | _, _            => .error .usageError

def add (shape : Shape) (r : Reading) (s : String) : Except Notice Reading :=
  if r.onlyValues then
    r.addValue shape s
  else
    match r.awaitsProgram, Argument.ofText s with
    | true, .value program => { r with awaitsProgram := false }.setProgram shape (some program)
    | true, _              => .error .usageError
    | false, .escape       => .ok { r with onlyValues := true }
    | false, .value s      => r.addValue shape s
    | false, .short flags  => flags.foldlM addFlag r
    | false, .long name value => r.addLong shape (.ofList name) (value.map String.ofList)

def IsComplete (shape : Shape) (r : Reading) : Prop :=
  shape.least ≤ r.values.length ∧ r.awaitsProgram = false

instance (shape : Shape) (r : Reading) : Decidable (r.IsComplete shape) := by
  unfold IsComplete
  infer_instance

end Reading

def readArguments (shape : Shape) (args : List String) :
    Except Notice (List String × Option String) := do
  let r ← args.foldlM (Reading.add shape) {}
  if r.IsComplete shape then
    return (r.values.reverse, r.program)
  else
    .error .usageError

def helpOn (names : List String) : Notice :=
  match names with
  | [] | ["extract"] | ["list"] | ["pack"] | ["help"] => .help
  | _ => .usageError

def readCommand (name : String) (args : List String) : Except Notice Command :=
  match name with
  | "extract" => do
    match ← readArguments ⟨2, some 2, true⟩ args with
    | ([archive, directory], program) => return .extract ⟨archive⟩ ⟨directory⟩ program
    | _ => .error .usageError
  | "list" => do
    match ← readArguments ⟨1, some 1, false⟩ args with
    | ([archive], _) => return .list ⟨archive⟩
    | _ => .error .usageError
  | "pack" => do
    match ← readArguments ⟨2, none, false⟩ args with
    | (archive :: files, _) => return .pack ⟨archive⟩ (files.map Path.mk)
    | _ => .error .usageError
  | "help" => .error (helpOn args)
  | _ => .error .usageError

def addGlobalFlag (verbose : Bool) (c : Char) : Except Notice Bool :=
  match c with
  | 'v' => if verbose then .error .usageError else .ok true
  | 'h' => .error .help
  | 'V' => .error .version
  | _ => .error .usageError

def readFrom (verbose : Bool) : List String → Except Notice Command
  | [] => .error .usageError
  | s :: rest =>
    match Argument.ofText s with
    | .value name => readCommand name rest
    | .short flags => do readFrom (← flags.foldlM addGlobalFlag verbose) rest
    | .long name none =>
      match String.ofList name with
      | "verbose" => do readFrom (← addGlobalFlag verbose 'v') rest
      | "help" => .error .help
      | "version" => .error .version
      | _ => .error .usageError
    | _ => .error .usageError

def Command.ofArguments (args : List String) : Except Notice Command :=
  readFrom false args

end TarGuard.CommandLine

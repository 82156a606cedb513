import SecureArith.Settings

set_option autoImplicit false

/-!
# Commands

A command is a name and options with a value each, written `-i FILE`, `-iFILE`, `-i=FILE`,
`--input FILE` or `--input=FILE`. Each option is given once at most.
-/

namespace SecureArith.CommandLine

inductive Command where
  | optimize (input : String) (preset : Preset) (settings output : Option String)
  | encode (input function : String) (output : Option String)
  | inspect (input : String) (function : Option String)
  | decode (encoding : String) (input : Option String)
  deriving DecidableEq, Repr

/-- What an option's value may be. -/
inductive Domain where
  /-- A path is not empty. -/
  | path
  | text
  | preset
  deriving DecidableEq, Repr

def Domain.admits : Domain → String → Bool
  | .path, value => !value.isEmpty
  | .text, _ => true
  | .preset, value => (Preset.ofName? value).isSome

structure Flag where
  short : Char
  long : String
  domain : Domain
  deriving DecidableEq, Repr

/-- One argument: an option, with the value that was written in the same word, or a word. -/
inductive Word where
  | flag (f : Flag) (value : Option String)
  | plain (value : String)
  | unknown
  deriving DecidableEq, Repr

namespace Word

/-- The part before the first `=`, and the part after it if there is one. -/
def splitValue (cs : List Char) : List Char × Option String :=
  match cs.dropWhile (· != '=') with
  | [] => (cs, none)
  | _ :: value => (cs.takeWhile (· != '='), some (String.ofList value))

def ofFlag (f : Option Flag) (value : Option String) : Word :=
  match f with
  | some f => .flag f value
  | none => .unknown

def read (flags : List Flag) (arg : String) : Word :=
  match arg.toList with
  | '-' :: '-' :: rest =>
    let (name, value) := splitValue rest
    ofFlag (flags.find? (·.long.toList == name)) value
  | '-' :: c :: rest =>
    let value := match rest with
      | [] => none
      | '=' :: value => some (String.ofList value)
      | value => some (String.ofList value)
    ofFlag (flags.find? (·.short == c)) value
  | _ => .plain arg

end Word

/-- The values of the options, or nothing if the arguments are misused. -/
def readFlags (flags : List Flag) : List String → Option (List (Flag × String))
  | [] => some []
  | ["--"] => some []
  | arg :: rest =>
    match Word.read flags arg with
    | .flag f (some value) => add f value (readFlags flags rest)
    | .flag f none =>
      match rest with
      | value :: rest =>
        match Word.read flags value with
        | .plain value => add f value (readFlags flags rest)
        | _ => none
      | [] => none
    | _ => none
where
  /-- Refuses an option that is given again, and a value that it does not admit. -/
  add (f : Flag) (value : String) : Option (List (Flag × String)) → Option (List (Flag × String))
    | some given =>
      if f.domain.admits value && !given.any (·.1 == f) then some ((f, value) :: given) else none
    | none => none

namespace Flag

def input : Flag := ⟨'i', "input", .path⟩

def level : Flag := ⟨'l', "level", .preset⟩

def settings : Flag := ⟨'c', "config", .path⟩

def output : Flag := ⟨'o', "output", .path⟩

def function : Flag := ⟨'f', "function", .text⟩

def encoding : Flag := ⟨'e', "encoding", .path⟩

end Flag

def Command.read : List String → Option Command
  | "optimize" :: args => do
    let given ← readFlags [.input, .level, .settings, .output] args
    let preset := ((given.lookup .level).bind Preset.ofName?).getD .basic
    return .optimize (← given.lookup .input) preset (given.lookup .settings) (given.lookup .output)
  | "encode" :: args => do
    let given ← readFlags [.input, .function, .output] args
    return .encode (← given.lookup .input) (← given.lookup .function) (given.lookup .output)
  | "inspect" :: args => do
    let given ← readFlags [.input, .function, .encoding] args
    match given.lookup .encoding with
    | some encoding => return .decode encoding (given.lookup .input)
    | none => return .inspect (← given.lookup .input) (given.lookup .function)
  | _ => none

def Command.inputs : Command → List String
  | .optimize input _ settings _ => input :: settings.toList
  | .encode input .. | .inspect input _ => [input]
  | .decode encoding input => encoding :: input.toList

end SecureArith.CommandLine

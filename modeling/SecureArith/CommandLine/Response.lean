import SecureArith.CommandLine.Command
import SecureArith.Description.Lowering
import SecureArith.Encoding.Decode
import SecureArith.Optimizer

set_option autoImplicit false

/-!
# Responses

What a command prints, and the file that it writes at the end. A failure is a list of causes, the
outermost first.
-/

namespace SecureArith.CommandLine

inductive Cause where
  | text (message : String)
  /-- A text that is not the JSON of what it should hold. -/
  | json
  deriving DecidableEq, Repr

abbrev Causes := List Cause

structure Output where
  path : String
  content : String
  /-- Printed when it is written. -/
  success : String
  /-- The cause when it cannot be written. -/
  failure : String
  deriving DecidableEq, Repr

structure Response where
  lines : List String := []
  causes : Causes := []
  output : Option Output := none
  deriving DecidableEq, Repr

/-- Printed lines, kept when there is a failure. -/
abbrev Printing := ExceptT Causes (StateM (List String))

/-- The content of a file, or why it cannot be read. -/
abbrev Files := String → Except String String

namespace Printing

def say (line : String) : Printing Unit := modify (· ++ [line])

def fail {α : Type} (causes : Causes) : Printing α := throw causes

def content (files : Files) (path what : String) : Printing String :=
  match files path with
  | .ok content => return content
  | .error reason => fail [.text (what ++ path), .text reason]

def program (files : Files) (path : String) : Printing Program := do
  let text ← content files path "Failed to read module file: "
  match Program.ofText text with
  | .ok p => return p
  | .error e =>
    let cause := match e with
      | .unreadable => Cause.json
      | .invalid e => .text e.message
    fail [.text ("Invalid module file: " ++ path), .text e.stage, cause]

def settings (files : Files) (path : String) : Printing Settings := do
  let text ← content files path "Failed to read config file "
  match Settings.load text with
  | some s => return s
  | none => fail [.text "Failed to parse config file", .json]

def showFunction (p : Program) (f : Function) : Printing Unit := do
  say ("fn " ++ f.name ++ ":")
  f.body.forM fun i => say ("    " ++ (p.instructionText? i).getD "")

def optimize (files : Files) (input : String) (preset : Preset)
    (settingsPath output : Option String) : Printing (Option Output) := do
  say ("Reading module: " ++ input)
  let p ← program files input
  let s ← match settingsPath with
    | some path => settings files path
    | none => pure (Settings.ofPreset preset)
  match Work.run s { program := p } with
  | .error f _ => fail [.text f.message]
  | .ok o b =>
    b.program.functions.toList.forM (showFunction b.program)
    o.reports.forM fun r =>
      say (s!"  {r.name}: {r.regenerated} rewritten, {r.chains} matmul chains, " ++
        s!"{r.nodes} nodes / {r.edges} edges")
    say o.stats.toJson.pretty
    return output.map fun path =>
      { path, content := o.toJson.pretty, success := "Output written to: " ++ path,
        failure := "Failed to write output file: " ++ path }

def encode (files : Files) (input function : String) (output : Option String) :
    Printing (Option Output) := do
  let p ← program files input
  match p.functionNamed? function with
  | none => fail [.text (s!"Function {function} not found in {input}")]
  | some f =>
    match Work.encodeFunction Settings.default.classifier f { program := p } with
    | .error e _ => fail [.text ("Failed to encode function " ++ function), .text e.message]
    | .ok e _ =>
      let content := Json.compact e.toJson
      match output with
      | some path =>
        return some { path, content, success := s!"Encoded {e.length} nodes to: {path}",
                      failure := "Failed to write encoding file: " ++ path }
      | none =>
        say content
        return none

/-- Blanks before a text up to a width of three. -/
def aligned (s : String) : String := String.ofList (List.replicate (3 - s.length) ' ') ++ s

def surveyed (body : List Instruction) : Work (List (TreeKey × Tree) × Nat × Nat) := do
  Work.buildSeries body
  return (← Work.trees, ← Work.counts)

def inspectFunction (p : Program) (f : Function) : Printing Unit := do
  showFunction p f
  match surveyed f.body { program := p } with
  | .error e _ => fail [.text e.message]
  | .ok (trees, nodes, edges) _ =>
    trees.forM fun (key, t) =>
      say ("  tree " ++ aligned (toString key.toInt) ++ ": " ++ t.text)
    say (s!"  {nodes} nodes, {edges} edges")

def inspect (files : Files) (input : String) (function : Option String) :
    Printing (Option Output) := do
  let p ← program files input
  (p.functions.toList.filter fun f => function.all (f.name == ·)).forM (inspectFunction p)
  return none

def decode (files : Files) (path : String) (input : Option String) : Printing (Option Output) := do
  let text ← content files path "Failed to read encoding file: "
  match Encoding.decode.ofText text with
  | none => fail [.text "Failed to parse encoding", .json]
  | some e =>
    let values ← match input with
      | some input => pure (← program files input).values
      | none => pure #[]
    match e.toTrees values with
    | .error f => fail [.text "Failed to decode encoding", .text f.message]
    | .ok (s, roots) =>
      say (s!"Decoded {e.length} records into {roots.length} trees")
      roots.forM fun root => say ("  " ++ (s.tree root).text)
      return none

def command (files : Files) : Command → Printing (Option Output)
  | .optimize input preset settings output => optimize files input preset settings output
  | .encode input function output => encode files input function output
  | .inspect input function => inspect files input function
  | .decode encoding input => decode files encoding input

end Printing

def Command.respond (c : Command) (files : Files) : Response :=
  match Printing.command files c |>.run [] with
  | (.ok output, lines) => { lines, output }
  | (.error causes, lines) => { lines, causes }

namespace Response

/-- The response after its file has been written, or could not be. -/
def afterWriting (r : Response) (result : Except String Unit) : Response :=
  match r.output, result with
  | none, _ => r
  | some o, .ok _ => { r with lines := r.lines ++ [o.success] }
  | some o, .error reason => { r with causes := [.text o.failure, .text reason] }

def stdout (r : Response) : String := String.join (r.lines.map (· ++ "\n"))

def code (r : Response) : Nat := if r.causes.isEmpty then 0 else 1

def indented (first others : String) (text : String) : String :=
  match text.splitOn "\n" with
  | [] => first
  | line :: rest => first ++ line ++ String.join (rest.map ("\n" ++ others ++ ·))

/-- The failure, its causes numbered when there are several. -/
def stderr (messages : List String) : String :=
  match messages with
  | [] => ""
  | [message] => "Error: " ++ message
  | [message, cause] => "Error: " ++ message ++ "\n\nCaused by:\n" ++ indented "    " "    " cause
  | message :: causes =>
    "Error: " ++ message ++ "\n\nCaused by:" ++ String.join (causes.zipIdx.map fun (cause, i) =>
      "\n" ++ indented ("    " ++ toString i ++ ": ") "       " cause)

end Response

end SecureArith.CommandLine

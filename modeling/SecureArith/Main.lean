import SecureArith.CommandLine.Response

set_option autoImplicit false

/-!
# The program

Reads the files that the command names, prints its response and writes its file.
-/

open SecureArith CommandLine

def ioReason : IO.Error → String
  | .noFileOrDirectory .. => "No such file or directory (os error 2)"
  | e => toString e

def readFile (path : String) : IO (String × Except String String) := do
  try
    return (path, .ok (← IO.FS.readFile path))
  catch e =>
    return (path, .error (ioReason e))

def writeFile (o : Output) : IO (Except String Unit) := do
  try
    IO.FS.writeFile o.path o.content
    return .ok ()
  catch e =>
    return .error (ioReason e)

def main (args : List String) : IO UInt32 := do
  match Command.read args with
  | none =>
    IO.eprintln "usage: optimize -i FILE [-l LEVEL] [-c FILE] [-o FILE]"
    IO.eprintln "       encode -i FILE -f NAME [-o FILE]"
    IO.eprintln "       inspect [-i FILE] [-f NAME] [-e FILE]"
    return 2
  | some c =>
    let contents ← c.inputs.mapM readFile
    let r := c.respond fun path => (contents.lookup path).getD (.error "not read")
    let r ← match r.output with
      | some o => pure (r.afterWriting (← writeFile o))
      | none => pure r
    IO.print r.stdout
    if !r.causes.isEmpty then
      IO.eprintln (Response.stderr (r.causes.map fun
        | .text message => message
        | .json => "malformed JSON"))
    return UInt32.ofNat r.code

import StyleBlocks.Command.Run

/-!
# The program

Reads the files that a request needs and does what `StyleBlocks.Command.run` says.
-/

open StyleBlocks Command

/-- The contents of the file at a path. -/
def readFile (path : Text) : IO (Except FileError Text) := do
  try
    let bytes ← IO.FS.readBinFile (String.ofList path)
    match String.fromUTF8? bytes with
    | some s => return .ok s.toList
    | none => return .error .undecodable
  catch
    | .noFileOrDirectory .. => return .error .missing
    | e => return .error (.other (toString e).toList)

/-- Answers the request that the arguments make. -/
def main (args : List String) : IO UInt32 := do
  let args := args.map String.toList
  let paths := match Request.read? args with
    | some r => r.paths
    | none => []
  let contents ← paths.mapM fun p => do return (p, ← readFile p)
  let outcome := Command.run (fun p => (contents.lookup p).getD (.error .missing)) args
  IO.print (String.ofList outcome.output)
  IO.eprint (String.ofList outcome.errors)
  return outcome.exit.toUInt32

import TopicPlugin.Plugin

/-!
# The command line

Reads the request from standard input, writes the response to standard output, and ends with the exit
code of the outcome. An error that keeps the response from being written goes to standard error.
-/

namespace TopicPlugin

/-- All bytes of a stream, behind those read before. -/
partial def readToEnd (stream : IO.FS.Stream) (before : ByteArray) : IO ByteArray := do
  let chunk ← stream.read 65536
  if chunk.isEmpty then pure before else readToEnd stream (before ++ chunk)

def readInput : IO (Except String (List UInt8)) := do
  try
    let bytes ← readToEnd (← IO.getStdin) ByteArray.empty
    pure (.ok bytes.data.toList)
  catch e => pure (.error (toString e))

def writeOutput (bytes : List UInt8) : IO (Except PluginError Unit) := do
  try
    let stdout ← IO.getStdout
    stdout.write ⟨bytes.toArray⟩
    stdout.flush
    pure (.ok ())
  catch e => pure (.error (.write (toString e)))

end TopicPlugin

open TopicPlugin in
def main : IO UInt32 := do
  let response := Plugin.process (← readInput)
  let delivered ← writeOutput response.encode
  match delivered with
  | .ok () => pure ()
  | .error e => (← IO.getStderr).putStrLn e.message
  pure (Plugin.exitCode (delivered.map fun () => Plugin.outcomeOf response))

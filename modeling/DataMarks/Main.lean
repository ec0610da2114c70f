/-
  The program: reads the file that the command line names, runs the command, and
  prints its output and diagnostics.
-/
import DataMarks.CommandLine

namespace DataMarks

/-- The exit code for a command line that is not understood. -/
def usageCode : UInt32 := 2

def usage : String :=
  "usage: check FILE | compile FILE [--mark NAME] [--flatten] | eval FILE --mark NAME"

/-- The bytes up to the end of a stream. -/
partial def readAll (stream : IO.FS.Stream) (done : ByteArray) : IO ByteArray := do
  let chunk ← stream.read 65536
  if chunk.isEmpty then return done else readAll stream (done ++ chunk)

/-- The contents of a file or of standard input. -/
def contents (file : String) : IO (Except ReadError ByteArray) := do
  try
    if file = CommandLine.standardInput then
      return .ok (← readAll (← IO.getStdin) .empty)
    else
      return .ok (← IO.FS.readBinFile file)
  catch
    | .noFileOrDirectory .. => return .error .notFound
    | e => return .error (.other (toString e))

end DataMarks

open DataMarks in
def main (args : List String) : IO UInt32 := do
  match CommandLine.parse args with
  | none =>
    IO.eprintln usage
    return usageCode
  | some invocation =>
    let outcome := CommandLine.run invocation (← contents invocation.file)
    IO.print outcome.out
    for d in outcome.diagnostics do
      IO.eprintln ("\n".intercalate d.lines)
    return outcome.code.toUInt32

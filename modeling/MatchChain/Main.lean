import MatchChain.CommandLine.Run

/-!
# The command

The system's files and streams as the surroundings of a command.
-/

set_option autoImplicit false

namespace MatchChain

namespace CommandLine

/-- The system's number and wording of a fault. -/
def systemFault : IO.Error → FileFault
  | .noFileOrDirectory .. => .notFound
  | .alreadyExists _ n d | .inappropriateType _ n d | .permissionDenied _ n d
  | .resourceExhausted _ n d | .invalidArgument _ n d | .interrupted _ n d
  | .noSuchThing _ n d | .resourceBusy n d | .resourceVanished n d | .hardwareFault n d
  | .illegalOperation n d | .otherError n d | .protocolError n d | .timeExpired n d
  | .unsatisfiedConstraints n d | .unsupportedOperation n d => .other d n.toNat
  | .unexpectedEof => .other "unexpected end of file" 0
  | .userError d => .other d 0

/-- Runs an action with its faults as values. -/
def attempted {α : Type} (act : IO α) : IO (Except FileFault α) := do
  try return .ok (← act)
  catch e => return .error (systemFault e)

/-- The text that bytes stand for. -/
def decoded : Except FileFault ByteArray → Except FileFault String
  | .error fault => .error fault
  | .ok bytes => (String.fromUTF8? bytes).elim (.error .notText) .ok

/-- All bytes of a stream. -/
partial def readAll (stream : IO.FS.Stream) (read : ByteArray) : IO ByteArray := do
  let block ← stream.read 65536
  if block.isEmpty then return read else readAll stream (read ++ block)

/-- The system as surroundings. -/
def systemSurroundings (isTerminal : Bool) : Surroundings IO where
  readInput := do return decoded (← attempted do readAll (← IO.getStdin) .empty)
  readFile path := do return decoded (← attempted (IO.FS.readBinFile path))
  writeFile path text := attempted (IO.FS.writeFile path text)
  writeOutput text := attempted do
    let stdout ← IO.getStdout
    stdout.putStr text
    stdout.flush
  report text := do (← IO.getStderr).putStr text
  isTerminal

end CommandLine

end MatchChain

def main (args : List String) : IO UInt32 := do
  let isTerminal ← (← IO.getStderr).isTty
  let status ← MatchChain.CommandLine.run (MatchChain.CommandLine.systemSurroundings isTerminal) args
  return status.toUInt32

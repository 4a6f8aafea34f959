import Reckoner.CommandLine

/-! # The program

The arguments decide what is done. A session reads one line at a time, so that its prompt stands
there before the line is typed; each turn is that of `Session.turn`.
-/

namespace Reckoner

namespace Program

/-- Read the bytes up to and including the next newline; none are left at the end of the input. -/
partial def readBytes (input : IO.FS.Stream) (line : ByteArray) : IO ByteArray := do
  let next ← input.read 1
  match next.toList with
  | [] => return line
  | byte :: _ =>
    let line := line.push byte
    if byte = Lines.newline then return line else readBytes input line

/-- Write pieces one after the other. -/
def writeAll (output : IO.FS.Stream) (writes : List String) : IO Unit := do
  for text in writes do
    output.putStr text
  output.flush

/-- Answer lines until the session ends. -/
partial def converse (session : Session) (progress : Progress) (input output : IO.FS.Stream) :
    IO (Except SessionError Summary) := do
  writeAll output [session.settings.prompt]
  match Lines.ofBytes (← readBytes input ByteArray.empty).toList with
  | [] =>
    writeAll output Session.farewell
    return .ok progress.summary
  | line :: _ =>
    match session.turn progress line with
    | .goOn writes progress =>
      writeAll output writes
      converse session progress input output
    | .stop writes ending =>
      writeAll output writes
      return ending

/-- Run a session over standard input. -/
def runSession (settings : Settings) : IO UInt32 := do
  let input ← IO.getStdin
  let output ← IO.getStdout
  let errors ← IO.getStderr
  match Session.start settings with
  | .error fault =>
    errors.putStr (CommandLine.faultLine fault)
    return 1
  | .ok session =>
    writeAll output session.banner
    match ← converse session session.initial input output with
    | .ok _ => return 0
    | .error error =>
      errors.putStr (CommandLine.endingLine error)
      return 1

end Program

end Reckoner

/-- Do what the arguments ask for. -/
def main (arguments : List String) : IO UInt32 := do
  match Reckoner.CommandLine.request arguments with
  | .misuse error =>
    (← IO.getStderr).putStr (Reckoner.CommandLine.usageLine error)
    return 2
  | .version =>
    (← IO.getStdout).putStr Reckoner.CommandLine.versionLine
    return 0
  | .help =>
    (← IO.getStdout).putStr Reckoner.CommandLine.helpText
    return 0
  | .session settings => Reckoner.Program.runSession settings

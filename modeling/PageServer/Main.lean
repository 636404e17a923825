import PageServer.CommandLine
import PageServer.Server.Exchange
import Std.Time.Format

/-!
# The program

The program reads its arguments and the settings file that they name, and
prints what the run comes to. A server serves one client, on standard input and
output. Its disk is in memory and holds only the settings file at the start; its
log goes to standard error.
-/

open PageServer

/-- The bytes of a text in UTF-8. -/
def utf8Bytes (text : String) : Bytes := text.toUTF8.toList

/-- Writes bytes. -/
def writeBytes (stream : IO.FS.Stream) (bytes : Bytes) : IO Unit := do
  stream.write ⟨bytes.toArray⟩
  stream.flush

/-- Writes log records. -/
def writeLog (stream : IO.FS.Stream) (records : List Log.Record) : IO Unit := do
  for record in records do
    let time ← Std.Time.PlainDateTime.now
    let thread ← IO.getTID
    writeBytes stream
      (Log.line (utf8Bytes (time.format "uuuu-MM-dd HH:mm:ss.SSS")) (Numeral.ofNat thread.toNat)
        ⟨"PageServer", 0⟩ record)

/-- The home directory of the program. -/
def homeDisk : Disk := ({ home := ["home", "server"] } : Disk).putDeep ["home", "server"] (.directory 0)

/-- A disk with the settings file that arguments name, if it can be read. -/
def settingsDisk (arguments : List Bytes) : IO Disk := do
  match CommandLine.read arguments with
  | .help => return homeDisk
  | .run file _ =>
    try
      let content ← IO.FS.readBinFile ((String.fromUTF8? ⟨file.toArray⟩).getD "")
      return homeDisk.putDeep (homeDisk.namedPlace file) (.file content.toList 0)
    catch _ => return homeDisk

/-- More steps than any load takes. -/
def manySteps : Nat := 0x4000000000000000

/-- Takes in bytes on the connection to the client, and works on loads. -/
def takeIn (running : Installation.Running) (c : Http.Connection) (bytes : Bytes) :
    Act Installation Http.Moved := do
  let moved ← c.receive running.server.router.answer bytes
  running.loads.workUntil (fun _ => false) manySteps
  return moved

/-- Serves the client until it has no more to send or the connection is closed. -/
partial def serveClient (running : Installation.Running) (level : Log.Level)
    (c : Http.Connection) (state : Installation) : IO UInt32 := do
  let chunk ← (← IO.getStdin).read 65536
  if chunk.isEmpty then return 0
  let o := takeIn running c chunk.toList state
  writeLog (← IO.getStderr) (Log.kept level o.log)
  match o.result with
  | .error _ => return 1
  | .ok (c, actions) =>
    writeBytes (← IO.getStdout) (sentBytes actions)
    if c.isClosed then return 0 else serveClient running level c o.state

/-- Runs the program. -/
def main (arguments : List String) : IO UInt32 := do
  let arguments := arguments.map utf8Bytes
  let disk ← settingsDisk arguments
  let o := CommandLine.run .alone "cacheworker_server" arguments { disk }
  match o.result with
  | .error _ => return 1
  | .ok (.exit code printed) =>
    writeLog (← IO.getStdout) o.log
    writeBytes (← IO.getStdout) printed
    return UInt32.ofNat code
  | .ok (.serving running) =>
    writeLog (← IO.getStderr) o.log
    let server := running.server.accept
    serveClient running running.level { name := server.connectionName } (server.setOpen 1 o.state).state

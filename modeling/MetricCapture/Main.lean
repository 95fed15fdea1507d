import MetricCapture.Command.Run
/-! The command line: `cat` copies the messages of a capture, `analyze` reports its statistics. -/
namespace MetricCapture.Command

def FileFault.ofError (e : IO.Error) : FileFault :=
  match e with
  | .noFileOrDirectory .. => .missing
  | .permissionDenied .. => .denied
  | .alreadyExists .. => .inTheWay
  | .inappropriateType .. => .isDirectory
  | e => .other 5 (toString e)

def attempt (path : String) (action : IO Unit) : IO (Option FileError) := do
  match ← action.toBaseIO with
  | .ok _ => pure none
  | .error e => pure (some ⟨FileFault.ofError e, path⟩)

/-- Reads a stream to its end. -/
partial def readStream (stream : IO.FS.Stream) (done : ByteArray) : IO ByteArray := do
  let piece ← stream.read 65536
  if piece.isEmpty then pure done else readStream stream (done ++ piece)

def directoryOf (path : String) : String :=
  String.ofList ((path.toList.reverse.dropWhile (· != '/')).drop 1).reverse

def system (logFile : String) : Host IO where
  openInput
    | .file path => attempt path (discard (IO.FS.readBinFile path))
    | _ => pure none
  readInput
    | .file path => return (← IO.FS.readBinFile path).toList
    | _ => return (← readStream (← IO.getStdin) ByteArray.empty).toList
  openOutput
    | .file path => attempt path (IO.FS.writeFile path "")
    | _ => pure none
  write
    | .file path, text => IO.FS.writeFile path text
    | _, text => IO.print text
  openLog path :=
    attempt path do
      let directory := directoryOf path
      if directory != "" then IO.FS.createDirAll directory
      let handle ← IO.FS.Handle.mk path .append
      handle.flush
  log line := do
    IO.eprintln line
    if logFile != "" then
      let handle ← IO.FS.Handle.mk logFile .append
      handle.putStrLn line

def runMain (args : List String) : IO UInt32 := do
  let level := (← IO.getEnv "DSD_LOG_LEVEL").getD "WARNING"
  let logFile := (← IO.getEnv "DSD_LOG_FILE").getD ""
  let host := system logFile
  let around : Surroundings := ⟨level, logFile⟩
  let exit ←
    match args with
    | "cat" :: rest => runCopy host around rest
    | "analyze" :: rest => runReport host around rest
    | _ => pure .refused
  match exit with
  | .status code => pure code.toUInt32
  | .escaped _ =>
    IO.eprintln "the capture cannot be read on"
    pure 1

end MetricCapture.Command

def main (args : List String) : IO UInt32 :=
  MetricCapture.Command.runMain args

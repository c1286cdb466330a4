/-
  The command line program.

  Reads the arguments, the configuration file and the input, and prints what the
  library answers.
-/
import PhraseServer.Program
import PhraseServer.Survey

namespace PhraseServer.Main

/-- The error behind an exception. -/
def osError (e : IO.Error) : OsError :=
  match e with
  | .noFileOrDirectory .. => .notFound
  | .inappropriateType _ code _ => if code = 21 then .isDirectory else .notDirectory
  | e => .other (toString e)

/-- The text of a file. -/
def readText (p : Path) : IO (Except OsError String) := do
  if p.bytes.contains 0 then return .error .nulByte
  try
    let bytes ← IO.FS.readBinFile p.lossy
    return textOfBytes (.ok bytes.toList)
  catch e => return .error (osError e)

/-- Whether something stands at a path. -/
def exists? (text : String) : IO Bool := do
  try
    let _ ← IO.FS.realPath text
    return true
  catch _ => return false

/-- Whether a path leads to a file: something that has no places inside. -/
def isFile (p : Path) : IO Bool := do
  if p.bytes.contains 0 then return false
  return (← exists? p.lossy) && !(← exists? (p.lossy ++ "/."))

/-- Why a directory cannot be entered. -/
def refusal (dir : Path) : IO (Option OsError) := do
  if dir.bytes.contains 0 then return some .nulByte
  if ← exists? (dir.lossy ++ "/.") then return none
  if ← exists? dir.lossy then return some .notDirectory
  return some .notFound

/-- Answers the questions of a request. -/
def survey (questions : Questions) : IO Survey := do
  let files ← questions.files.filterM isFile
  match questions.dir with
  | none => return { files }
  | some dir => return { files, refusal := ← refusal dir }

/-- Reads a line of bytes with its newline; nothing at the end of the input. -/
partial def readLine (input : IO.FS.Stream) (done : List UInt8) : IO (List UInt8) := do
  match (← input.read 1).toList with
  | [] => return done.reverse
  | b :: _ => if b = 0x0a then return (b :: done).reverse else readLine input (b :: done)

/-- Performs an event on the output. -/
def perform (output : IO.FS.Stream) : Event → IO Unit
  | .write text => output.putStr text
  | .flush => output.flush

/-- What is said of a text that is no JSON value. -/
def explain (_ : List Char) : String := "no JSON value"

/-- Serves lines until the input ends. -/
partial def serve (home : Option Path) (known : List String) (input output : IO.FS.Stream)
    (loop : Loop (Session Token Outline Chunk Env)) : IO Unit := do
  let line ← readLine input []
  if line.isEmpty then return
  let answers ← survey (loop.service.questions home line)
  let service := Session.call (phraseLanguage known) (Survey.host home)
  match Loop.answer explain service ⟨(answers, loop.service), loop.served⟩ line with
  | none => serve home known input output loop
  | some (next, reply) =>
    (Loop.delivery reply).forM (perform output)
    serve home known input output ⟨next.service.2, next.served⟩

/-- Ends the program. -/
def finish (exit : Exit) : IO UInt32 := do
  (← IO.getStdout).putStr exit.output
  match exit.error with
  | none => pure ()
  | some text => (← IO.getStderr).putStrLn text
  return UInt32.ofNat exit.status

/-- Runs the program on its arguments. -/
def run (args : List String) : IO UInt32 := do
  match CommandLine.parse args with
  | .error e => finish (.ofUsage e)
  | .ok line =>
    let home := ((← IO.getEnv "HOME").filter (!·.isEmpty)).map Path.ofText
    let cwd := Path.ofText (← IO.currentDir).toString
    let config ← match line.config with
      | none => pure (.error .notFound)
      | some path => readText path
    match Settings.load home cwd (fun _ => config) ConfigFile.parse line with
    | .error e => finish (.failed e.message [])
    | .ok settings =>
      match line.command.getD .serve with
      | .check file => finish (checkText settings.modules file (← readText file))
      | .serve =>
        try
          serve home settings.modules (← IO.getStdin) (← IO.getStdout)
            ⟨Session.start settings.search cwd, 0⟩
          finish {}
        catch e => finish (.failed ("i/o error: " ++ toString e) [])

end PhraseServer.Main

/-- The program. -/
def main (args : List String) : IO UInt32 := PhraseServer.Main.run args

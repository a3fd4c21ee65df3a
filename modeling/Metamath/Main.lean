import Metamath.Command.Service
import Metamath.Command.Verification
import Metamath.FileSystem.Survey

/-!
# The command line

Reads the database that the arguments name, verifies its proofs as the options say, and answers
requests from standard input if that is asked for. What is read and what is answered is decided
elsewhere; here is only the exchange with files and terminals.
-/

namespace Metamath.Command

def helpText : String :=
  String.intercalate "\n" [
    "A verifier for Metamath databases",
    "",
    "Usage: metamath [OPTIONS] <FILE>",
    "",
    "  -b, --begin-label <LABEL>     verify only proofs from this label on",
    "  -s, --stop-label <LABEL>      stop reading at this label",
    "      --omit <STAGE>            leave out a stage: verify",
    "  -c, --channel-capacity [<N>]  verify while reading, with at most N proofs waiting",
    "  -j, --jobs [<N>]              verify concurrently with N workers",
    "      --serve                   answer requests on standard input after reading",
    "  -h, --help                    print this text"]

def UsageError.message : UsageError → String
  | missingFile => "no file is given"
  | unknownArgument => "an argument is not expected"
  | missingValue => "an option has no value"
  | malformedValue => "the value of an option is not valid"
  | unwantedValue => "an option takes no value"
  | repeatedOption => "an option is given twice"
  | help => helpText

/-- Why a path cannot be followed. Opening it tells files that are used as directories from what
does not exist. -/
def failureOf (path : String) : IO FileSystem.Failure := do
  try
    let _ ← IO.FS.readBinFile path
    return .notFound
  catch
    | .inappropriateType .. => return .notADirectory
    | _ => return .notFound

def lookUp (survey : Survey) (path : String) : IO Survey := do
  match ← (IO.FS.realPath path).toBaseIO with
  | .error _ => return survey.addFailure path (← failureOf path)
  | .ok place =>
    let content ← if ← place.isDir then pure none else some <$> IO.FS.readBinFile place
    return survey.addPlace path place.toString content

/-- Ask for all paths that reading a file needs. -/
partial def explore (file : String) (survey : Survey) : IO Survey := do
  match survey.unknown? file with
  | none => return survey
  | some path => explore file (← lookUp survey path)

/-- Answer requests until the input ends. -/
partial def answerRequests (database : Database) (server : Search.Server)
    (input output : IO.FS.Stream) : IO Unit := do
  let line ← input.getLine
  if line.isEmpty then return
  let (server, reply) := replyTo database server line
  if let some reply := reply then
    output.putStrLn reply.line
    output.flush
  answerRequests database server input output

end Metamath.Command

open Metamath Metamath.Command in
/-- Run the program with arguments, and return its exit code. -/
def main (arguments : List String) : IO UInt32 := do
  match Options.parse arguments with
  | .error .help =>
    IO.println helpText
    return 0
  | .error error =>
    IO.eprintln ("error: " ++ error.message)
    return 2
  | .ok options =>
    let survey ← explore options.file .empty
    match options.run survey.toFileSystem with
    | .error failure =>
      IO.eprintln ("Error: " ++ failure.message)
      return 1
    | .ok database =>
      if options.serve then
        answerRequests database .new (← IO.getStdin) (← IO.getStdout)
      return 0

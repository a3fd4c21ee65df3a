import Metamath.Database.Builder

/-!
# Options of the command line

The arguments are read from left to right. An option whose value is not attached to it waits for the
next argument, and a waiting option or file is settled when the next option, file or the end of the
arguments is reached. This decides which fault is reported when there are several: an argument that
nobody knows is reported before anything that is waiting is looked at.
-/

namespace Metamath.Command

/-- A stage of processing that can be left out. -/
inductive Stage where
  /-- verification of proofs -/
  | verify
  deriving DecidableEq, Repr

def Stage.parse : String → Except String Stage
  | "verify" => .ok verify
  | text => .error ("unknown stage: " ++ text)

/-- What the command line asks for. -/
structure Options where
  /-- verify only proofs from this label on -/
  start : Option Symbol
  /-- stop reading at this label -/
  stop : Option Symbol
  /-- the first stage that is left out -/
  omitted : Option Stage
  /-- verify while reading, with at most so many proofs (or arbitrarily many) waiting -/
  capacity : Option (Option Nat)
  /-- verify concurrently, with so many workers (or as many as there are processors) -/
  jobs : Option (Option Nat)
  /-- answer requests after reading -/
  serve : Bool
  file : String
  deriving DecidableEq, Repr

/-- Why arguments are not accepted. -/
inductive UsageError where
  | missingFile
  /-- an option that does not exist, or a second file -/
  | unknownArgument
  /-- an option without the value it needs, or a file without name -/
  | missingValue
  /-- a value that is not of the right kind -/
  | malformedValue
  /-- a value of an option that takes none -/
  | unwantedValue
  /-- an option that is given twice -/
  | repeatedOption
  /-- not an error: help is asked for -/
  | help
  deriving DecidableEq, Repr

/-- The options that take a value. -/
inductive Setting where
  | start
  | stop
  | omitted
  | capacity
  | jobs
  deriving DecidableEq, Repr

def Setting.ofName? : String → Option Setting
  | "begin-label" => some start
  | "stop-label" => some stop
  | "omit" => some omitted
  | "channel-capacity" => some capacity
  | "jobs" => some jobs
  | _ => none

def Setting.ofLetter? : Char → Option Setting
  | 'b' => some start
  | 's' => some stop
  | 'c' => some capacity
  | 'j' => some jobs
  | _ => none

def Setting.needsValue : Setting → Bool
  | start | stop | omitted => true
  | capacity | jobs => false

/-- What has been settled so far. -/
structure Draft where
  start : Option Symbol
  stop : Option Symbol
  omitted : Option Stage
  capacity : Option (Option Nat)
  jobs : Option (Option Nat)
  serve : Bool
  file : Option String
  deriving DecidableEq, Repr

def Draft.empty : Draft := ⟨none, none, none, none, none, false, none⟩

def Draft.has (draft : Draft) : Setting → Bool
  | .start => draft.start.isSome
  | .stop => draft.stop.isSome
  | .omitted => draft.omitted.isSome
  | .capacity => draft.capacity.isSome
  | .jobs => draft.jobs.isSome

/-- The natural number of 64 bits that a text writes, perhaps with a plus sign before it. -/
def count? (text : String) : Option Nat :=
  let digits :=
    match text.toList with
    | '+' :: digits => digits
    | digits => digits
  let value := digits.foldl (fun n c => n * 10 + (c.toNat - '0'.toNat)) 0
  if !digits.isEmpty && digits.all Char.isDigit && value < UInt64.size then some value else none

def optionalCount : Option String → Except UsageError (Option Nat)
  | none => .ok none
  | some text =>
    match count? text with
    | some count => .ok (some count)
    | none => .error .malformedValue

/-- Settle an option. That its value is missing is noticed first, then that it was given before,
and then that its value is of the wrong kind. -/
def Draft.assign (draft : Draft) (setting : Setting) (value : Option String) :
    Except UsageError Draft :=
  if setting.needsValue && value.isNone then .error .missingValue
  else if draft.has setting then .error .repeatedOption
  else
    match setting with
    | .start => .ok { draft with start := value }
    | .stop => .ok { draft with stop := value }
    | .omitted =>
      match Stage.parse (value.getD "") with
      | .ok stage => .ok { draft with omitted := some stage }
      | .error _ => .error .malformedValue
    | .capacity => (optionalCount value).map fun count => { draft with capacity := some count }
    | .jobs => (optionalCount value).map fun count => { draft with jobs := some count }

/-- What is waiting to be settled. -/
inductive Pending where
  | setting (setting : Setting) (value : Option String)
  | file (path : String)
  deriving DecidableEq, Repr

/-- The arguments read so far. -/
structure Arguments where
  draft : Draft
  pending : Option Pending
  /-- whether all further arguments are files -/
  filesOnly : Bool
  deriving DecidableEq, Repr

namespace Arguments

def empty : Arguments := ⟨.empty, none, false⟩

def settle (arguments : Arguments) : Except UsageError Draft :=
  match arguments.pending with
  | none => .ok arguments.draft
  | some (.setting setting value) => arguments.draft.assign setting value
  | some (.file path) =>
    if path.isEmpty then .error .missingValue
    else .ok { arguments.draft with file := some path }

def hasFile (arguments : Arguments) : Bool :=
  arguments.draft.file.isSome ||
    match arguments.pending with
    | some (.file _) => true
    | _ => false

/-- Read an option that takes a value, with the value that is attached to it. -/
def giveSetting (arguments : Arguments) (setting : Setting) (attached : Option String) :
    Except UsageError Arguments := do
  let draft ← arguments.settle
  match attached with
  | none => return { arguments with draft, pending := some (.setting setting none) }
  | some value =>
    return { arguments with draft := ← draft.assign setting (some value), pending := none }

def giveHelp (arguments : Arguments) : Except UsageError Arguments := do
  let _ ← arguments.settle
  throw .help

def giveServe (arguments : Arguments) : Except UsageError Arguments := do
  let draft ← arguments.settle
  if draft.serve then throw .repeatedOption
  return { arguments with draft := { draft with serve := true }, pending := none }

def giveFile (arguments : Arguments) (path : String) : Except UsageError Arguments := do
  if arguments.hasFile then throw .unknownArgument
  return { arguments with draft := ← arguments.settle, pending := some (.file path) }

/-- Read an argument that starts with two dashes, given without them. -/
def feedLong (arguments : Arguments) (text : List Char) : Except UsageError Arguments :=
  let name := String.ofList (text.takeWhile (· != '='))
  let attached := (text.dropWhile (· != '=')).tail?.map String.ofList
  match Setting.ofName? name with
  | some setting => arguments.giveSetting setting attached
  | none =>
    if name == "serve" || name == "help" then
      if attached.isSome then .error .unwantedValue
      else if name == "serve" then arguments.giveServe
      else arguments.giveHelp
    else .error .unknownArgument

/-- Read an argument that starts with one dash, given without it. -/
def feedShort (arguments : Arguments) (letter : Char) (text : List Char) :
    Except UsageError Arguments :=
  match Setting.ofLetter? letter with
  | some setting =>
    match text with
    | [] => arguments.giveSetting setting none
    | '=' :: value => arguments.giveSetting setting (some (String.ofList value))
    | value => arguments.giveSetting setting (some (String.ofList value))
  | none => if letter = 'h' then arguments.giveHelp else .error .unknownArgument

/-- Read an argument that is no option: the value of the option before it, or a file. -/
def feedPlain (arguments : Arguments) (text : String) : Except UsageError Arguments :=
  match arguments.filesOnly, arguments.pending with
  | false, some (.setting setting none) =>
    .ok { arguments with pending := some (.setting setting (some text)) }
  | _, _ => arguments.giveFile text

def feed (arguments : Arguments) (text : String) : Except UsageError Arguments :=
  if arguments.filesOnly then arguments.feedPlain text
  else
    match text.toList with
    | ['-', '-'] => .ok { arguments with filesOnly := true }
    | '-' :: '-' :: long => arguments.feedLong long
    | '-' :: letter :: rest => arguments.feedShort letter rest
    | _ => arguments.feedPlain text

/-- The options that the arguments ask for. -/
def finish (arguments : Arguments) : Except UsageError Options := do
  let draft ← arguments.settle
  match draft.file with
  | none => throw .missingFile
  | some file =>
    return ⟨draft.start, draft.stop, draft.omitted, draft.capacity, draft.jobs, draft.serve, file⟩

end Arguments

namespace Options

def parse (arguments : List String) : Except UsageError Options := do
  (← arguments.foldlM Arguments.feed .empty).finish

/-- The part of the database whose proofs are verified. -/
def bounds (options : Options) : Database.Bounds :=
  ⟨options.start, options.stop⟩

def verifies (options : Options) : Bool :=
  options.omitted != some .verify

/-- How many proofs may wait for verification while reading goes on, if it does. Concurrent
verification goes along with reading, and then arbitrarily many proofs may wait unless a number is
given. -/
def channel? (options : Options) : Option (Option Nat) :=
  if options.jobs.isSome then some (options.capacity.getD none) else options.capacity

end Options

end Metamath.Command

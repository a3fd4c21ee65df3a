import Metamath.Database.Builder

/-!
# Reading statements

A reading takes tokens one at a time. Between two tokens it knows its builder and in which part of a
statement it is: before or after a label, inside of a declaration, inside of a labelled statement,
or inside of a proof. Each token is accepted, possibly completing a statement and giving out a
proof to be checked, or it is refused, and then the builder is left as the tokens before it made it.

Since a reading stops between any two tokens, whoever drives it decides what happens meanwhile:
`Builder.read` runs through a whole list of tokens and asks a function about every check, and a
pipeline can hand the checks to another worker.
-/

namespace Metamath.Database

/-- The part of a statement that a reading is in. Words are kept with the last one first. -/
inductive Phase where
  /-- between statements, perhaps after the label of the next one -/
  | outer (pending : Option Symbol)
  /-- inside of a statement without label -/
  | declaring (declaration : Declaration) (words : List Symbol)
  /-- inside of a labelled statement -/
  | stating (kind : Labelled) (label : Symbol) (words : List Symbol)
  /-- inside of the proof of a statement -/
  | proving (label : Symbol) (statement : Statement) (proof : List Symbol)
  deriving DecidableEq, Repr

/-- The statement that errors are reported for. -/
def Phase.place? : Phase → Option Place
  | outer _ => none
  | declaring declaration _ => some ⟨.declaration declaration, none⟩
  | stating kind label _ => some ⟨.labelled kind, some label⟩
  | proving label _ _ => some ⟨.labelled .provable, some label⟩

/-- A builder in the middle of reading. -/
structure Reading where
  builder : Builder
  /-- the number of blocks that were open before -/
  floor : Nat
  phase : Phase

/-- What a token leads to. -/
inductive Progress where
  /-- the token is accepted -/
  | more (reading : Reading)
  /-- the token completes a theorem, whose proof is to be checked -/
  | check (check : Check) (reading : Reading)
  /-- the token is refused -/
  | refused (error : Error) (builder : Builder)

/-- What a token is to a sequence of words that ends with a certain keyword. -/
inductive Member where
  | word (text : Symbol)
  | stop
  | fault (fault : Fault)
  deriving DecidableEq, Repr

/-- Classify a token of a sequence of words. -/
def Member.ofToken (stop : Keyword) : Token → Member
  | .word text => if startsWithDollar text then fault (.unknownKeyword text) else word text
  | .keyword keyword =>
    if keyword = stop then Member.stop else fault (.unexpectedToken keyword.text)

/-- The keyword that ends the symbols of a labelled statement. -/
def stopKeyword : Labelled → Keyword
  | .provable => .proofStart
  | .floating | .essential | .axiomatic => .terminator

namespace Reading

/-- Begin to read: what is read stands in a block of its own. -/
def start (builder : Builder) : Reading where
  builder := { builder with scope := builder.scope.push }
  floor := builder.depth
  phase := .outer none

def goTo (reading : Reading) (phase : Phase) : Progress :=
  .more { reading with phase }

def refuse (reading : Reading) (cause : Cause) : Progress :=
  .refused ⟨reading.phase.place?, cause⟩ reading.builder

/-- Complete a statement that gives out no check. -/
def complete (reading : Reading) : Except Cause Builder → Progress
  | .ok builder => .more { reading with builder, phase := .outer none }
  | .error cause => reading.refuse cause

/-- Take a word at the beginning of a statement for a label. -/
def feedLabel (reading : Reading) (pending : Option Symbol) (label : Symbol) : Progress :=
  match pending with
  | some earlier => reading.refuse (.structural (.danglingLabel earlier))
  | none =>
    if reading.builder.labels.contains label then
      reading.refuse (.structural (.redefined label))
    else
      .more { reading with
        builder := reading.builder.noteLabel label
        phase := .outer (some label) }

/-- Begin a statement. -/
def feedKind (reading : Reading) (pending : Option Symbol) (kind : Kind) : Progress :=
  match kind, pending with
  | .declaration declaration, none => reading.goTo (.declaring declaration [])
  | .declaration _, some label => reading.refuse (.structural (.danglingLabel label))
  | .labelled kind, some label => reading.goTo (.stating kind label [])
  | .labelled kind, none => reading.refuse (.structural (.missingLabel kind))

/-- Open or close a block. The outermost block cannot be closed. -/
def feedBlock (reading : Reading) (pending : Option Symbol) (opens : Bool) : Progress :=
  match pending with
  | some label => reading.refuse (.structural (.danglingLabel label))
  | none =>
    if opens then
      reading.complete (.ok { reading.builder with scope := reading.builder.scope.push })
    else if reading.builder.depth ≤ 1 then reading.refuse (.structural .unmatchedClose)
    else
      reading.complete
        ((reading.builder.scope.pop.mapError .scope).map fun scope =>
          { reading.builder with scope })

/-- Read a token between statements. -/
def feedOuter (reading : Reading) (pending : Option Symbol) : Token → Progress
  | .word text =>
    if startsWithDollar text then reading.refuse (.structural (.unknownKeyword text))
    else reading.feedLabel pending text
  | .keyword (.statement kind) => reading.feedKind pending kind
  | .keyword .blockOpen => reading.feedBlock pending true
  | .keyword .blockClose => reading.feedBlock pending false
  | .keyword keyword => reading.refuse (.structural (.unknownKeyword keyword.text))

def finishDeclaration (reading : Reading) (declaration : Declaration) (symbols : List Symbol) :
    Progress :=
  match reading.builder.declare declaration symbols with
  | (builder, none) => .more { reading with builder, phase := .outer none }
  | (builder, some error) => .refused ⟨reading.phase.place?, .scope error⟩ builder

/-- Complete the symbols of a labelled statement. A theorem goes on with its proof, but its symbols
are checked before. -/
def finishStatement (reading : Reading) (kind : Labelled) (label : Symbol)
    (statement : Statement) : Progress :=
  match kind with
  | .floating => reading.complete (reading.builder.addFloating label statement)
  | .essential => reading.complete (reading.builder.addEssential label statement)
  | .axiomatic => reading.complete (reading.builder.addAxiomatic label statement)
  | .provable =>
    match reading.builder.checkStatement statement with
    | .ok () => reading.goTo (.proving label statement [])
    | .error cause => reading.refuse cause

def finishProof (reading : Reading) (label : Symbol) (statement : Statement)
    (proof : List Symbol) : Progress :=
  match reading.builder.addProvable label statement proof with
  | .ok (builder, none) => .more { reading with builder, phase := .outer none }
  | .ok (builder, some check) => .check check { reading with builder, phase := .outer none }
  | .error cause => reading.refuse cause

def feed (reading : Reading) (token : Token) : Progress :=
  match reading.phase with
  | .outer pending => reading.feedOuter pending token
  | .declaring declaration words =>
    match Member.ofToken .terminator token with
    | .word text => reading.goTo (.declaring declaration (text :: words))
    | .stop => reading.finishDeclaration declaration words.reverse
    | .fault fault => reading.refuse (.structural fault)
  | .stating kind label words =>
    match Member.ofToken (stopKeyword kind) token with
    | .word text => reading.goTo (.stating kind label (text :: words))
    | .stop => reading.finishStatement kind label words.reverse
    | .fault fault => reading.refuse (.structural fault)
  | .proving label statement proof =>
    match Member.ofToken .terminator token with
    | .word text => reading.goTo (.proving label statement (text :: proof))
    | .stop => reading.finishProof label statement proof.reverse
    | .fault fault => reading.refuse (.structural fault)

/-- End the reading where the input ends or where it stopped. Only a reading that succeeds closes
the blocks it opened. -/
def finish (reading : Reading) : Builder × Except Error Unit :=
  if reading.builder.stopped then (reading.builder.truncate reading.floor, .ok ())
  else
    match reading.phase with
    | .outer (some label) =>
      (reading.builder, .error ⟨none, .structural (.danglingLabel label)⟩)
    | .outer none =>
      if reading.builder.depth > reading.floor + 1 then
        (reading.builder, .error ⟨none, .structural .unclosedBlock⟩)
      else (reading.builder.truncate reading.floor, .ok ())
    | phase => (reading.builder, .error ⟨phase.place?, .structural .unterminated⟩)

end Reading

structure Outcome where
  /-- what has been read -/
  builder : Builder
  /-- all checks that were given out, in order -/
  checks : List Check
  result : Except Error Unit

/-- Read tokens to their end, up to a stop label or up to the first error. Every check is passed to
`accept`, which may refuse to go on. -/
def Reading.run (accept : Check → Except Error Unit) (reading : Reading) :
    List (Except Inclusion.Error Token) → Outcome
  | [] => ⟨reading.finish.1, [], reading.finish.2⟩
  | item :: rest =>
    if reading.builder.stopped then ⟨reading.finish.1, [], reading.finish.2⟩
    else
      match item with
      | .error error => ⟨reading.builder, [], .error ⟨reading.phase.place?, .inclusion error⟩⟩
      | .ok token =>
        match reading.feed token with
        | .refused error builder => ⟨builder, [], .error error⟩
        | .more reading => reading.run accept rest
        | .check check reading =>
          match accept check with
          | .error error => ⟨reading.builder, [check], .error error⟩
          | .ok () =>
            let outcome := reading.run accept rest
            { outcome with checks := check :: outcome.checks }

def Builder.read (builder : Builder) (accept : Check → Except Error Unit)
    (tokens : List (Except Inclusion.Error Token)) : Outcome :=
  (Reading.start builder).run accept tokens

end Metamath.Database

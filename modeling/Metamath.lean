import Metamath.Text.Blank
import Metamath.Token
import Metamath.Token.Lexer
import Metamath.Token.Comment
import Metamath.Statement
import Metamath.Substitution
import Metamath.Assertion
import Metamath.Label
import Metamath.Proof.Stack
import Metamath.Proof.Error
import Metamath.Proof.Code
import Metamath.Scope.Environment
import Metamath.Scope
import Metamath.Proof.Step
import Metamath.Proof.Replay
import Metamath.FileSystem
import Metamath.FileSystem.Tree
import Metamath.Inclusion
import Metamath.FileSystem.Survey
import Metamath.Goal
import Metamath.Tactic
import Metamath.Database.Error
import Metamath.Database.Check
import Metamath.Database.Builder
import Metamath.Database.Reading
import Metamath.Database
import Metamath.Json.Number
import Metamath.Json.Lexer
import Metamath.Json.Value
import Metamath.Json.Printer
import Metamath.Search.Session
import Metamath.Search.Request
import Metamath.Search.Server
import Metamath.Log.Message
import Metamath.Log.Reading
import Metamath.Log.Search
import Metamath.Command.Options
import Metamath.Command.Pipeline
import Metamath.Command.Verification
import Metamath.Command.Service
import Metamath.Main
import Metamath.Proofs.Substitution
import Metamath.Proofs.Step
import Metamath.Proofs.Derivation
import Metamath.Proofs.Code
import Metamath.Proofs.Label
import Metamath.Proofs.Replay
import Metamath.Proofs.Compression
import Metamath.Proofs.GoalTree
import Metamath.Proofs.SearchSoundness
import Metamath.Proofs.Scope
import Metamath.Proofs.Reading
import Metamath.Proofs.Arrival
import Metamath.Proofs.Soundness
import Metamath.Proofs.Pipeline
import Metamath.Proofs.Blocks
import Metamath.Proofs.Grammar
import Metamath.Proofs.Lexing
import Metamath.Proofs.Paths
import Metamath.Proofs.Expansion
import Metamath.Proofs.Recording
import Metamath.Proofs.Checks
import Metamath.Proofs.Bookkeeping
import Metamath.Proofs.Isolation
import Metamath.Proofs.Balance
import Metamath.Proofs.Theorems
import Metamath.Proofs.Places
import Metamath.Proofs.Lockstep
import Metamath.Proofs.Bounds
import Metamath.Proofs.Numeration
import Metamath.Proofs.Application
import Metamath.Proofs.MandatoryFrame
import Metamath.Proofs.Persistence
import Metamath.Proofs.Words
import Metamath.Proofs.GoalText
import Metamath.Proofs.TacticGrammar
import Metamath.Proofs.Vocabulary
import Metamath.Proofs.FactLookup
import Metamath.Proofs.TacticState
import Metamath.Proofs.Atomicity
import Metamath.Proofs.Comments
import Metamath.Proofs.Restart
import Metamath.Proofs.Disjointness
import Metamath.Proofs.LabelHistory
import Metamath.Proofs.Tokenization

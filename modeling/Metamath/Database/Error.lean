import Metamath.Inclusion
import Metamath.Proof.Error
import Metamath.Scope

/-!
# Why a database is refused

An error consists of its cause and, if the cause was found inside of a statement, of the statement's
keyword and label. The causes come from the four parts that reading a database has: inclusion of
files, the structure of statements, declarations in scopes, and proofs.
-/

namespace Metamath.Database

/-- What is wrong with the structure of a database. -/
inductive Fault where
  /-- a word that starts with a dollar sign, or a keyword at the wrong place -/
  | unknownKeyword (text : String)
  /-- a keyword inside of a statement that does not end it -/
  | unexpectedToken (text : String)
  | redefined (label : Symbol)
  | missingLabel (kind : Labelled)
  /-- a label that no labelled statement follows -/
  | danglingLabel (label : Symbol)
  | floatingLength (length : Nat)
  | emptyStatement
  /-- the input ends inside of a statement -/
  | unterminated
  /-- the input ends inside of a block -/
  | unclosedBlock
  | unmatchedClose
  deriving DecidableEq, Repr

def Fault.message : Fault → String
  | unknownKeyword text => "unknown or misplaced keyword " ++ text
  | unexpectedToken text => "unexpected token " ++ text
  | redefined label => "label " ++ label ++ " multiply defined"
  | missingLabel kind => kind.text ++ " must have a label"
  | danglingLabel label => "label " ++ label ++ " is not followed by a labelled statement"
  | floatingLength length => "$f must have length two but has length " ++ toString length
  | emptyStatement => "empty statement"
  | unterminated => "unterminated statement at end of file"
  | unclosedBlock => "unclosed $\x7b ... $\x7d block at end of file"
  | unmatchedClose => "$\x7d without matching $\x7b"

inductive Cause where
  | inclusion (error : Inclusion.Error)
  | scope (error : Scope.Error)
  | structural (fault : Fault)
  | proof (error : Proof.Error)
  deriving DecidableEq, Repr

def Cause.message : Cause → String
  | inclusion e => e.message
  | scope e => e.message
  | structural f => f.message
  | proof e => e.message

/-- The statement in which an error was found. -/
structure Place where
  kind : Kind
  label : Option Symbol
  deriving DecidableEq, Repr

/-- A cause and the statement in which it was found, if any. -/
structure Error where
  place : Option Place
  cause : Cause
  deriving DecidableEq, Repr

def Error.message (error : Error) : String :=
  match error.place with
  | none => error.cause.message
  | some ⟨kind, none⟩ => "in " ++ kind.text ++ " statement: " ++ error.cause.message
  | some ⟨kind, some label⟩ =>
    "in " ++ kind.text ++ " statement " ++ label ++ ": " ++ error.cause.message

end Metamath.Database

/-
  TinyScript.Fault — everything that can end a run.

  A run ends with its first fault: a character that starts no token, a token that fits no rule, or
  a failure while it is executed. Each has a kind, a message and a position.
-/

import TinyScript.Grammar.Basic
import TinyScript.Token.Lexer

namespace TinyScript

open TinyScript.Text

inductive FaultKind where
  | illegalCharacter | grammar | name | type | importing
  deriving DecidableEq, Repr

def FaultKind.text : FaultKind → String
  | illegalCharacter => "IllegalCharacterError"
  | grammar => "SyntaxError"
  | name => "NameError"
  | type => "TypeError"
  | importing => "ImportError"

/-- Why execution failed. Values are named by the shown name of their type. -/
inductive Failure where
  | undefinedName (name : String)
  | notExported (space name : String)
  | typeMismatch (expected found : String)
  | assignToConstant (name : String)
  | redeclareConstant (name : String)
  | notCallable (callee : String)
  | arityMismatch (callee : String) (expected found : Nat)
  | invalidArgument (callee reason : String)
  | unsupportedOperands (operator left right : String)
  | unsupportedOperand (operator operand : String)
  | undefinedProperty (target name : String)
  | readOnlyProperty (target name : String)
  | invalidIndex (target key : String)
  | notIterable (target : String)
  | notEnoughElements (expected found : Nat)
  | notAType (name : String)
  | strMustReturnString (className : String)
  | callDepthExceeded
  | cannotImport (path reason : String)
  | circularImport (chain : String)
  | host (message : String)
  deriving DecidableEq, Repr

namespace Failure

def message : Failure → String
  | undefinedName n => "'" ++ n ++ "' is not defined"
  | notExported s n => "'" ++ n ++ "' is not exported by '" ++ s ++ "'"
  | typeMismatch e f => "Expected type '" ++ e ++ "' but got '" ++ f ++ "'"
  | assignToConstant n => "Cannot assign to constant '" ++ n ++ "'"
  | redeclareConstant n => "Cannot redeclare constant '" ++ n ++ "'"
  | notCallable c => "'" ++ c ++ "' is not callable"
  | arityMismatch c e f => c ++ " expects " ++ toString e ++ " arguments but got " ++ toString f
  | invalidArgument c r => c ++ ": " ++ r
  | unsupportedOperands o l r =>
    "Unsupported operand types for " ++ o ++ ": '" ++ l ++ "' and '" ++ r ++ "'"
  | unsupportedOperand o v => "Unsupported operand type for " ++ o ++ ": '" ++ v ++ "'"
  | undefinedProperty t n => "'" ++ t ++ "' has no property '" ++ n ++ "'"
  | readOnlyProperty t n => "Cannot set property '" ++ n ++ "' on '" ++ t ++ "'"
  | invalidIndex t k => "Cannot index '" ++ t ++ "' with '" ++ k ++ "'"
  | notIterable t => "'" ++ t ++ "' is not iterable"
  | notEnoughElements e f =>
    "Not enough elements to destructure: expected " ++ toString e ++ ", found " ++ toString f
  | notAType n => "'" ++ n ++ "' is not a type"
  | strMustReturnString c => "Method 'str' of '" ++ c ++ "' must return a string"
  | callDepthExceeded => "Maximum call depth exceeded"
  | cannotImport p r => "Cannot import '" ++ p ++ "': " ++ r
  | circularImport c => "Circular import: " ++ c
  | host m => m

def kind : Failure → FaultKind
  | undefinedName _ | notExported _ _ => .name
  | cannotImport _ _ | circularImport _ => .importing
  | _ => .type

end Failure

inductive Fault where
  | lexical (error : LexError)
  | grammar (error : SyntaxError)
  | runtime (failure : Failure) (pos : Position)
  deriving Repr

namespace Fault

def kind : Fault → FaultKind
  | lexical _ => .illegalCharacter
  | grammar _ => .grammar
  | runtime f _ => f.kind

def pos : Fault → Position
  | lexical e => e.pos
  | grammar e => e.pos
  | runtime _ p => p

/-- The fault without its kind and position. -/
def message : Fault → String
  | lexical e => "'" ++ e.character.toString ++ "'"
  | grammar e => e.message
  | runtime f _ => f.message

/-- The fault as it is shown to a user, over two lines. -/
def text (f : Fault) : String :=
  f.kind.text ++ ": " ++ f.message ++ "\n    at " ++ f.pos.text

end Fault

end TinyScript

import Piecework.Expr.Parser

/-!
# Errors

What can go wrong between a request and its answer, and how it is worded.
-/

namespace Piecework

/-- A failure of the store. -/
inductive StoreError where
  /-- The store cannot be reached or opened. -/
  | pool (detail : String)
  /-- A statement was refused. -/
  | query (detail : String)
  /-- The schema could not be brought up to date. -/
  | migration (detail : String)
  /-- A stored value does not read as what it should be. -/
  | serialization (detail : String)
deriving DecidableEq, Repr

/-- The wording of a failure of the store. -/
def StoreError.message : StoreError → String
  | pool detail => "Connection pool error: " ++ detail
  | query detail => "Query failed: " ++ detail
  | migration detail => "Migration failed: " ++ detail
  | serialization detail => "Serialization error: " ++ detail

/-- A failure between a worker and the server. -/
inductive ProtocolError where
  /-- A submission says nothing about its task. -/
  | missingOutcome (taskId : Int)
  /-- No answer arrived, or none that can be read. -/
  | transport (detail : String)
  /-- The server refused the request. -/
  | unexpectedStatus (status : Nat) (body : String)
deriving DecidableEq, Repr

/-- The wording of a failure between a worker and the server. -/
def ProtocolError.message : ProtocolError → String
  | missingOutcome taskId =>
    "submission for task " ++ toString taskId ++ " carries neither a result nor an error"
  | transport detail => "transport failure: " ++ detail
  | unexpectedStatus status body =>
    "orchestrator answered " ++ toString status ++ ": " ++ body

/-- What can be looked for in vain. -/
inductive Entity where
  | task
  | expression
deriving DecidableEq, Repr

/-- The noun for an entity. -/
def Entity.name : Entity → String
  | task => "task"
  | expression => "expression"

/-- Any failure. -/
inductive Error where
  | store (e : StoreError)
  | parse (e : ParseError)
  | protocol (e : ProtocolError)
  | notFound (entity : Entity) (id : Int)
deriving DecidableEq, Repr

namespace Error

/-- The wording of a failure. -/
def message : Error → String
  | store e => "Database error: " ++ e.message
  | parse e => "Parse error: " ++ e.message
  | protocol e => "Protocol error: " ++ e.message
  | notFound entity id => entity.name ++ " " ++ toString id ++ " not found"

/-- Whether another attempt may succeed: only the store fails for a while. -/
def isTransient : Error → Bool
  | store _ => true
  | parse _ | protocol _ | notFound .. => false

end Error

end Piecework

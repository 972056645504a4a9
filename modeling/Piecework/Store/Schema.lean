import Piecework.Error

/-!
# The schema

A database knows which tables, views and indexes it has.  The migrations bring it up
to date: each has a version, is applied once, and is recorded in a table of its own.
A statement creates something only if its name is free, so applying a migration to
a database that has its tables already changes nothing but the record.

Statements of a migration are carried out one by one.  The ones before a failing one
stay in force, and its version is not recorded.
-/

namespace Piecework

/-- A statement that creates something, unless it is there already. -/
inductive Definition where
  | table (name : String) (columns : List String)
  | index (name table : String) (columns : List String)
deriving DecidableEq, Repr

/-- A step from one version of the schema to the next. -/
structure Migration where
  version : Int
  name : String
  definitions : List Definition
deriving DecidableEq, Repr

/-- A table or a view. -/
structure Relation where
  name : String
  columns : List String
  isView : Bool
deriving DecidableEq, Repr

/-- What a database consists of.  Of the rows only the recorded versions matter. -/
structure Catalog where
  relations : List Relation
  indexes : List String
  versions : List Int
deriving DecidableEq, Repr

namespace Catalog

/-- A database with nothing in it. -/
def empty : Catalog := ⟨[], [], []⟩

/-- The table or view of a name. -/
def relation? (name : String) (c : Catalog) : Option Relation :=
  c.relations.find? (·.name == name)

/-- What a column that does not exist is answered with. -/
def noColumn (column : String) : String := "SQLite failure: `no such column: " ++ column ++ "`"

/-- What a table that does not exist is answered with. -/
def noTable (table : String) : String := "SQLite failure: `no such table: " ++ table ++ "`"

/-- Carries out a statement, or says why it cannot be. -/
def define (c : Catalog) : Definition → Except String Catalog
  | .table name columns =>
    match c.relation? name with
    | some _ => .ok c
    | none => .ok { c with relations := c.relations ++ [⟨name, columns, false⟩] }
  | .index name table columns =>
    if c.indexes.contains name then .ok c
    else
      match c.relation? table with
      | none => .error (noTable table)
      | some r =>
        match columns.find? fun column => !r.columns.contains column with
        | some column => .error (noColumn column)
        | none => .ok { c with indexes := c.indexes ++ [name] }

/-- Carries out statements until one fails. -/
def defineAll (c : Catalog) : List Definition → Option String × Catalog
  | [] => (none, c)
  | d :: rest =>
    match c.define d with
    | .ok c => c.defineAll rest
    | .error e => (some e, c)

/-- The table that records which migrations were applied. -/
def recordName : String := "_migrations"

/-- The columns of that table. -/
def recordColumns : List String := ["version", "name", "applied_at"]

/-- The largest recorded version, or zero when there is none. -/
def currentVersion (c : Catalog) : Except StoreError Int :=
  match c.relation? recordName with
  | none => .error (.migration ("Failed to query migration version: " ++ noTable recordName))
  | some r =>
    if r.columns.contains "version" then
      match c.versions with
      | [] => .ok 0
      | v :: rest => .ok (rest.foldl max v)
    else .error (.migration ("Failed to query migration version: " ++ noColumn "version"))

/-- Records a version. -/
def recordVersion (version : Int) (c : Catalog) : Except StoreError Catalog :=
  match c.relation? recordName with
  | some ⟨_, _, true⟩ =>
    .error (.migration ("Failed to record migration V" ++ toString version ++
      ": SQLite failure: `cannot modify " ++ recordName ++ " because it is a view`"))
  | _ =>
    if c.versions.contains version then .ok c
    else .ok { c with versions := c.versions ++ [version] }

/-- Applies a migration and records it. -/
def apply (m : Migration) (c : Catalog) : Except StoreError Unit × Catalog :=
  match c.defineAll m.definitions with
  | (some e, c) =>
    (.error (.migration ("Migration V" ++ toString m.version ++ " (" ++ m.name ++
      ") failed: " ++ e)), c)
  | (none, c) =>
    match c.recordVersion m.version with
    | .ok c => (.ok (), c)
    | .error e => (.error e, c)

/-- Applies, in order, the migrations that are newer than a version. -/
def applyNewer (version : Int) : List Migration → Catalog → Except StoreError Unit × Catalog
  | [], c => (.ok (), c)
  | m :: rest, c =>
    if version < m.version then
      match c.apply m with
      | (.ok (), c) => applyNewer version rest c
      | (.error e, c) => (.error e, c)
    else applyNewer version rest c

/-- Makes sure that versions can be recorded. -/
def prepare (c : Catalog) : Catalog :=
  match c.relation? recordName with
  | some _ => c
  | none => { c with relations := c.relations ++ [⟨recordName, recordColumns, false⟩] }

/-- Brings a database up to date. -/
def migrate (migrations : List Migration) (c : Catalog) : Except StoreError Unit × Catalog :=
  let c := c.prepare
  match c.currentVersion with
  | .error e => (.error e, c)
  | .ok version => c.applyNewer version migrations

/-- Everything in the database by kind and name, in alphabetical order. -/
def listing (c : Catalog) : List String :=
  let relations := c.relations.map fun r => (if r.isView then "view " else "table ") ++ r.name
  (c.indexes.map ("index " ++ ·) ++ relations).mergeSort fun a b => a ≤ b

end Catalog

namespace Migration

/-- The columns of the table of expressions. -/
def expressionColumns : List String :=
  ["id", "owner_id", "source", "status", "result", "steps", "created_at", "updated_at"]

/-- The columns of the table of tasks. -/
def taskColumns : List String :=
  ["id", "expression_id", "operator", "operand1", "operand2", "node_path", "result", "status",
    "retries", "created_at", "updated_at"]

/-- The first migration: both tables, and the indexes that the queries use. -/
def initial : Migration where
  version := 1
  name := "initial_schema"
  definitions := [
    .table "expressions" expressionColumns,
    .index "idx_expressions_owner" "expressions" ["owner_id"],
    .index "idx_expressions_status" "expressions" ["status"],
    .table "tasks" taskColumns,
    .index "idx_tasks_status_created" "tasks" ["status", "created_at"],
    .index "idx_tasks_expression" "tasks" ["expression_id"]]

/-- All migrations, the oldest first. -/
def all : List Migration := [initial]

end Migration

end Piecework

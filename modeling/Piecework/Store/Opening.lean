import Piecework.Store.Basic

/-!
# Opening a database

What is found where the database is to be decides whether it can be opened.
Missing directories are made and a missing file is created; a file without content
becomes an empty database.
-/

namespace Piecework

/-- What is found at the place of a database. -/
inductive Place where
  /-- Nothing, or an empty file; every directory above it can be made. -/
  | free
  /-- A database. -/
  | database (store : Store)
  /-- A directory above it is a file. -/
  | underFile
  /-- A directory, with the path that it is named by. -/
  | directory (path : String)
  /-- A file with another content. -/
  | foreign
deriving Repr

namespace Place

/-- Opens the database at a place and brings it up to date. -/
def openStore : Place → Except StoreError Store
  | free => .ok .empty
  | database store => .ok store
  | underFile =>
    .error (.pool "Failed to create database directory: File exists (os error 17)")
  | directory path =>
    .error (.pool ("Failed to create connection: Failed to connect to database: " ++
      "`Unable to open connection to local database " ++ path ++ ": 14`"))
  | foreign =>
    .error (.migration
      "Failed to create _migrations table: SQLite failure: `file is not a database`")

end Place

end Piecework

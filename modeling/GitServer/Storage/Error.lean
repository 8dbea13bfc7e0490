/-!
# Storage errors

A registry or repository operation fails for one of a few reasons, which transports turn into
status codes. Each carries a short text naming the repository, object or reference involved.
-/

namespace GitServer

/-- Why a storage operation failed. -/
inductive StorageError where
  /-- A repository, object, reference or record is absent. -/
  | notFound (what : String)
  /-- Something to be created is already there. -/
  | alreadyExists (what : String)
  /-- The caller gave a malformed name or argument. -/
  | invalidRequest (why : String)
  /-- A compare-and-swap found another value than expected. -/
  | referenceConflict (name expected actual : String)
  /-- The medium failed or holds data that does not decode. -/
  | backend (why : String)
  /-- The operation is not offered. -/
  | unsupported (what : String)
  /-- The file system refused an operation; the text is the system's message. -/
  | io (message : String)
deriving DecidableEq, Repr

namespace StorageError

/-- The message of a storage error. -/
def message : StorageError → String
  | .notFound s => "not found: " ++ s
  | .alreadyExists s => "already exists: " ++ s
  | .invalidRequest s => "invalid request: " ++ s
  | .referenceConflict n e a => "reference conflict on " ++ n ++ ": expected " ++ e ++ ", found " ++ a
  | .backend s => "storage backend error: " ++ s
  | .unsupported s => "unsupported operation: " ++ s
  | .io s => "I/O error: " ++ s

/-- Whether the error says that something is absent. -/
def isNotFound : StorageError → Bool
  | .notFound _ => true
  | _ => false

end StorageError

end GitServer

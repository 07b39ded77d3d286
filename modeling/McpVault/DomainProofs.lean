import McpVault.FallibleProofs
import McpVault.TextProofs

/-! # Shared vocabulary — identifiers, contexts, and text limits

What the repositories of the `state` crate share: the Vault context every scoped call proves, the
error a call reports, and the check that guards each bounded text (a label, a worker name, an
idempotency key). -/

namespace VaultDomain

/-- Identifiers are opaque, up to equality and order. -/
abbrev VaultId := Nat

/-- A resolved Vault, as `ensure_context` compares. -/
structure VaultContext where
  id : VaultId
  (slug contentRoot : String)
  deriving DecidableEq

abbrev FileId := Nat

abbrev OperationId := Nat

/-- A Vault path, by the `segments` of its text. -/
abbrev VaultPath := List String

abbrev Revision := Nat

/-- The kind of a caller. -/
inductive ActorType where
  | admin
  | webDavCredential
  | mcpPat
  | mcpOAuthSubject
  | reconciler
  | memoryWorker
  | system
  deriving DecidableEq

structure Actor where
  actorType : ActorType
  actorId : Option String
  deriving DecidableEq

/-- The plane from which an operation came. -/
inductive SourcePlane where
  | admin
  | webDav
  | mcp
  | reconciliation
  | memory
  | system
  deriving DecidableEq

/-- The errors of `domain` that the calls return. -/
inductive DomainError where
  | reservedPath (path : VaultPath)
  | pathNotManaged
  | preconditionFailed (reason : String)
  | revisionConflict (expected current : Revision)
  | revisionOverflow
  deriving DecidableEq

/-- The errors of `state` that the calls return. -/
inductive StateError where
  | invalidInput (message : String)
  | invalidDomain (error : DomainError)
  | conflict
  | database
  deriving DecidableEq

/-- Not empty, not too many bytes, no control character. -/
def boundedText (maxBytes : Nat) (value : String) : Bool :=
  !(value.isEmpty || decide (maxBytes < value.utf8ByteSize) || value.toList.any PlainText.isControl)

/-- Fail with a message unless the check passes. -/
def require (ok : Bool) (message : String) : Except StateError Unit :=
  if ok then .ok () else .error (.invalidInput message)

/-- `ensure_context`: the Vault is registered like that. -/
def ensureContext (vaults : List VaultContext) (context : VaultContext) : Except StateError Unit :=
  require (decide (context ∈ vaults)) "Vault context is not registered"

theorem require_ok {ok : Bool} {message : String} {u : Unit}
    (h : require ok message = .ok u) : ok := by
  cases ok with
  | true => rfl
  | false => cases h

end VaultDomain

import AtomWire.Error

/-!
# Numbered outcomes

Hosts see the outcome of a call as a number: 0 for success, from -1 for arguments that
cannot be used, from -10 for the errors of writing and reading.
-/

namespace AtomWire.Host

set_option autoImplicit false

inductive Status where
  | ok
  | nullPointer
  | invalidArgument
  | notFound
  | bufferTooSmall
  | wire (e : WireError)
deriving DecidableEq

def Status.code : Status → Int
  | ok => 0
  | nullPointer => -1
  | invalidArgument => -2
  | notFound => -4
  | bufferTooSmall => -5
  | wire .outOfSpace => -10
  | wire .frameUnderflow => -11
  | wire .frameOverflow => -12
  | wire .frameMismatch => -13
  | wire .truncatedBuffer => -14
  | wire .unexpectedType => -15
  | wire .malformedContainer => -16
  | wire .typeMismatch => -17

/-- A status, and what the call stores where the caller asked for it. -/
structure Answer (α : Type) where
  status : Status
  stored : Option α

def Answer.fail {α : Type} (status : Status) : Answer α := ⟨status, none⟩

def Answer.ofExcept {α : Type} : Except WireError α → Answer α
  | .ok a => ⟨.ok, some a⟩
  | .error e => .fail (.wire e)

end AtomWire.Host

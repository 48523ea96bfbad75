import AtomWire.Host.Read

/-!
# Calls that store into the memory of the caller

The answer of a call says what the caller has in the end. A routine is the same call step
by step: it checks its arguments, looks, and stores through them, and every store is noted
in order. A failure ends it and takes back nothing.
-/

namespace AtomWire.Host

set_option autoImplicit false

/-- A store through an argument of the caller. -/
inductive Store where
  | id (id : TypeId)
  | type (type : TypeId)
  | bodySize (size : UInt32)
  | next (offset : Nat)
  | scalar (value : Scalar)
  | count (count : Nat)
  | length (length : Nat)
  /-- Bytes into the room for a text, from an index on. -/
  | bytes (start : Nat) (bytes : Bytes)
deriving DecidableEq

/-- The room for a text after a store. -/
def Store.fill (room : Bytes) : Store → Bytes
  | bytes start patch => overwrite room start patch
  | _ => room

def Store.length? : Store → Option Nat
  | length n => some n
  | _ => none

def Store.next? : Store → Option Nat
  | next offset => some offset
  | _ => none

/-- What has been stored, the first store first, and how it ended. -/
structure Routine (α : Type) where
  stores : List Store
  result : Except Status α

namespace Routine

variable {α β : Type}

instance : Monad Routine where
  pure a := ⟨[], .ok a⟩
  bind p f :=
    match p.result with
    | .ok a => ⟨p.stores ++ (f a).stores, (f a).result⟩
    | .error status => ⟨p.stores, .error status⟩

def status (p : Routine Unit) : Status :=
  match p.result with
  | .ok _ => .ok
  | .error status => status

/-- The room for a text when the routine is over. -/
def fill (p : Routine Unit) (room : Bytes) : Bytes := p.stores.foldl Store.fill room

/-- What a caller with the given room for a text has in the end. -/
def textAnswer (p : Routine Unit) (room : Option Bytes) : TextAnswer :=
  ⟨p.status, p.stores.findSome? Store.length?, room.map p.fill⟩

def fail (status : Status) : Routine α := ⟨[], .error status⟩

def store (s : Store) : Routine Unit := ⟨[s], .ok ()⟩

def require (condition : Bool) (status : Status) : Routine Unit :=
  if condition then pure () else fail status

/-- An argument that must not be missing. -/
def given (argument : Option α) : Routine α :=
  match argument with
  | some a => pure a
  | none => fail .nullPointer

def check : Except WireError α → Routine α
  | .ok a => pure a
  | .error e => fail (.wire e)

/-- Tells the length of a text, then copies the text and a zero byte into the room. `room`
says whether there is any, and `capacity` how much. -/
def copyText (text : Bytes) (room : Bool) (capacity : Nat) : Routine Unit := do
  store (.length text.length)
  require (room && text.length < capacity) .bufferTooSmall
  store (.bytes 0 text)
  store (.bytes text.length [0])

def mapUri (lexicon : Option Lexicon) (uri : Option Bytes) (wanted : Bool) : Routine Unit := do
  let l ← given lexicon
  let uri ← given uri
  require wanted .nullPointer
  let id := (l.table.map (untilZero uri)).1
  require (id ≠ 0) .invalidArgument
  store (.id id)

def unmapUri (lexicon : Option Lexicon) (id : TypeId) (room : Bool) (capacity : Nat)
    (wanted : Bool) : Routine Unit := do
  let l ← given lexicon
  require wanted .nullPointer
  match l.table.unmap id with
  | some uri => copyText uri room capacity
  | none => fail .notFound

/-- The atom at an offset, and the source it is in. -/
def atomAt (lexicon : Option Lexicon) (memory : Memory) (offset : Nat) (wanted : Bool) :
    Routine (Source × AtomView) := do
  require wanted .nullPointer
  let s ← given (sourceOf lexicon memory)
  let view ← check (s.atomAt offset)
  return (s, view)

def readHeader (lexicon : Option Lexicon) (memory : Memory) (offset : Nat) (wanted : Bool) :
    Routine Unit := do
  let (_, view) ← atomAt lexicon memory offset wanted
  store (.type view.type)
  store (.bodySize view.bodySize)
  store (.next view.next)

def readScalar (kind : ScalarKind) (lexicon : Option Lexicon) (memory : Memory) (offset : Nat)
    (wanted : Bool) : Routine Unit := do
  let (s, view) ← atomAt lexicon memory offset wanted
  let value ← check (s.scalarOf kind view)
  store (.scalar value)

def readString (lexicon : Option Lexicon) (memory : Memory) (offset : Nat) (room : Bool)
    (capacity : Nat) (wanted : Bool) : Routine Unit := do
  let (s, view) ← atomAt lexicon memory offset wanted
  let text ← check (s.text .string view)
  copyText text room capacity

/-- Counts on from `count`; an error ends it. -/
def countItems : List (Except WireError α) → Nat → Routine Nat
  | [], count => return count
  | .ok _ :: rest, count => countItems rest (count + 1)
  | .error e :: _, _ => fail (.wire e)

def tupleChildCount (lexicon : Option Lexicon) (memory : Memory) (offset : Nat)
    (wanted : Bool) : Routine Unit := do
  let (s, view) ← atomAt lexicon memory offset wanted
  let children ← check (s.tuple view)
  let count ← countItems children.items 0
  store (.count count)

end Routine

end AtomWire.Host

import AtomWire.Alignment
import AtomWire.Scalar
import AtomWire.Stamp

/-!
# A writer over a buffer of fixed size

The buffer is what is `written` followed by what is `spare`; the cursor stands between the
two. Containers are opened before their size is known: the header goes out with size 0 and
closing the container fills the size in. `frames` lists the open containers, the innermost
one first.
-/

namespace AtomWire

set_option autoImplicit false

/-- An open container, and what it allows next. -/
inductive FrameKind where
  /-- Bare elements, all of the locked type and width. -/
  | vector (lock : Option (TypeId × UInt32))
  | tuple
  /-- A key, then its value. -/
  | object (awaiting : Bool)
  /-- A stamp of the unit, then its value. -/
  | sequence (unit : TimeUnit) (awaiting : Bool)
deriving DecidableEq

/-- Whether a key or a stamp still waits for its value. -/
def FrameKind.awaiting : FrameKind → Bool
  | vector _ | tuple => false
  | object awaiting | sequence _ awaiting => awaiting

/-- The frame after the start of a value in it. -/
def FrameKind.beginValue : FrameKind → Except WireError FrameKind
  | tuple => .ok tuple
  | object true => .ok (object false)
  | sequence unit true => .ok (sequence unit false)
  | vector _ | object false | sequence _ false => .error .frameMismatch

structure Frame where
  kind : FrameKind
  header : Nat
deriving DecidableEq

/-- Names an open container: its place among the open ones, from 1, and its header. -/
structure Handle where
  depth : Nat
  offset : Nat
deriving DecidableEq

def maxDepth : Nat := 16

/-- The largest body that a header can announce. -/
def maxBody : Nat := 0xffffffff

def headerBytes (type : TypeId) (bodySize : Nat) : Bytes :=
  word32 type ++ word32 (UInt32.ofNat bodySize)

structure Writer where
  vocabulary : Vocabulary
  zeroPadding : Bool
  written : Bytes
  spare : Bytes
  frames : List Frame
  /-- The number of atoms finished outside of any container. -/
  completed : Nat
  /-- Space has run out; nothing is accepted any more. -/
  exhausted : Bool

namespace Writer

def create (vocabulary : Vocabulary) (zeroPadding : Bool) (buffer : Bytes) : Writer :=
  ⟨vocabulary, zeroPadding, [], buffer, [], 0, false⟩

def reset (w : Writer) (buffer : Bytes) : Writer := create w.vocabulary w.zeroPadding buffer

def buffer (w : Writer) : Bytes := w.written ++ w.spare

def capacity (w : Writer) : Nat := w.buffer.length

def size (w : Writer) : Nat := w.written.length

def depth (w : Writer) : Nat := w.frames.length

def isComplete (w : Writer) : Bool := w.frames.isEmpty && !w.exhausted && 0 < w.completed

def claim (w : Writer) (count : Nat) : Except WireError Unit :=
  ensure (count ≤ w.spare.length) .outOfSpace

/-- Moves the cursor over the given bytes, which must fit. -/
def append (w : Writer) (bytes : Bytes) : Writer :=
  { w with written := w.written ++ bytes, spare := w.spare.drop bytes.length }

/-- Moves the cursor over `count` bytes of padding: zeros, or whatever stood there. -/
def pad (w : Writer) (count : Nat) : Writer :=
  w.append (if w.zeroPadding then List.replicate count 0 else w.spare.take count)

def patch (w : Writer) (offset : Nat) (bytes : Bytes) : Writer :=
  { w with written := overwrite w.written offset bytes }

def finishAtom (w : Writer) : Writer :=
  if w.frames.isEmpty then { w with completed := w.completed + 1 } else w

def beginValue (w : Writer) : Except WireError Writer :=
  match w.frames with
  | [] => .ok w
  | frame :: outer => do
    let kind ← frame.kind.beginValue
    return { w with frames := { frame with kind } :: outer }

def putAtom (w : Writer) (type : TypeId) (body : Bytes) : Except WireError Writer := do
  let w ← w.beginValue
  ensure (body.length ≤ maxBody) .outOfSpace
  w.claim (headerSize + body.length + padding body.length)
  return ((w.append (headerBytes type body.length ++ body)).pad (padding body.length)).finishAtom

/-- Writes an atom of a type that must not be absent. -/
def putTyped (w : Writer) (type : TypeId) (body : Bytes) : Except WireError Writer := do
  ensure (type ≠ 0) .typeMismatch
  w.putAtom type body

def putElement (w : Writer) (bytes : Bytes) : Except WireError Writer :=
  match w.frames with
  | ⟨.vector (some (_, width)), _⟩ :: _ => do
    ensure (bytes.length = width.toNat) .frameMismatch
    w.claim bytes.length
    return w.append bytes
  | _ => .error .frameMismatch

/-- Writes a scalar: an element inside a vector, elsewhere an atom. The first scalar in a
vector without a type gives it one. -/
def putScalar (w : Writer) (type : TypeId) (value : Scalar) : Except WireError Writer := do
  let bytes ← w.vocabulary.encode type value
  match w.frames with
  | ⟨.vector none, header⟩ :: outer =>
    w.claim bytes.length
    let width := UInt32.ofNat bytes.length
    let locked := w.patch (header + headerSize) (word32 type ++ word32 width)
    return { locked.append bytes with
      frames := ⟨.vector (some (type, width)), header⟩ :: outer }
  | ⟨.vector (some (childType, width)), _⟩ :: _ =>
    ensure (childType = type ∧ width.toNat = bytes.length) .frameMismatch
    w.claim bytes.length
    return w.append bytes
  | _ => w.putAtom type bytes

/-- Opens a container whose body starts with the bytes of `lead`. -/
def push (w : Writer) (kind : FrameKind) (term : Term) (lead : Bytes) :
    Except WireError (Handle × Writer) := do
  let type := w.vocabulary.id term
  ensure (type ≠ 0) .typeMismatch
  ensure (w.depth < maxDepth) .frameOverflow
  let w ← w.beginValue
  w.claim (headerSize + lead.length)
  let opened := w.append (headerBytes type 0 ++ lead)
  return (⟨w.depth + 1, w.size⟩, { opened with frames := ⟨kind, w.size⟩ :: w.frames })

/-- Opens a vector; with an absent type the first scalar decides. -/
def pushVector (w : Writer) (childType : TypeId) (width : UInt32) :
    Except WireError (Handle × Writer) :=
  if childType = 0 then w.push (.vector none) .vector (word32 0 ++ word32 0)
  else do
    ensure (width ≠ 0) .frameMismatch
    w.push (.vector (some (childType, width))) .vector (word32 childType ++ word32 width)

def pushObject (w : Writer) (id otype : TypeId) : Except WireError (Handle × Writer) :=
  w.push (.object false) .object (word32 id ++ word32 otype)

def pushSequence (w : Writer) (unit : TimeUnit) : Except WireError (Handle × Writer) :=
  w.push (.sequence unit false) .sequence (word32 (w.vocabulary.id unit.term) ++ word32 0)

def putProperty (w : Writer) (key context : TypeId) : Except WireError Writer :=
  match w.frames with
  | ⟨.object false, header⟩ :: outer => do
    ensure (key ≠ 0) .typeMismatch
    w.claim 8
    return { w.append (word32 key ++ word32 context) with
      frames := ⟨.object true, header⟩ :: outer }
  | _ => .error .frameMismatch

def putStamp (w : Writer) (stamp : Stamp) : Except WireError Writer :=
  match w.frames with
  | ⟨.sequence unit false, header⟩ :: outer => do
    ensure (stamp.unit = unit) .typeMismatch
    w.claim 8
    return { w.append stamp.payload with
      frames := ⟨.sequence unit true, header⟩ :: outer }
  | _ => .error .frameMismatch

/-- Closes the innermost container: fills in its size and pads it. -/
def pop (w : Writer) : Except WireError Writer :=
  match w.frames with
  | [] => .error .frameUnderflow
  | frame :: outer => do
    ensure (!frame.kind.awaiting) .frameMismatch
    let bodySize := w.size - (frame.header + headerSize)
    ensure (bodySize ≤ maxBody) .outOfSpace
    w.claim (padding bodySize)
    let sized := (w.pad (padding bodySize)).patch (frame.header + 4)
      (word32 (UInt32.ofNat bodySize))
    return { sized with frames := outer }.finishAtom

/-- Closes the container of the handle, which must be the innermost one. -/
def popHandle (w : Writer) (handle : Handle) : Except WireError Writer :=
  match w.frames with
  | [] => .error .frameUnderflow
  | frame :: _ => do
    ensure (handle.depth = w.depth ∧ handle.offset = frame.header) .frameMismatch
    w.pop

/-- Moves the cursor over `count` bytes and leaves them as they are. -/
def reserve (w : Writer) (count : Nat) : Except WireError (Nat × Writer) := do
  w.claim count
  return (w.size, w.append (w.spare.take count))

end Writer

end AtomWire

import AtomWire.Writer.Op

/-!
# Calls in place

`Writer.step` computes the writer after a call from the one before it, so a failed call has
nothing to take back. The commands below are the same calls as they act on a buffer: they
change the writer piece by piece, and what they have changed before a failure stays
changed. Room is taken by `reserve` alone, and bytes go only where room was taken before.
-/

namespace AtomWire

set_option autoImplicit false

/-- Acts on a writer in place. A failure keeps the changes made before it. -/
abbrev Command (α : Type) := EStateM WireError Writer α

namespace Command

/-- Fails as the check does; the check changes nothing. -/
def check {α : Type} : Except WireError α → Command α
  | .ok a => pure a
  | .error e => throw e

/-- Marks that space has run out. -/
def exhaust {α : Type} : Command α := do
  modify ({ · with exhausted := true })
  throw .outOfSpace

def guardSpace : Command Unit := do
  check (ensure (!(← get).exhausted) .outOfSpace)

/-- Moves the cursor over `count` bytes as they are and returns where it stood. -/
def reserve (count : Nat) : Command Nat := do
  guardSpace
  let w ← get
  if count ≤ w.spare.length then
    set (w.append (w.spare.take count))
    return w.size
  else exhaust

/-- Replaces bytes behind the cursor. -/
def store (offset : Nat) (bytes : Bytes) : Command Unit := modify (·.patch offset bytes)

def fillPadding (offset count : Nat) : Command Unit := do
  if (← get).zeroPadding then store offset (List.replicate count 0)

def setFrames (frames : List Frame) : Command Unit := modify ({ · with frames })

/-- Uses up the key or stamp that waits for a value, before any room is taken for it. -/
def beginValue : Command Unit := do
  guardSpace
  match (← get).frames with
  | [] => return
  | frame :: outer =>
    let kind ← check frame.kind.beginValue
    setFrames ({ frame with kind } :: outer)

/-- Takes the room of a whole atom, writes all but its body and returns where that starts. -/
def openAtom (type : TypeId) (bodySize : Nat) : Command Nat := do
  if bodySize ≤ maxBody then
    let start ← reserve (headerSize + bodySize + padding bodySize)
    store start (headerBytes type bodySize)
    fillPadding (start + headerSize + bodySize) (padding bodySize)
    return start + headerSize
  else exhaust

def putAtom (type : TypeId) (body : Bytes) : Command Unit := do
  beginValue
  let start ← openAtom type body.length
  store start body
  modify Writer.finishAtom

def putTyped (type : TypeId) (body : Bytes) : Command Unit := do
  guardSpace
  check (ensure (type ≠ 0) .typeMismatch)
  putAtom type body

def putLiteral (text : Bytes) (lang datatype : TypeId) : Command Unit := do
  guardSpace
  let type := (← get).vocabulary.id .literal
  check (ensure (type ≠ 0 ∧ (lang = 0 ∨ datatype = 0)) .typeMismatch)
  putAtom type (word32 lang ++ word32 datatype ++ text ++ [0])

def putBytes (bytes : Bytes) : Command Unit := do
  let start ← reserve bytes.length
  store start bytes

def putScalar (type : TypeId) (value : Scalar) : Command Unit := do
  guardSpace
  let w ← get
  let bytes ← check (w.vocabulary.encode type value)
  match w.frames with
  | ⟨.vector none, header⟩ :: outer =>
    let width := UInt32.ofNat bytes.length
    let start ← reserve bytes.length
    setFrames (⟨.vector (some (type, width)), header⟩ :: outer)
    store (header + headerSize) (word32 type ++ word32 width)
    store start bytes
  | ⟨.vector (some (childType, width)), _⟩ :: _ =>
    check (ensure (childType = type ∧ width.toNat = bytes.length) .frameMismatch)
    putBytes bytes
  | _ => putAtom type bytes

def putElement (bytes : Bytes) : Command Unit := do
  guardSpace
  match (← get).frames with
  | ⟨.vector (some (_, width)), _⟩ :: _ =>
    check (ensure (bytes.length = width.toNat) .frameMismatch)
    putBytes bytes
  | _ => throw .frameMismatch

def push (kind : FrameKind) (term : Term) (lead : Bytes) : Command Handle := do
  guardSpace
  let w ← get
  let type := w.vocabulary.id term
  check (ensure (type ≠ 0) .typeMismatch)
  check (ensure (w.depth < maxDepth) .frameOverflow)
  beginValue
  let start ← reserve (headerSize + lead.length)
  store start (headerBytes type 0)
  store (start + headerSize) lead
  modify fun w => { w with frames := ⟨kind, start⟩ :: w.frames }
  return ⟨(← get).depth, start⟩

def pushVector (childType : TypeId) (width : UInt32) : Command Handle := do
  guardSpace
  if childType = 0 then push (.vector none) .vector (word32 0 ++ word32 0)
  else
    check (ensure (width ≠ 0) .frameMismatch)
    push (.vector (some (childType, width))) .vector (word32 childType ++ word32 width)

def pushSequence (unit : TimeUnit) : Command Handle := do
  let unitType := (← get).vocabulary.id unit.term
  push (.sequence unit false) .sequence (word32 unitType ++ word32 0)

def putProperty (key context : TypeId) : Command Unit := do
  guardSpace
  match (← get).frames with
  | ⟨.object false, header⟩ :: outer =>
    check (ensure (key ≠ 0) .typeMismatch)
    putBytes (word32 key ++ word32 context)
    setFrames (⟨.object true, header⟩ :: outer)
  | _ => throw .frameMismatch

def putStamp (stamp : Stamp) : Command Unit := do
  guardSpace
  match (← get).frames with
  | ⟨.sequence unit false, header⟩ :: outer =>
    check (ensure (stamp.unit = unit) .typeMismatch)
    putBytes stamp.payload
    setFrames (⟨.sequence unit true, header⟩ :: outer)
  | _ => throw .frameMismatch

def pop : Command Unit := do
  guardSpace
  let w ← get
  match w.frames with
  | [] => throw .frameUnderflow
  | frame :: outer =>
    check (ensure (!frame.kind.awaiting) .frameMismatch)
    let bodySize := w.size - (frame.header + headerSize)
    if bodySize ≤ maxBody then
      let start ← reserve (padding bodySize)
      fillPadding start (padding bodySize)
      store (frame.header + 4) (word32 (UInt32.ofNat bodySize))
      setFrames outer
      modify Writer.finishAtom
    else exhaust

def popHandle (handle : Handle) : Command Unit := do
  guardSpace
  let w ← get
  match w.frames with
  | [] => throw .frameUnderflow
  | frame :: _ =>
    check (ensure (handle.depth = w.depth ∧ handle.offset = frame.header) .frameMismatch)
    pop

def done (command : Command Unit) : Command Reply := do
  command
  return .done

def opened (command : Command Handle) : Command Reply := return .handle (← command)

end Command

open Command in
def Op.command : Op → Command Reply
  | .reserve count => return .offset (← Command.reserve count)
  | .scalar type x => (putScalar type x).done
  | .value x => do (putScalar ((← get).vocabulary.scalarType x.kind) x).done
  | .text form content => do (putTyped ((← get).vocabulary.id form.term) (content ++ [0])).done
  | .literal content lang datatype => (putLiteral content lang datatype).done
  | .chunk body => do (putTyped ((← get).vocabulary.id .chunk) body).done
  | .atom type body => (putTyped type body).done
  | .pushVector childType width => (Command.pushVector childType width).opened
  | .element bytes => (putElement bytes).done
  | .pushTuple => (push .tuple .tuple []).opened
  | .pushObject id otype => (push (.object false) .object (word32 id ++ word32 otype)).opened
  | .property key context => (putProperty key context).done
  | .pushSequence unit => (Command.pushSequence unit).opened
  | .stamp time => (putStamp time).done
  | .pop => Command.pop.done
  | .popHandle handle => (Command.popHandle handle).done
  | .reset buffer => do
    modify fun w => w.reset (buffer.getD w.buffer)
    return .done

namespace Writer

/-- Answers a call in place. -/
def execute (w : Writer) (op : Op) : Except WireError Reply × Writer :=
  match op.command.run w with
  | .ok reply w' => (.ok reply, w')
  | .error e w' => (.error e, w')

def executeAll (w : Writer) : List Op → List (Except WireError Reply) × Writer
  | [] => ([], w)
  | op :: rest =>
    let first := w.execute op
    let others := first.2.executeAll rest
    (first.1 :: others.1, others.2)

end Writer

end AtomWire

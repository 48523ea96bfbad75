import AtomWire.Writer.Command

/-!
# Open containers in slots

The open containers of a writer stand in an array of `maxDepth` slots, of which the first
`depth` are in use. Opening a container clears the next slot and takes it; closing one, or
starting anew, only moves `depth`, and what stood in the slots stays there. The calls below
are the commands in place with the innermost container read and changed in its slot.
-/

namespace AtomWire

set_option autoImplicit false

inductive SlotKind where
  | tuple | vector | object | sequence
deriving DecidableEq

/-- An open container as it is kept in a slot. The defaults are those of a cleared slot. -/
structure Slot where
  kind : SlotKind := .tuple
  awaiting : Bool := false
  unit : TimeUnit := .frames
  childType : TypeId := 0
  width : UInt32 := 0
  header : Nat := 0
deriving DecidableEq

namespace Slot

/-- What the container allows next. Of the fields, each kind has its own. -/
def frameKind (s : Slot) : FrameKind :=
  match s.kind with
  | .tuple => .tuple
  | .vector => .vector (if s.childType = 0 then none else some (s.childType, s.width))
  | .object => .object s.awaiting
  | .sequence => .sequence s.unit s.awaiting

def frame (s : Slot) : Frame := ⟨s.frameKind, s.header⟩

end Slot

structure SlotStack where
  slots : Vector Slot maxDepth
  depth : Nat
  depth_le : depth ≤ maxDepth

namespace SlotStack

def fresh : SlotStack := ⟨Vector.replicate maxDepth {}, 0, Nat.zero_le _⟩

def top? (s : SlotStack) : Option Slot :=
  if s.depth = 0 then none else s.slots[s.depth - 1]?

def modifyTop (f : Slot → Slot) (s : SlotStack) : SlotStack :=
  match s.top? with
  | none => s
  | some slot => { s with slots := s.slots.setIfInBounds (s.depth - 1) (f slot) }

/-- Clears the next slot and puts a container into it. -/
def push (kind : SlotKind) (header : Nat) (s : SlotStack) : SlotStack :=
  if h : s.depth < maxDepth then ⟨s.slots.set s.depth { kind, header }, s.depth + 1, h⟩ else s

def pop (s : SlotStack) : SlotStack :=
  ⟨s.slots, s.depth - 1, Nat.le_trans (Nat.sub_le _ _) s.depth_le⟩

/-- No slot is in use any more. None of them is cleared. -/
def clear (s : SlotStack) : SlotStack := ⟨s.slots, 0, Nat.zero_le _⟩

/-- The slots in use, the top one first. -/
def inUse (s : SlotStack) : List Slot := (s.slots.toList.take s.depth).reverse

def frames (s : SlotStack) : List Frame := s.inUse.map Slot.frame

end SlotStack

structure SlotWriter where
  /-- All of the writer but its open containers. -/
  base : Writer
  stack : SlotStack

abbrev SlotCommand (α : Type) := EStateM WireError SlotWriter α

namespace SlotCommand

open Command (guardSpace check exhaust store fillPadding openAtom putBytes)

/-- Acts on the writer without a look at the slots. -/
def onBase {α : Type} (command : Command α) : SlotCommand α := fun w =>
  match command.run w.base with
  | .ok a base => .ok a { w with base }
  | .error e base => .error e { w with base }

def onStack (f : SlotStack → SlotStack) : SlotCommand Unit :=
  modify fun w => { w with stack := f w.stack }

/-- The container in the top slot, which must be one that takes the call. -/
def topIf (takes : Slot → Bool) : SlotCommand Slot := do
  match (← get).stack.top? with
  | none => throw .frameMismatch
  | some slot => if takes slot then return slot else throw .frameMismatch

def finishAtom : SlotCommand Unit := do
  if (← get).stack.depth = 0 then
    onBase (modify fun w => { w with completed := w.completed + 1 })

def beginValue : SlotCommand Unit := do
  onBase guardSpace
  match (← get).stack.top? with
  | none => return
  | some slot =>
    match slot.kind with
    | .tuple => return
    | .vector => throw .frameMismatch
    | .object | .sequence =>
      onBase (check (ensure slot.awaiting .frameMismatch))
      onStack (.modifyTop ({ · with awaiting := false }))

def putAtom (type : TypeId) (body : Bytes) : SlotCommand Unit := do
  beginValue
  let start ← onBase (openAtom type body.length)
  onBase (store start body)
  finishAtom

def putTyped (type : TypeId) (body : Bytes) : SlotCommand Unit := do
  onBase guardSpace
  onBase (check (ensure (type ≠ 0) .typeMismatch))
  putAtom type body

def putLiteral (text : Bytes) (lang datatype : TypeId) : SlotCommand Unit := do
  onBase guardSpace
  let type := (← get).base.vocabulary.id .literal
  onBase (check (ensure (type ≠ 0 ∧ (lang = 0 ∨ datatype = 0)) .typeMismatch))
  putAtom type (word32 lang ++ word32 datatype ++ text ++ [0])

/-- Puts the bytes of a scalar into the vector, which gets its type from the first one. -/
def appendElement (slot : Slot) (type : TypeId) (bytes : Bytes) : SlotCommand Unit := do
  if slot.childType = 0 then
    let width := UInt32.ofNat bytes.length
    let start ← onBase (Command.reserve bytes.length)
    onStack (.modifyTop ({ · with childType := type, width }))
    onBase (store (slot.header + headerSize) (word32 type ++ word32 width))
    onBase (store start bytes)
  else
    onBase (check (ensure (slot.childType = type ∧ slot.width.toNat = bytes.length)
      .frameMismatch))
    onBase (putBytes bytes)

def putScalar (type : TypeId) (value : Scalar) : SlotCommand Unit := do
  onBase guardSpace
  let w ← get
  let bytes ← onBase (check (w.base.vocabulary.encode type value))
  match w.stack.top? with
  | none => putAtom type bytes
  | some slot => if slot.kind = .vector then appendElement slot type bytes else putAtom type bytes

def putElement (bytes : Bytes) : SlotCommand Unit := do
  onBase guardSpace
  let _ ← topIf fun slot =>
    slot.kind = .vector ∧ slot.childType ≠ 0 ∧ bytes.length = slot.width.toNat
  onBase (putBytes bytes)

def push (kind : SlotKind) (term : Term) (lead : Bytes) : SlotCommand Handle := do
  onBase guardSpace
  let w ← get
  let type := w.base.vocabulary.id term
  onBase (check (ensure (type ≠ 0) .typeMismatch))
  onBase (check (ensure (w.stack.depth < maxDepth) .frameOverflow))
  beginValue
  let start ← onBase (Command.reserve (headerSize + lead.length))
  onBase (store start (headerBytes type 0))
  onBase (store (start + headerSize) lead)
  onStack (.push kind start)
  return ⟨(← get).stack.depth, start⟩

def pushVector (childType : TypeId) (width : UInt32) : SlotCommand Handle := do
  onBase guardSpace
  onBase (check (ensure (childType = 0 ∨ width ≠ 0) .frameMismatch))
  let width := if childType = 0 then 0 else width
  let handle ← push .vector .vector (word32 childType ++ word32 width)
  onStack (.modifyTop ({ · with childType, width }))
  return handle

def pushSequence (unit : TimeUnit) : SlotCommand Handle := do
  let unitType := (← get).base.vocabulary.id unit.term
  let handle ← push .sequence .sequence (word32 unitType ++ word32 0)
  onStack (.modifyTop ({ · with unit }))
  return handle

def putProperty (key context : TypeId) : SlotCommand Unit := do
  onBase guardSpace
  let _ ← topIf fun slot => slot.kind = .object ∧ slot.awaiting = false
  onBase (check (ensure (key ≠ 0) .typeMismatch))
  onBase (putBytes (word32 key ++ word32 context))
  onStack (.modifyTop ({ · with awaiting := true }))

def putStamp (stamp : Stamp) : SlotCommand Unit := do
  onBase guardSpace
  let slot ← topIf fun slot => slot.kind = .sequence ∧ slot.awaiting = false
  onBase (check (ensure (stamp.unit = slot.unit) .typeMismatch))
  onBase (putBytes stamp.payload)
  onStack (.modifyTop ({ · with awaiting := true }))

def pop : SlotCommand Unit := do
  onBase guardSpace
  let w ← get
  match w.stack.top? with
  | none => throw .frameUnderflow
  | some slot =>
    onBase (check (ensure (!slot.awaiting) .frameMismatch))
    let bodySize := w.base.size - (slot.header + headerSize)
    if bodySize ≤ maxBody then
      let start ← onBase (Command.reserve (padding bodySize))
      onBase (fillPadding start (padding bodySize))
      onBase (store (slot.header + 4) (word32 (UInt32.ofNat bodySize)))
      onStack .pop
      finishAtom
    else onBase exhaust

def popHandle (handle : Handle) : SlotCommand Unit := do
  onBase guardSpace
  let w ← get
  match w.stack.top? with
  | none => throw .frameUnderflow
  | some slot =>
    onBase (check (ensure (handle.depth = w.stack.depth ∧ handle.offset = slot.header)
      .frameMismatch))
    pop

def done (command : SlotCommand Unit) : SlotCommand Reply := do
  command
  return .done

def opened (command : SlotCommand Handle) : SlotCommand Reply := return .handle (← command)

end SlotCommand

open SlotCommand in
def Op.slotCommand : Op → SlotCommand Reply
  | .reserve count => return .offset (← onBase (Command.reserve count))
  | .scalar type x => (putScalar type x).done
  | .value x => do (putScalar ((← get).base.vocabulary.scalarType x.kind) x).done
  | .text form content => do
    (putTyped ((← get).base.vocabulary.id form.term) (content ++ [0])).done
  | .literal content lang datatype => (putLiteral content lang datatype).done
  | .chunk body => do (putTyped ((← get).base.vocabulary.id .chunk) body).done
  | .atom type body => (putTyped type body).done
  | .pushVector childType width => (SlotCommand.pushVector childType width).opened
  | .element bytes => (putElement bytes).done
  | .pushTuple => (push .tuple .tuple []).opened
  | .pushObject id otype => (push .object .object (word32 id ++ word32 otype)).opened
  | .property key context => (putProperty key context).done
  | .pushSequence unit => (SlotCommand.pushSequence unit).opened
  | .stamp time => (putStamp time).done
  | .pop => SlotCommand.pop.done
  | .popHandle handle => (SlotCommand.popHandle handle).done
  | .reset buffer => do
    modify fun w => { base := w.base.reset (buffer.getD w.base.buffer), stack := w.stack.clear }
    return .done

namespace SlotWriter

def create (vocabulary : Vocabulary) (zeroPadding : Bool) (buffer : Bytes) : SlotWriter :=
  ⟨Writer.create vocabulary zeroPadding buffer, .fresh⟩

/-- The writer with its open containers listed. -/
def view (w : SlotWriter) : Writer := { w.base with frames := w.stack.frames }

/-- Answers a call in place. -/
def execute (w : SlotWriter) (op : Op) : Except WireError Reply × SlotWriter :=
  match op.slotCommand.run w with
  | .ok reply w' => (.ok reply, w')
  | .error e w' => (.error e, w')

def executeAll (w : SlotWriter) : List Op → List (Except WireError Reply) × SlotWriter
  | [] => ([], w)
  | op :: rest =>
    let first := w.execute op
    let others := first.2.executeAll rest
    (first.1 :: others.1, others.2)

end SlotWriter

end AtomWire

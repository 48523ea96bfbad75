import AtomWire.Source.Query

/-!
# Reading on words

`Source` reads with positions that never wrap and with the whole block at hand. A probe is
the same reading as a machine does it: positions are 64-bit words, bytes are come by
through `load` alone, and every load, sum, difference and product is noted, so that one
can tell afterwards what has been touched and whether something has wrapped.
-/

namespace AtomWire

set_option autoImplicit false

inductive Access where
  /-- Bytes that are read or handed out. -/
  | load (start count : Nat)
  | sum (x y : UInt64)
  | difference (x y : UInt64)
  | product (x y : UInt64)
deriving DecidableEq

/-- Reads and notes its accesses, the last one first. A failure keeps the notes. -/
abbrev Probe (α : Type) := EStateM WireError (List Access) α

namespace Probe

variable {α β : Type}

def outcome (p : Probe α) : Except WireError α :=
  match p.run [] with
  | .ok a _ => .ok a
  | .error e _ => .error e

def accesses (p : Probe α) : List Access :=
  match p.run [] with
  | .ok _ log | .error _ log => log

def note (access : Access) : Probe Unit := modify (access :: ·)

/-- Fails as the check does. -/
def check : Except WireError α → Probe α
  | .ok a => pure a
  | .error e => throw e

/-- Hands out a failure as a value. -/
def attempt (p : Probe α) : Probe (Except WireError α) := fun log =>
  match p log with
  | .ok a log => .ok (.ok a) log
  | .error e log => .ok (.error e) log

def load (b : Block) (start : UInt64) (count : Nat) : Probe Bytes := do
  note (.load start.toNat count)
  return slice b.bytes start.toNat count

def add (x y : UInt64) : Probe UInt64 := do
  note (.sum x y)
  return x + y

def sub (x y : UInt64) : Probe UInt64 := do
  note (.difference x y)
  return x - y

def mul (x y : UInt64) : Probe UInt64 := do
  note (.product x y)
  return x * y

/-- The size rounded up to a multiple of eight. -/
def align (size : UInt64) : Probe UInt64 := do
  let raised ← add size atomAlignment
  let top ← sub raised 1
  return top &&& ~~~(atomAlignment - 1)

/-- How far it is to `stop`, which must leave room for a header. -/
def room (pos stop : UInt64) (e : WireError) : Probe UInt64 := do
  check (ensure (pos ≤ stop) e)
  let left ← sub stop pos
  check (ensure (8 ≤ left) e)
  return left

/-- The atom at `pos`, whose header and body must end at `stop` or before. -/
def childAt (b : Block) (pos stop : UInt64) (overrun : WireError) : Probe AtomView := do
  let _ ← room pos stop overrun
  let header ← load b pos 8
  let type := getWord32 header
  let size := getWord32 (header.drop 4)
  let start ← add pos 8
  let left ← sub stop start
  check (ensure (size.toUInt64 ≤ left) overrun)
  let aligned ← align size.toUInt64
  let next ← add start aligned
  let body ← load b start size.toNat
  return ⟨type, size, pos.toNat, (if next ≤ stop then next else stop).toNat,
    ⟨b.memory, start.toNat, body⟩⟩

/-- The record at a position before the end, and the position of the one after it. -/
def itemAt (r : Region α) (pos : UInt64) : Probe (α × UInt64) := do
  let stop := UInt64.ofNat r.stop
  let left ← sub stop pos
  check (ensure (UInt64.ofNat r.layout.lead ≤ left) .malformedContainer)
  let lead ← load r.block pos r.layout.lead
  let start ← add pos (UInt64.ofNat r.layout.lead)
  let value ← childAt r.block start stop r.layout.overrun
  return (r.layout.make lead value, UInt64.ofNat value.next)

/-- Shows the records from `pos` on to a visitor, who may stop at any of them. Every record
takes some of the budget. -/
def walkFrom (r : Region α) (visit : β → Except WireError α → ForInStep β) :
    Nat → UInt64 → β → Probe β
  | 0, _, acc => return acc
  | budget + 1, pos, acc => do
    if pos < UInt64.ofNat r.stop then
      match ← attempt (itemAt r pos) with
      | .error e => return (visit acc (.error e)).value
      | .ok found =>
        match visit acc (.ok found.1) with
        | .done acc => return acc
        | .yield acc => walkFrom r visit budget found.2 acc
    else return acc

/-- Shows the records of a region to a visitor. No record is shorter than a byte, so there
are never more of them than the region has bytes. -/
def walk (r : Region α) (visit : β → Except WireError α → ForInStep β) (init : β) : Probe β :=
  walkFrom r visit (r.stop - r.first) (UInt64.ofNat r.first) init

/-- The visitor who leaves at an error and looks at nothing but values before. -/
def upToError (step : β → α → ForInStep β) (acc : β) : Except WireError α → ForInStep β
  | .ok a => step acc a
  | .error _ => .done acc

def items (r : Region α) : Probe (List (Except WireError α)) :=
  walk r (fun acc item => .yield (acc ++ [item])) []

def count (r : Region α) : Probe Nat := walk r (upToError fun n _ => .yield (n + 1)) 0

def find (o : ObjectView) (key : TypeId) : Probe (Option AtomView) :=
  walk o.properties (upToError fun found p => .yield (if p.key = key then some p.value else found))
    none

/-- How far the stamps of a sequence have been compared. -/
structure Descending where
  previous : Option Stamp
  index : Nat
  found : Option Nat

def Descending.step (d : Descending) (event : Event) : ForInStep Descending :=
  match d.previous with
  | some previous =>
    if event.stamp.before previous then .done { d with found := some d.index }
    else .yield ⟨some event.stamp, d.index + 1, none⟩
  | none => .yield ⟨some event.stamp, d.index + 1, none⟩

def firstDecrease (q : SequenceView) : Probe (Option Nat) :=
  return (← walk q.events (upToError Descending.step) ⟨none, 0, none⟩).found

/-- The element at an index; nothing where there is none. -/
def element (b : Block) (v : VectorView) (index : UInt64) : Probe Bytes := do
  let width := v.width.toUInt64
  if index < UInt64.ofNat v.elements.bytes.length / width then
    let distance ← mul index width
    let start ← add (UInt64.ofNat v.elements.start) distance
    load b start v.width.toNat
  else return []

/-- The element that a cursor at `index` stands on. -/
def look (b : Block) (v : VectorView) (index : UInt64) : Probe Bytes := do
  let width := v.width.toUInt64
  let distance ← mul index width
  if width = 0 then return []
  else
    let stop ← add distance width
    if UInt64.ofNat v.elements.bytes.length < stop then return []
    else
      let start ← add (UInt64.ofNat v.elements.start) distance
      load b start v.width.toNat

/-- What a cursor shows at an index and after each of its next moves. -/
def looksFrom (b : Block) (v : VectorView) : Nat → UInt64 → Probe (List Bytes)
  | 0, _ => return []
  | moves + 1, index => do
    let first ← look b v index
    let next ← add index 1
    return first :: (← looksFrom b v moves next)

def elements (b : Block) (v : VectorView) : Probe (List Bytes) := looksFrom b v v.size 0

/-- The text before the zero byte that ends it. -/
def terminated (b : Block) (start size : UInt64) : Probe Bytes := do
  check (ensure (size ≠ 0) .malformedContainer)
  let last ← sub size 1
  let place ← add start last
  let mark ← load b place 1
  check (ensure (mark = [0]) .malformedContainer)
  load b start last.toNat

section Sources

variable (s : Source)

def headerAt (offset : UInt64) : Probe Header := do
  let left ← room offset (UInt64.ofNat s.size) .truncatedBuffer
  let header ← load s.block offset 8
  let bodySize := getWord32 (header.drop 4)
  let rest ← sub left 8
  let aligned ← align bodySize.toUInt64
  check (ensure (aligned ≤ rest) .truncatedBuffer)
  let padded ← add 8 aligned
  let next ← add offset padded
  return ⟨getWord32 header, bodySize, next.toNat⟩

def atomAt (offset : UInt64) : Probe AtomView := do
  let header ← headerAt s offset
  let start ← add offset 8
  let body ← load s.block start header.bodySize.toNat
  return ⟨header.type, header.bodySize, offset.toNat, header.next,
    ⟨s.block.memory, start.toNat, body⟩⟩

/-- Where the body of the view starts, if the view lies in the source. -/
def bodyStart (view : AtomView) : Probe UInt64 := do
  let size := UInt64.ofNat s.size
  let offset := UInt64.ofNat view.offset
  let _ ← room offset size .truncatedBuffer
  let start ← add offset 8
  let left ← sub size start
  check (ensure (view.bodySize.toUInt64 ≤ left ∧
    view.body.bytes.length = view.bodySize.toNat ∧ view.body.memory = s.block.memory ∧
    view.body.start = start.toNat) .truncatedBuffer)
  return start

def scalar (view : AtomView) : Probe Scalar := do
  let start ← bodyStart s view
  check (ensure (!s.vocabulary.isContainer view.type) .unexpectedType)
  let body ← load s.block start view.bodySize.toNat
  check (s.vocabulary.decode view.type body)

def scalarOf (kind : ScalarKind) (view : AtomView) : Probe Scalar := do
  let value ← scalar s view
  check (ensure (value.kind = kind) .typeMismatch)
  return value

def text (form : TextForm) (view : AtomView) : Probe Bytes := do
  let start ← bodyStart s view
  check (s.expect form.term view)
  terminated s.block start view.bodySize.toUInt64

def literal (view : AtomView) : Probe Literal := do
  let start ← bodyStart s view
  check (s.expect .literal view)
  check (ensure (8 < view.bodySize) .malformedContainer)
  let place ← add start 8
  let rest ← sub view.bodySize.toUInt64 8
  let text ← terminated s.block place rest
  let front ← load s.block start 8
  return ⟨getWord32 front, getWord32 (front.drop 4), text⟩

def chunk (view : AtomView) : Probe Bytes := do
  let start ← bodyStart s view
  check (s.expect .chunk view)
  load s.block start view.bodySize.toNat

def vector (view : AtomView) : Probe VectorView := do
  let start ← bodyStart s view
  check (ensure (view.type = s.vocabulary.id .vector) .unexpectedType)
  check (ensure (8 ≤ view.bodySize) .malformedContainer)
  let front ← load s.block start 8
  let width := getWord32 (front.drop 4)
  let first ← add start 8
  let length ← sub view.bodySize.toUInt64 8
  check (ensure (if width = 0 then length = 0 else length % width.toUInt64 = 0)
    .malformedContainer)
  let elements ← load s.block first length.toNat
  return ⟨getWord32 front, width, ⟨s.block.memory, first.toNat, elements⟩⟩

def tuple (view : AtomView) : Probe (Region AtomView) := do
  let start ← bodyStart s view
  check (ensure (view.type = s.vocabulary.id .tuple) .unexpectedType)
  let stop ← add start view.bodySize.toUInt64
  return ⟨s.block, start.toNat, stop.toNat, Layout.atoms .malformedContainer⟩

def object (view : AtomView) : Probe ObjectView := do
  let start ← bodyStart s view
  check (ensure (s.vocabulary.isObject view.type) .unexpectedType)
  check (ensure (8 ≤ view.bodySize) .malformedContainer)
  let front ← load s.block start 8
  let first ← add start 8
  let stop ← add start view.bodySize.toUInt64
  return ⟨getWord32 front, getWord32 (front.drop 4),
    ⟨s.block, first.toNat, stop.toNat, Layout.properties⟩⟩

def sequence (view : AtomView) : Probe SequenceView := do
  let start ← bodyStart s view
  check (ensure (view.type = s.vocabulary.id .sequence) .unexpectedType)
  check (ensure (8 ≤ view.bodySize) .malformedContainer)
  let front ← load s.block start 8
  let unit := s.unitOf (getWord32 front)
  let first ← add start 8
  let stop ← add start view.bodySize.toUInt64
  return ⟨unit, ⟨s.block, first.toNat, stop.toNat, Layout.events unit⟩⟩

def answer (view : AtomView) : Query → Probe Answer
  | .scalar => return .scalar (← scalar s view)
  | .scalarOf kind => return .scalar (← scalarOf s kind view)
  | .text form => return .bytes (← text s form view)
  | .literal => return .literal (← literal s view)
  | .chunk => return .bytes (← chunk s view)
  | .vector => return .vector (← vector s view)
  | .element index => do return .bytes (← element s.block (← vector s view) index)
  | .elements => do return .elements (← elements s.block (← vector s view))
  | .children => do return .atoms (← items (← tuple s view))
  | .childCount => do return .count (← count (← tuple s view))
  | .object => do
    let o ← object s view
    return .object o.id o.otype
  | .properties => do return .properties (← items (← object s view).properties)
  | .propertyCount => do return .count (← count (← object s view).properties)
  | .find key => do return .found (← find (← object s view) key)
  | .unit => return .unit (← sequence s view).unit
  | .events => do return .events (← items (← sequence s view).events)
  | .eventCount => do return .count (← count (← sequence s view).events)
  | .firstDecrease => do return .index (← firstDecrease (← sequence s view))

end Sources

end Probe

end AtomWire

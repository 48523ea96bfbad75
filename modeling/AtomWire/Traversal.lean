import AtomWire.Source.Container

/-!
# Walking with cursors

A traversal says how cursors move over some items and what they show. A cursor over a
region has read the record it stands on and knows where the next one starts; cursors over
a vector count elements and may leave it. A script moves and compares two cursors.
-/

namespace AtomWire

set_option autoImplicit false

structure Traversal (κ ω : Type) where
  start : κ
  /-- The cursor that belongs to no items. -/
  detached : κ
  advance : κ → κ
  same : κ → κ → Bool
  look : κ → ω
  isEnd : κ → Bool

/-- A cursor over the records of a region. -/
structure RecordCursor (α : Type) where
  block : Block
  pos : Nat
  stop : Nat
  layout : Layout α
  /-- Where the record after the one at `pos` starts, if that one could be read. -/
  next : Nat
  /-- What was read last; also kept when the end is reached. -/
  current : Except WireError α
  done : Bool

instance : Inhabited (Layout AtomView) := ⟨Layout.atoms .malformedContainer⟩

instance : Inhabited (Layout Property) := ⟨Layout.properties⟩

instance : Inhabited (Layout Event) := ⟨Layout.events .frames⟩

namespace RecordCursor

variable {α : Type}

/-- The cursor over no memory, at its end. -/
def detached [Inhabited (Layout α)] : RecordCursor α :=
  ⟨⟨none, []⟩, 0, 0, default, 0, .error .malformedContainer, true⟩

/-- What is left of the region. -/
def rest (c : RecordCursor α) : Region α := ⟨c.block, c.pos, c.stop, c.layout⟩

/-- Reads the record at the position, unless the end is reached. -/
def parse (c : RecordCursor α) : RecordCursor α :=
  if c.pos < c.stop then
    match c.rest.itemAt c.pos with
    | .ok (item, next) => { c with next, current := .ok item, done := false }
    | .error e => { c with current := .error e, done := false }
  else { c with done := true }

/-- Moves on; after an error there is nothing more. -/
def advance (c : RecordCursor α) : RecordCursor α :=
  if c.done then c
  else
    match c.current with
    | .ok _ => parse { c with pos := c.next }
    | .error _ => { c with done := true }

/-- Whether both cursors are at an end, or both at the same place in the same memory. -/
def same (c d : RecordCursor α) : Bool :=
  if c.done ∨ d.done then c.done = d.done
  else c.block.memory = d.block.memory ∧ c.pos = d.pos

end RecordCursor

namespace Region

variable {α : Type}

def cursor (r : Region α) : RecordCursor α :=
  .parse ⟨r.block, r.first, r.stop, r.layout, 0, .error .malformedContainer, true⟩

def traversal [Inhabited (Layout α)] (r : Region α) :
    Traversal (RecordCursor α) (Option (Except WireError α)) where
  start := r.cursor
  detached := RecordCursor.detached
  advance := RecordCursor.advance
  same := RecordCursor.same
  look c := if c.done then none else some c.current
  isEnd c := c.done

end Region

structure ElementCursor where
  /-- Whether the cursor came from a vector. -/
  attached : Bool
  index : UInt64
deriving DecidableEq

def VectorView.traversal (v : VectorView) : Traversal ElementCursor Bytes where
  start := ⟨true, 0⟩
  detached := ⟨false, 0⟩
  advance cursor := { cursor with index := cursor.index + 1 }
  same a b := a = b
  look cursor := if cursor.attached then v.look cursor.index else []
  isEnd cursor := cursor = ⟨true, UInt64.ofNat v.size⟩

namespace Traversal

inductive Register where
  | a | b
deriving DecidableEq

inductive Command where
  /-- Advances, and shows where the cursor then stands. -/
  | advance (x : Register)
  /-- Advances, and shows where the cursor stood. -/
  | advanceAfter (x : Register)
  /-- Advances, and puts the other register where the cursor stood. -/
  | trail (x : Register)
  | look (x : Register)
  | compare
  | isEnd (x : Register)
  /-- Puts the register where the other one stands. -/
  | follow (x : Register)
  | restart (x : Register)
  | detach (x : Register)
deriving DecidableEq

inductive Outcome (ω : Type) where
  | shown (item : ω)
  | truth (value : Bool)
  | nothing

structure Cursors (κ : Type) where
  a : κ
  b : κ

variable {κ ω : Type}

def Register.other : Register → Register
  | a => b
  | b => a

def Cursors.get (cs : Cursors κ) : Register → κ
  | .a => cs.a
  | .b => cs.b

def Cursors.set (cs : Cursors κ) : Register → κ → Cursors κ
  | .a, cursor => { cs with a := cursor }
  | .b, cursor => { cs with b := cursor }

def step (t : Traversal κ ω) (cs : Cursors κ) :
    Command → Outcome ω × Cursors κ
  | .advance x =>
    let moved := t.advance (cs.get x)
    (.shown (t.look moved), cs.set x moved)
  | .advanceAfter x => (.shown (t.look (cs.get x)), cs.set x (t.advance (cs.get x)))
  | .trail x =>
    (.nothing, (cs.set x.other (cs.get x)).set x (t.advance (cs.get x)))
  | .look x => (.shown (t.look (cs.get x)), cs)
  | .compare => (.truth (t.same cs.a cs.b), cs)
  | .isEnd x => (.truth (t.isEnd (cs.get x)), cs)
  | .follow x => (.nothing, cs.set x (cs.get x.other))
  | .restart x => (.nothing, cs.set x t.start)
  | .detach x => (.nothing, cs.set x t.detached)

def runFrom (t : Traversal κ ω) (cs : Cursors κ) :
    List Command → List (Outcome ω)
  | [] => []
  | command :: rest =>
    let first := t.step cs command
    first.1 :: t.runFrom first.2 rest

/-- The outcomes of a script, with both cursors at the start. -/
def run (t : Traversal κ ω) (script : List Command) : List (Outcome ω) :=
  t.runFrom ⟨t.start, t.start⟩ script

end Traversal

end AtomWire

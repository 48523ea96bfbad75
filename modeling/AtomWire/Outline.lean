import AtomWire.Source.Container

/-!
# Outlines

The outline of an atom shows everything that can be read from it, containers with the
outlines of their children, down to a fixed number of levels.
-/

namespace AtomWire

set_option autoImplicit false

inductive Shape where
  | tuple | object | sequence | vector
  | text (form : TextForm)
  | literal | scalar | chunk | raw
deriving DecidableEq

/-- The first shape that the type fits. Types are compared as they are, so an absent type
fits an absent term. -/
def Vocabulary.shape (v : Vocabulary) (type : TypeId) : Shape :=
  if type = v.id .tuple then .tuple
  else if v.isObject type then .object
  else if type = v.id .sequence then .sequence
  else if type = v.id .vector then .vector
  else if type = v.id .string then .text .string
  else if type = v.id .path then .text .path
  else if type = v.id .uri then .text .uri
  else if type = v.id .literal then .literal
  else if (v.scalarKind? type).isSome then .scalar
  else if type = v.id .chunk then .chunk
  else .raw

inductive Outline where
  /-- Below the last level. -/
  | deep (atom : AtomView)
  /-- The atom cannot be read as its shape. -/
  | fault (atom : AtomView) (shape : Shape) (e : WireError)
  | tuple (atom : AtomView) (items : List (Except WireError Outline))
  | object (atom : AtomView) (id otype : TypeId)
      (items : List (Except WireError (TypeId × TypeId × Outline)))
  | sequence (atom : AtomView) (unit : TimeUnit) (monotonic : Bool)
      (items : List (Except WireError (Stamp × Outline)))
  /-- Elements that are no scalars stay bytes. -/
  | vector (atom : AtomView) (childType : TypeId) (width : UInt32) (items : List (Scalar ⊕ Bytes))
  | text (atom : AtomView) (form : TextForm) (text : Bytes)
  | literal (atom : AtomView) (literal : Literal)
  | scalar (atom : AtomView) (value : Scalar)
  | raw (atom : AtomView) (isChunk : Bool)

namespace Source

/-- The elements of a vector as scalars where they can be read so. -/
def elements (s : Source) (v : VectorView) : List (Scalar ⊕ Bytes) :=
  v.items.map fun bytes =>
    match s.vocabulary.decode v.childType bytes with
    | .ok value => .inl value
    | .error _ => .inr bytes

/-- One level of an outline, given the outlines of the children. -/
def outlineWith (s : Source) (inner : AtomView → Outline) (atom : AtomView) : Outline :=
  let shape := s.vocabulary.shape atom.type
  let result : Except WireError Outline :=
    match shape with
    | .tuple => (s.tuple atom).map fun r => .tuple atom (r.items.map (Except.map inner))
    | .object => (s.object atom).map fun o =>
      .object atom o.id o.otype
        (o.properties.items.map (Except.map fun p => (p.key, p.context, inner p.value)))
    | .sequence => (s.sequence atom).map fun q =>
      .sequence atom q.unit q.isMonotonic
        (q.events.items.map (Except.map fun e => (e.stamp, inner e.value)))
    | .vector => (s.vector atom).map fun v => .vector atom v.childType v.width (s.elements v)
    | .text form => (s.text form atom).map (.text atom form)
    | .literal => (s.literal atom).map (.literal atom)
    | .scalar => (s.scalar atom).map (.scalar atom)
    | .chunk => .ok (.raw atom true)
    | .raw => .ok (.raw atom false)
  match result with
  | .ok outline => outline
  | .error e => .fault atom shape e

def outlineTo (s : Source) : Nat → AtomView → Outline
  | 0, atom => .deep atom
  | levels + 1, atom => s.outlineWith (s.outlineTo levels) atom

/-- Atoms nested in up to 64 others are shown. -/
def outline (s : Source) (atom : AtomView) : Outline := s.outlineTo 65 atom

def outlines (s : Source) : List (Except WireError Outline) :=
  (s.atoms 0).items.map (Except.map s.outline)

end Source

end AtomWire

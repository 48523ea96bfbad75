import AtomWire.Writer.Op

/-!
# Value trees

A tree is a value as such, apart from any buffer. `Tree.encode` is its form on the wire,
by recursion on the tree and with every size known before its body; `Tree.ops` is the list
of calls that write it, containers being opened, filled and closed. The encoding is the
format as it is documented, down to the bytes of a word, and shares nothing with a writer.
-/

namespace AtomWire

set_option autoImplicit false

inductive Tree where
  | scalar (value : Scalar)
  | text (form : TextForm) (content : Bytes)
  | literal (content : Bytes) (lang datatype : TypeId)
  | chunk (body : Bytes)
  /-- An atom of any other type, with its body as it is. -/
  | atom (type : TypeId) (body : Bytes)
  | vector (childType : TypeId) (width : UInt32) (elements : List Bytes)
  | tuple (items : List Tree)
  | object (id otype : TypeId) (properties : List (TypeId × TypeId × Tree))
  | sequence (unit : TimeUnit) (events : List (Stamp × Tree))

/-- The low `width` bytes of a number, the lowest one first. -/
def littleEndian (width n : Nat) : Bytes :=
  (List.range width).map fun i => UInt8.ofNat (n >>> (8 * i))

/-- A 32-bit word. -/
def wordBytes (n : UInt32) : Bytes := littleEndian 4 n.toNat

/-- Integers are in two's complement, floating-point numbers in the bits of their format. -/
def Scalar.bytes : Scalar → Bytes
  | int value => littleEndian 4 (value.toInt % 0x100000000).toNat
  | long value => littleEndian 8 (value.toInt % 0x10000000000000000).toNat
  | float value => littleEndian 4 value.bits.toNat
  | double value => littleEndian 8 value.bits.toNat
  | bool value => [if value then 1 else 0, 0, 0, 0]
  | urid id => littleEndian 4 id.toNat

def Stamp.bytes : Stamp → Bytes
  | frames count => littleEndian 8 (count.toInt % 0x10000000000000000).toNat
  | beats position => littleEndian 8 position.bits.toNat

def Scalar.type (v : Vocabulary) : Scalar → TypeId
  | int _ => v.id .int
  | long _ => v.id .long
  | float _ => v.id .float
  | double _ => v.id .double
  | bool _ => v.id .bool
  | urid _ => v.id .urid

def TextForm.type (v : Vocabulary) : TextForm → TypeId
  | string => v.id .string
  | path => v.id .path
  | uri => v.id .uri

def TimeUnit.type (v : Vocabulary) : TimeUnit → TypeId
  | frames => v.id .frame
  | beats => v.id .beat

/-- Type, size of the body, body, and zeros up to a multiple of eight. -/
def atomBytes (type : TypeId) (body : Bytes) : Bytes :=
  wordBytes type ++ littleEndian 4 body.length ++ body ++
    List.replicate ((8 - body.length % 8) % 8) 0

namespace Tree

mutual

def encode (v : Vocabulary) : Tree → Bytes
  | scalar value => atomBytes (value.type v) value.bytes
  | text form content => atomBytes (form.type v) (content ++ [0])
  | literal content lang datatype =>
    atomBytes (v.id .literal) (wordBytes lang ++ wordBytes datatype ++ content ++ [0])
  | chunk body => atomBytes (v.id .chunk) body
  | atom type body => atomBytes type body
  | vector childType width elements =>
    atomBytes (v.id .vector) (wordBytes childType ++ wordBytes width ++ elements.flatten)
  | tuple items => atomBytes (v.id .tuple) (encodeItems v items)
  | object id otype properties =>
    atomBytes (v.id .object) (wordBytes id ++ wordBytes otype ++ encodeProperties v properties)
  | sequence unit events =>
    atomBytes (v.id .sequence) (wordBytes (unit.type v) ++ wordBytes 0 ++ encodeEvents v events)

def encodeItems (v : Vocabulary) : List Tree → Bytes
  | [] => []
  | item :: rest => item.encode v ++ encodeItems v rest

def encodeProperties (v : Vocabulary) : List (TypeId × TypeId × Tree) → Bytes
  | [] => []
  | (key, context, value) :: rest =>
    wordBytes key ++ wordBytes context ++ value.encode v ++ encodeProperties v rest

def encodeEvents (v : Vocabulary) : List (Stamp × Tree) → Bytes
  | [] => []
  | (stamp, value) :: rest => stamp.bytes ++ value.encode v ++ encodeEvents v rest

end

mutual

def ops : Tree → List Op
  | scalar value => [.value value]
  | text form content => [.text form content]
  | literal content lang datatype => [.literal content lang datatype]
  | chunk body => [.chunk body]
  | atom type body => [.atom type body]
  | vector childType width elements =>
    .pushVector childType width :: (elements.map Op.element ++ [.pop])
  | tuple items => .pushTuple :: (itemOps items ++ [.pop])
  | object id otype properties => .pushObject id otype :: (propertyOps properties ++ [.pop])
  | sequence unit events => .pushSequence unit :: (eventOps events ++ [.pop])

def itemOps : List Tree → List Op
  | [] => []
  | item :: rest => item.ops ++ itemOps rest

def propertyOps : List (TypeId × TypeId × Tree) → List Op
  | [] => []
  | (key, context, value) :: rest => .property key context :: (value.ops ++ propertyOps rest)

def eventOps : List (Stamp × Tree) → List Op
  | [] => []
  | (stamp, value) :: rest => .stamp stamp :: (value.ops ++ eventOps rest)

end

mutual

/-- The number of containers that are open at the same time while the tree is written. -/
def depth : Tree → Nat
  | scalar _ | text _ _ | literal _ _ _ | chunk _ | atom _ _ => 0
  | vector _ _ _ => 1
  | tuple items => itemsDepth items + 1
  | object _ _ properties => propertiesDepth properties + 1
  | sequence _ events => eventsDepth events + 1

def itemsDepth : List Tree → Nat
  | [] => 0
  | item :: rest => max item.depth (itemsDepth rest)

def propertiesDepth : List (TypeId × TypeId × Tree) → Nat
  | [] => 0
  | (_, _, value) :: rest => max value.depth (propertiesDepth rest)

def eventsDepth : List (Stamp × Tree) → Nat
  | [] => 0
  | (_, value) :: rest => max value.depth (eventsDepth rest)

end

end Tree

end AtomWire

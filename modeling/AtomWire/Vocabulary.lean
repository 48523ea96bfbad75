import AtomWire.Bytes

/-!
# Type ids and the standard vocabulary

Atoms name their types by 32-bit ids, and the id 0 stands for an absent type. A
`Vocabulary` says which id each of the nineteen standard terms has; nothing forbids two
terms to share an id or a term to have none.
-/

namespace AtomWire

set_option autoImplicit false

/-- An id of a URI; 0 means that there is none. -/
abbrev TypeId := UInt32

/-- The standard terms: atom types and units of time. -/
inductive Term where
  | int | long | float | double | bool | urid
  | string | path | uri | literal | chunk
  | vector | tuple | object | blank | property | sequence
  | frame | beat
deriving DecidableEq

namespace Term

/-- The terms in the order in which their URIs are mapped. -/
def all : List Term :=
  [int, long, float, double, bool, urid, string, path, uri, literal, chunk, vector, tuple,
    object, blank, property, sequence, frame, beat]

theorem mem_all (t : Term) : t ∈ all := by
  cases t <;> decide

def atomNamespace : String := "http://lv2plug.in/ns/ext/atom#"

def unitsNamespace : String := "http://lv2plug.in/ns/ext/units#"

def address : Term → String
  | int => atomNamespace ++ "Int"
  | long => atomNamespace ++ "Long"
  | float => atomNamespace ++ "Float"
  | double => atomNamespace ++ "Double"
  | bool => atomNamespace ++ "Bool"
  | urid => atomNamespace ++ "URID"
  | string => atomNamespace ++ "String"
  | path => atomNamespace ++ "Path"
  | uri => atomNamespace ++ "URI"
  | literal => atomNamespace ++ "Literal"
  | chunk => atomNamespace ++ "Chunk"
  | vector => atomNamespace ++ "Vector"
  | tuple => atomNamespace ++ "Tuple"
  | object => atomNamespace ++ "Object"
  | blank => atomNamespace ++ "Blank"
  | property => atomNamespace ++ "Property"
  | sequence => atomNamespace ++ "Sequence"
  | frame => unitsNamespace ++ "frame"
  | beat => unitsNamespace ++ "beat"

def toUri (t : Term) : Bytes := utf8 t.address

end Term

structure Vocabulary where
  id : Term → TypeId

namespace Vocabulary

/-- The vocabulary in which every term is absent. -/
def unresolved : Vocabulary := ⟨fun _ => 0⟩

def set (v : Vocabulary) (t : Term) (id : TypeId) : Vocabulary :=
  ⟨fun s => if s = t then id else v.id s⟩

/-- Whether the type is an object or its alias, the blank object. -/
def isObject (v : Vocabulary) (type : TypeId) : Bool :=
  type ≠ 0 ∧ (type = v.id .object ∨ type = v.id .blank)

/-- Whether atoms of the type hold other atoms. -/
def isContainer (v : Vocabulary) (type : TypeId) : Bool :=
  type ≠ 0 ∧ (type = v.id .vector ∨ type = v.id .tuple ∨ type = v.id .object ∨
    type = v.id .blank ∨ type = v.id .property ∨ type = v.id .sequence)

end Vocabulary

end AtomWire

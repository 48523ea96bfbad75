import AtomWire.Dynamic.Decode
import AtomWire.Tree

/-!
# What trees stand for

A tree stands for a dynamic value, which is found by recursion on the tree, apart from any
buffer and from how one is read. There is none if a text of the tree is refused.
-/

namespace AtomWire

set_option autoImplicit false

open AtomWire.Dynamic

variable {Text : Type}

/-- The number with the bytes as its digits, the lowest one first. -/
def unsigned (bytes : Bytes) : Nat := bytes.foldr (fun byte n => byte.toNat + 256 * n) 0

/-- The number that one of the first `span` numbers is in two's complement. -/
def signed (span n : Nat) : Int := if 2 * n < span then n else n - span

def Scalar.meaning : Scalar → Value Text
  | int value => .int value.toInt
  | long value => .int value.toInt
  | float value => .float value.widen
  | double value => .float value
  | bool value => .bool value
  | urid id => .int id.toNat

def Stamp.meaning : Stamp → Value Text
  | frames count => .int count.toInt
  | beats position => .float position

/-- An element stands for a scalar if the type is that of scalars and the element is wide
enough for one, else for its bytes. -/
def elementMeaning (v : Vocabulary) (childType : TypeId) (element : Bytes) : Value Text :=
  let word := unsigned (element.take 4)
  let long := unsigned (element.take 8)
  if childType = v.id .int ∧ 4 ≤ element.length then .int (signed 0x100000000 word)
  else if childType = v.id .long ∧ 8 ≤ element.length then
    .int (signed 0x10000000000000000 long)
  else if childType = v.id .float ∧ 4 ≤ element.length then
    .float (Binary32.widen ⟨UInt32.ofNat word⟩)
  else if childType = v.id .double ∧ 8 ≤ element.length then .float ⟨UInt64.ofNat long⟩
  else if childType = v.id .bool ∧ 4 ≤ element.length then .bool (word ≠ 0)
  else if childType = v.id .urid ∧ 4 ≤ element.length then .int word
  else .bytes element

def keyMeaning (make : TextMaker Text) (table : UriTable) (key : TypeId) : Option (Key Text) :=
  match table.unmap key with
  | some uri => (make uri).toOption.map .uri
  | none => some (.id key)

/-- The dictionary that is filled from the left. A key stands where it came first, with the
value that came last. -/
def dictOf [DecidableEq Text] : List (Key Text × Value Text) → List (Key Text × Value Text)
  | [] => []
  | (key, value) :: rest =>
    (key, ((dictOf rest).lookup key).getD value) ::
      (dictOf rest).filter fun entry => entry.1 ≠ key

namespace Tree

mutual

/-- The dynamic value that a tree stands for. Keys are shown by the URIs in the table. -/
def meaning [DecidableEq Text] (make : TextMaker Text) (v : Vocabulary) (table : UriTable) :
    Tree → Option (Value Text)
  | scalar x => some x.meaning
  | text _ content => (make content).toOption.map .text
  | literal content _ _ => (make content).toOption.map .text
  | chunk body => some (.bytes body)
  | atom _ body => some (.bytes body)
  | vector childType _ elements => some (.list (elements.map (elementMeaning v childType)))
  | tuple items => (itemMeanings make v table items).map .list
  | object _ _ properties =>
    (propertyMeanings make v table properties).map fun entries => .dict (dictOf entries)
  | sequence _ events => (eventMeanings make v table events).map .list

def itemMeanings [DecidableEq Text] (make : TextMaker Text) (v : Vocabulary) (table : UriTable) :
    List Tree → Option (List (Value Text))
  | [] => some []
  | item :: rest => do
    let value ← item.meaning make v table
    let values ← itemMeanings make v table rest
    return value :: values

def propertyMeanings [DecidableEq Text] (make : TextMaker Text) (v : Vocabulary)
    (table : UriTable) : List (TypeId × TypeId × Tree) → Option (List (Key Text × Value Text))
  | [] => some []
  | (key, _, value) :: rest => do
    let value ← value.meaning make v table
    let key ← keyMeaning make table key
    let entries ← propertyMeanings make v table rest
    return (key, value) :: entries

def eventMeanings [DecidableEq Text] (make : TextMaker Text) (v : Vocabulary) (table : UriTable) :
    List (Stamp × Tree) → Option (List (Value Text))
  | [] => some []
  | (stamp, value) :: rest => do
    let value ← value.meaning make v table
    let values ← eventMeanings make v table rest
    return .pair stamp.meaning value :: values

end

mutual

/-- The bytes that are shown as texts: contents, and the URIs of keys in the table. -/
def texts (table : UriTable) : Tree → List Bytes
  | scalar _ | chunk _ | atom _ _ | vector _ _ _ => []
  | text _ content => [content]
  | literal content _ _ => [content]
  | tuple items => itemTexts table items
  | object _ _ properties => propertyTexts table properties
  | sequence _ events => eventTexts table events

def itemTexts (table : UriTable) : List Tree → List Bytes
  | [] => []
  | item :: rest => item.texts table ++ itemTexts table rest

def propertyTexts (table : UriTable) : List (TypeId × TypeId × Tree) → List Bytes
  | [] => []
  | (key, _, value) :: rest =>
    value.texts table ++ (table.unmap key).toList ++ propertyTexts table rest

def eventTexts (table : UriTable) : List (Stamp × Tree) → List Bytes
  | [] => []
  | (_, value) :: rest => value.texts table ++ eventTexts table rest

end

mutual

/-- The level of the innermost atom, the outermost one being at level 0. -/
def nesting : Tree → Nat
  | scalar _ | text _ _ | literal _ _ _ | chunk _ | atom _ _ | vector _ _ _ => 0
  | tuple items => itemsNesting items
  | object _ _ properties => propertiesNesting properties
  | sequence _ events => eventsNesting events

def itemsNesting : List Tree → Nat
  | [] => 0
  | item :: rest => max (item.nesting + 1) (itemsNesting rest)

def propertiesNesting : List (TypeId × TypeId × Tree) → Nat
  | [] => 0
  | (_, _, value) :: rest => max (value.nesting + 1) (propertiesNesting rest)

def eventsNesting : List (Stamp × Tree) → Nat
  | [] => 0
  | (_, value) :: rest => max (value.nesting + 1) (eventsNesting rest)

end

end Tree

end AtomWire

import AtomWire.Host.Lexicon
import AtomWire.Source.Container

/-!
# Reading for a host

Every read is of the atom at an offset into the caller's memory.
-/

namespace AtomWire.Host

set_option autoImplicit false

def sourceOf (lexicon : Option Lexicon) (memory : Memory) : Option Source :=
  match lexicon, memory with
  | some l, .given bytes => some ⟨l.vocabulary, ⟨some 0, bytes⟩⟩
  | some l, .null 0 => some ⟨l.vocabulary, ⟨none, []⟩⟩
  | _, _ => none

/-- Reads the atom at `offset`; `wanted` says whether there is a place to store the result. -/
def readAtom {α : Type} (lexicon : Option Lexicon) (memory : Memory) (offset : Nat)
    (wanted : Bool) (f : Source → AtomView → Except WireError α) : Answer α :=
  match sourceOf lexicon memory, wanted with
  | some s, true => .ofExcept (s.atomAt offset >>= f s)
  | _, _ => .fail .nullPointer

def readHeader (lexicon : Option Lexicon) (memory : Memory) (offset : Nat) (wanted : Bool) :
    Answer Header :=
  readAtom lexicon memory offset wanted fun _ view => .ok ⟨view.type, view.bodySize, view.next⟩

def readScalar (kind : ScalarKind) (lexicon : Option Lexicon) (memory : Memory) (offset : Nat)
    (wanted : Bool) : Answer Scalar :=
  readAtom lexicon memory offset wanted fun s view => s.scalarOf kind view

def readString (lexicon : Option Lexicon) (memory : Memory) (offset : Nat)
    (room : Option Bytes) (wanted : Bool) : TextAnswer :=
  let text := readAtom lexicon memory offset wanted fun s view => s.text .string view
  match text.stored with
  | some text => copyText text room
  | none => ⟨text.status, none, room⟩

/-- The number of items, or the first error among them. -/
def countItems {α : Type} : List (Except WireError α) → Except WireError Nat
  | [] => .ok 0
  | .ok _ :: rest => (countItems rest).map (· + 1)
  | .error e :: _ => .error e

def tupleChildCount (lexicon : Option Lexicon) (memory : Memory) (offset : Nat)
    (wanted : Bool) : Answer Nat :=
  readAtom lexicon memory offset wanted fun s view => do
    let children ← s.tuple view
    countItems children.items

end AtomWire.Host

import AtomWire.Host.Memory
import AtomWire.UriTable

/-!
# Lexicons

A lexicon is a table of URIs in which the standard terms are resolved from the start.
-/

namespace AtomWire.Host

set_option autoImplicit false

structure Lexicon where
  table : UriTable
  vocabulary : Vocabulary

def Lexicon.create : Lexicon :=
  let resolved := UriTable.empty.resolve
  ⟨resolved.2, resolved.1⟩

def createLexicon (wanted : Bool) : Answer Lexicon :=
  if wanted then ⟨.ok, some Lexicon.create⟩ else .fail .nullPointer

/-- The id of a URI; `wanted` says whether there is a place to store it. -/
def mapUri (lexicon : Option Lexicon) (uri : Option Bytes) (wanted : Bool) :
    Answer TypeId × Option Lexicon :=
  match lexicon, uri, wanted with
  | some l, some uri, true =>
    let mapped := l.table.map (untilZero uri)
    (if mapped.1 = 0 then .fail .invalidArgument else ⟨.ok, some mapped.1⟩,
      some { l with table := mapped.2 })
  | _, _, _ => (.fail .nullPointer, lexicon)

/-- The URI of an id; `wanted` says whether there is a place to store its length. -/
def unmapUri (lexicon : Option Lexicon) (id : TypeId) (room : Option Bytes) (wanted : Bool) :
    TextAnswer :=
  match lexicon, wanted with
  | some l, true =>
    match l.table.unmap id with
    | some uri => copyText uri room
    | none => ⟨.notFound, none, room⟩
  | _, _ => ⟨.nullPointer, none, room⟩

end AtomWire.Host

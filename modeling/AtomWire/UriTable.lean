import AtomWire.Vocabulary

/-!
# The table of URIs

Ids are handed out densely from 1 in the order in which URIs first appear, so a table is
the list of its URIs and the id of a URI is its position. An id never changes once given.
-/

namespace AtomWire

set_option autoImplicit false

structure UriTable where
  uris : List Bytes

namespace UriTable

def empty : UriTable := ⟨[]⟩

def size (t : UriTable) : Nat := t.uris.length

/-- The id of a URI, which is added if it is new. The empty URI has the id 0. -/
def map (t : UriTable) (uri : Bytes) : TypeId × UriTable :=
  if uri = [] then (0, t)
  else
    match t.uris.findIdx? (· = uri) with
    | some i => (UInt32.ofNat (i + 1), t)
    | none => (UInt32.ofNat (t.uris.length + 1), ⟨t.uris ++ [uri]⟩)

def unmap (t : UriTable) (id : TypeId) : Option Bytes :=
  if id = 0 then none else t.uris[id.toNat - 1]?

def mapAll (t : UriTable) (uris : List Bytes) : UriTable :=
  uris.foldl (fun t uri => (t.map uri).2) t

/-- Maps the terms in order and collects their ids; all other terms stay absent. -/
def mapTerms : List Term → UriTable → Vocabulary × UriTable
  | [], t => (Vocabulary.unresolved, t)
  | term :: rest, t =>
    let mapped := t.map term.toUri
    let others := mapTerms rest mapped.2
    (others.1.set term mapped.1, others.2)

/-- The ids of the standard terms, and the table that holds them all. -/
def resolve (t : UriTable) : Vocabulary × UriTable := mapTerms Term.all t

end UriTable

end AtomWire

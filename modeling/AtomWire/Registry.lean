import AtomWire.Hash
import AtomWire.Vocabulary

/-!
# Registries of URIs

A registry holds every URI twice: in the order of the ids, which leads from an id to its
URI, and in an entry with its id, which leads the other way. Entries are looked up by the
hash of a URI, and URIs whose hashes collide are told apart by their bytes.
-/

namespace AtomWire

set_option autoImplicit false

namespace Registry

/-- A known URI, its hash and its id. -/
structure Entry where
  uri : Bytes
  id : TypeId
  hash : UInt64
  hash_eq : hash = uriHash uri

def Entry.of (uri : Bytes) (id : TypeId) : Entry := ⟨uri, id, uriHash uri, rfl⟩

end Registry

structure Registry where
  entries : List Registry.Entry
  /-- The URI with the id `n + 1` stands at the position `n`. -/
  uris : List Bytes

namespace Registry

def empty : Registry := ⟨[], []⟩

def size (r : Registry) : Nat := r.uris.length

/-- The id in the entry of a URI. -/
def find? (r : Registry) (uri : Bytes) : Option TypeId :=
  let hash := uriHash uri
  (r.entries.find? fun e => e.hash = hash ∧ e.uri = uri).map Entry.id

/-- The id of a URI, which is entered if it is new. The empty URI has the id 0. -/
def map (r : Registry) (uri : Bytes) : TypeId × Registry :=
  if uri = [] then (0, r)
  else
    match r.find? uri with
    | some id => (id, r)
    | none =>
      let uris := r.uris ++ [uri]
      let id := UInt32.ofNat uris.length
      (id, ⟨.of uri id :: r.entries, uris⟩)

def unmap (r : Registry) (id : TypeId) : Option Bytes :=
  if id = 0 ∨ r.uris.length < id.toNat then none else r.uris[id.toNat - 1]?

/-- Maps the terms in order and collects their ids; all other terms stay absent. -/
def mapTerms : List Term → Registry → Vocabulary × Registry
  | [], r => (Vocabulary.unresolved, r)
  | term :: rest, r =>
    let mapped := r.map term.toUri
    let others := mapTerms rest mapped.2
    (others.1.set term mapped.1, others.2)

/-- The ids of the standard terms, and the registry that holds them all. -/
def resolve (r : Registry) : Vocabulary × Registry := mapTerms Term.all r

inductive Call where
  | map (uri : Bytes)
  | unmap (id : TypeId)
  | resolve
deriving DecidableEq

inductive Answer where
  | id (id : TypeId)
  | uri (uri : Option Bytes)
  | vocabulary (v : Vocabulary)

def step (r : Registry) : Call → Answer × Registry
  | .map uri => let mapped := r.map uri; (.id mapped.1, mapped.2)
  | .unmap id => (.uri (r.unmap id), r)
  | .resolve => let resolved := r.resolve; (.vocabulary resolved.1, resolved.2)

def run (r : Registry) : List Call → List Answer × Registry
  | [] => ([], r)
  | call :: rest =>
    let first := r.step call
    let others := first.2.run rest
    (first.1 :: others.1, others.2)

end Registry

end AtomWire

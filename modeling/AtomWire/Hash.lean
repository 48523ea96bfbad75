import AtomWire.Bytes

/-!
# The 64-bit FNV-1a hash
-/

namespace AtomWire

set_option autoImplicit false

def fnvOffsetBasis : UInt64 := 14695981039346656037

def fnvPrime : UInt64 := 1099511628211

/-- Each byte is mixed in by exclusive or, then the hash is multiplied by the prime. -/
def fnv1a (text : Bytes) : UInt64 :=
  text.foldl (fun hash b => (hash ^^^ b.toUInt64) * fnvPrime) fnvOffsetBasis

def uriHash (uri : Bytes) : UInt64 := fnv1a uri

end AtomWire

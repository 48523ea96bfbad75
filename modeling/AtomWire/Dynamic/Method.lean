import AtomWire.Dynamic.Decode
import AtomWire.Writer.Op

/-!
# Calls by name

The writer's calls as they are named for callers without static types. Trailing arguments
that have a default may be left out.
-/

namespace AtomWire.Dynamic

set_option autoImplicit false

inductive Arg where
  | bool (value : Bool)
  | int (value : Int)
  | float (value : Binary64)
  | text (text : Bytes)
  | bytes (bytes : Bytes)

def defaultCapacity : Nat := 4096

/-- A writer over zeros; the standard terms are resolved first. -/
def createWriter (table : UriTable) (capacity : Option Nat) : Writer × UriTable :=
  let resolved := table.resolve
  (Writer.create resolved.1 true (List.replicate (capacity.getD defaultCapacity) 0), resolved.2)

def mapUri (table : UriTable) (uri : Bytes) : Except Failure TypeId × UriTable :=
  if uri = [] then (.error .emptyUri, table)
  else
    let mapped := table.map uri
    (.ok mapped.1, mapped.2)

def typeIdOf (n : Int) : TypeId := UInt32.ofInt n

def unitOf (beats : Bool) : TimeUnit := if beats then .beats else .frames

def method? : String → List Arg → Option Op
  | "reset", [] => some (.reset none)
  | "write_int", [.int n] => some (.value (.int (Int32.ofInt n)))
  | "write_long", [.int n] => some (.value (.long (Int64.ofInt n)))
  | "write_float", [.float x] => some (.value (.float x.narrow))
  | "write_double", [.float x] => some (.value (.double x))
  | "write_bool", [.bool b] => some (.value (.bool b))
  | "write_urid", [.int n] => some (.value (.urid (typeIdOf n)))
  | "write_string", [.text t] => some (.text .string t)
  | "write_path", [.text t] => some (.text .path t)
  | "write_uri", [.text t] => some (.text .uri t)
  | "write_chunk", [.bytes b] => some (.chunk b)
  | "push_tuple", [] => some .pushTuple
  | "push_object", [] => some (.pushObject 0 0)
  | "push_object", [.int id] => some (.pushObject (typeIdOf id) 0)
  | "push_object", [.int id, .int otype] => some (.pushObject (typeIdOf id) (typeIdOf otype))
  | "push_vector", [] => some (.pushVector 0 0)
  | "push_vector", [.int type] => some (.pushVector (typeIdOf type) 0)
  | "push_vector", [.int type, .int width] =>
    some (.pushVector (typeIdOf type) (UInt32.ofInt width))
  | "push_sequence", [] => some (.pushSequence (unitOf false))
  | "push_sequence", [.bool beats] => some (.pushSequence (unitOf beats))
  | "write_property", [.int key] => some (.property (typeIdOf key) 0)
  | "write_property", [.int key, .int context] =>
    some (.property (typeIdOf key) (typeIdOf context))
  | "write_frame_time", [.int n] => some (.stamp (.frames (Int64.ofInt n)))
  | "write_beat_time", [.float x] => some (.stamp (.beats x))
  | "pop", [] => some .pop
  | _, _ => none

def call (w : Writer) (op : Op) : Except Failure Unit × Writer :=
  let stepped := w.step op
  (lift (stepped.1.map fun _ => ()), stepped.2)

end AtomWire.Dynamic

/-!
# Release facts
-/

namespace AtomWire

set_option autoImplicit false

def version : String := "0.3.0"

/-- Words on the wire are little-endian. -/
def byteOrder : String := "little"

end AtomWire

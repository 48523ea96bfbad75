import AtomWire.Vocabulary

/-!
# The three types of plain text
-/

namespace AtomWire

set_option autoImplicit false

inductive TextForm where
  | string | path | uri
deriving DecidableEq

def TextForm.term : TextForm → Term
  | string => .string
  | path => .path
  | uri => .uri

def TextForm.all : List TextForm := [string, path, uri]

end AtomWire

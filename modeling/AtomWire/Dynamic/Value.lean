import AtomWire.Scalar
import AtomWire.Stamp

/-!
# Dynamic values

What atoms become for a caller without static types. Such a caller has texts of its own, and
they are made from bytes by a foreign function, which may refuse. That function is a parameter
of all that follows; what is relied on of it are `Utf8Only` and `Faithful`.
-/

namespace AtomWire.Dynamic

set_option autoImplicit false

/-- Makes a text from bytes, or fails with a message. -/
abbrev TextMaker (Text : Type) := Bytes → Except String Text

/-- The bytes are those of a string. -/
def IsUtf8 (bytes : Bytes) : Prop := ∃ text : String, utf8 text = bytes

/-- Exactly the bytes of strings are accepted. -/
def Utf8Only {Text : Type} (make : TextMaker Text) : Prop :=
  ∀ bytes, (∃ text, make bytes = .ok text) ↔ IsUtf8 bytes

/-- Texts from different bytes are different. -/
def Faithful {Text : Type} (make : TextMaker Text) : Prop :=
  ∀ first second text, make first = .ok text → make second = .ok text → first = second

/-- Lean's own strings are such texts. -/
def stringOf : TextMaker String := fun bytes =>
  match String.fromUTF8? ⟨bytes.toArray⟩ with
  | some text => .ok text
  | none => .error "invalid UTF-8"

theorem stringOf_utf8 (text : String) : stringOf (utf8 text) = .ok text := by
  have hvalid : text.toUTF8.IsValidUTF8 := text.isValidUTF8
  have hsome : String.fromUTF8? text.toUTF8 = some text := dif_pos hvalid
  simp only [stringOf, utf8, Array.toArray_toList, hsome]

theorem utf8_of_stringOf {bytes : Bytes} {text : String} (h : stringOf bytes = .ok text) :
    utf8 text = bytes := by
  unfold stringOf String.fromUTF8? at h
  by_cases hvalid : ByteArray.IsValidUTF8 ⟨bytes.toArray⟩
  · rw [dif_pos hvalid] at h
    cases h
    rfl
  · rw [dif_neg hvalid] at h
    cases h

theorem utf8Only_stringOf : Utf8Only stringOf := by
  intro bytes
  constructor
  · rintro ⟨text, h⟩
    exact ⟨text, utf8_of_stringOf h⟩
  · rintro ⟨text, rfl⟩
    exact ⟨text, stringOf_utf8 text⟩

theorem faithful_stringOf : Faithful stringOf := by
  intro first second text hfirst hsecond
  rw [← utf8_of_stringOf hfirst, ← utf8_of_stringOf hsecond]

instance : DecidablePred IsUtf8 := fun bytes =>
  decidable_of_iff ((stringOf bytes).isOk = true) <| by
    rw [← utf8Only_stringOf bytes]
    cases stringOf bytes <;> simp [Except.isOk, Except.toBool]

/-- The key of an entry: a URI where it is known, else the bare id. -/
inductive Key (Text : Type) where
  | uri (uri : Text)
  | id (id : TypeId)
deriving DecidableEq

inductive Value (Text : Type) where
  | bool (value : Bool)
  | int (value : Int)
  | float (value : Binary64)
  | text (text : Text)
  | bytes (bytes : Bytes)
  | list (items : List (Value Text))
  | pair (first second : Value Text)
  | dict (entries : List (Key Text × Value Text))

variable {Text : Type}

def Value.ofScalar : Scalar → Value Text
  | .int value => int value.toInt
  | .long value => int value.toInt
  | .float value => float value.widen
  | .double value => float value
  | .bool value => bool value
  | .urid id => int id.toNat

def Value.ofStamp : Stamp → Value Text
  | .frames count => int count.toInt
  | .beats position => float position

/-- Replaces the value of a key where it stands, or adds the entry at the end. -/
def insertEntry [DecidableEq Text] (key : Key Text) (value : Value Text) :
    List (Key Text × Value Text) → List (Key Text × Value Text)
  | [] => [(key, value)]
  | (k, v) :: rest =>
    if k = key then (k, value) :: rest else (k, v) :: insertEntry key value rest

end AtomWire.Dynamic

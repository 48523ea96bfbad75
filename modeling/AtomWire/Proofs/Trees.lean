import AtomWire.Outline
import AtomWire.Proofs.Growth
import AtomWire.Tree

/-!
# Trees by their branches

The trees in a container stand behind keys, behind stamps or behind nothing. Taken with
what they stand behind, they are the branches of the container, and the three kinds of
containers need no separate treatment any more. The bytes that the encoding of a tree spells
out are those of a writer, word for word.
-/

namespace AtomWire

set_option autoImplicit false

theorem leBytes_eq_littleEndian (width n : Nat) : leBytes width n = littleEndian width n := by
  induction width generalizing n with
  | zero => rfl
  | succ width ih =>
    have hshift : ∀ i, (n / 256) >>> (8 * i) = n >>> (8 * (i + 1)) := by
      intro i
      rw [Nat.mul_succ, Nat.add_comm, Nat.shiftRight_add, Nat.shiftRight_eq_div_pow n 8]
    simp only [leBytes, ih, littleEndian, List.range_succ_eq_map, List.map_cons, List.map_map,
      Function.comp_def, hshift, Nat.succ_eq_add_one, Nat.mul_zero, Nat.shiftRight_zero]

theorem wordBytes_eq (n : UInt32) : wordBytes n = word32 n := (leBytes_eq_littleEndian 4 _).symm

theorem littleEndian_mod (width n : Nat) :
    littleEndian width (n % 256 ^ width) = littleEndian width n := by
  simp only [← leBytes_eq_littleEndian]
  induction width generalizing n with
  | zero => rfl
  | succ width ih =>
    have hhead : UInt8.ofNat (n % 256 ^ (width + 1)) = UInt8.ofNat n := by
      apply UInt8.toNat_inj.mp
      rw [UInt8.toNat_ofNat', UInt8.toNat_ofNat', Nat.pow_succ']
      exact Nat.mod_mul_right_mod n 256 _
    rw [leBytes, leBytes, hhead, Nat.pow_succ', Nat.mod_mul_right_div_self, ih]

theorem atomBytes_eq (type : TypeId) (body : Bytes) :
    atomBytes type body = word32 type ++ word32 (UInt32.ofNat body.length) ++ body ++
      List.replicate (padding body.length) 0 := by
  have hsize : littleEndian 4 body.length = word32 (UInt32.ofNat body.length) := by
    rw [word32, leBytes_eq_littleEndian, UInt32.toNat_ofNat']
    exact (littleEndian_mod 4 body.length).symm
  rw [atomBytes, wordBytes_eq, hsize, padding]

/-- The number that stands for a signed one in two's complement. -/
theorem toNat_toInt_emod {n : Nat} (x : BitVec n) :
    (x.toInt % (2 ^ n : Nat)).toNat = x.toNat := by
  have hlt : (x.toNat : Int) < (2 ^ n : Nat) := by exact_mod_cast x.isLt
  rw [BitVec.toInt_eq_toNat_bmod, Int.bmod_emod, Int.emod_eq_of_lt (by omega) hlt,
    Int.toNat_natCast]

theorem Scalar.bytes_eq (x : Scalar) : x.bytes = x.payload := by
  cases x with
  | int value =>
    have hword : (value.toInt % 0x100000000).toNat = value.toUInt32.toNat :=
      toNat_toInt_emod value.toBitVec
    rw [bytes, hword, payload, word32, leBytes_eq_littleEndian]
  | long value =>
    have hword : (value.toInt % 0x10000000000000000).toNat = value.toUInt64.toNat :=
      toNat_toInt_emod value.toBitVec
    rw [bytes, hword, payload, word64, leBytes_eq_littleEndian]
  | float value => exact (leBytes_eq_littleEndian 4 _).symm
  | double value => exact (leBytes_eq_littleEndian 8 _).symm
  | bool value => cases value <;> rfl
  | urid id => exact (leBytes_eq_littleEndian 4 _).symm

theorem Stamp.bytes_eq (s : Stamp) : s.bytes = s.payload := by
  cases s with
  | frames count =>
    have hword : (count.toInt % 0x10000000000000000).toNat = count.toUInt64.toNat :=
      toNat_toInt_emod count.toBitVec
    rw [bytes, hword, payload, word64, leBytes_eq_littleEndian]
  | beats position => exact (leBytes_eq_littleEndian 8 _).symm

theorem Scalar.type_eq (v : Vocabulary) (x : Scalar) : x.type v = v.scalarType x.kind := by
  cases x <;> rfl

theorem TextForm.type_eq (v : Vocabulary) (form : TextForm) : form.type v = v.id form.term := by
  cases form <;> rfl

theorem TimeUnit.type_eq (v : Vocabulary) (unit : TimeUnit) : unit.type v = v.id unit.term := by
  cases unit <;> rfl

/-- What a tree stands behind in its container. -/
inductive Label where
  | bare
  | key (key context : TypeId)
  | time (time : Stamp)

namespace Label

def bytes : Label → Bytes
  | bare => []
  | key k context => word32 k ++ word32 context
  | time t => t.payload

def ops : Label → List Op
  | bare => []
  | key k context => [.property k context]
  | time t => [.stamp t]

end Label

abbrev Branch := Label × Tree

def branchOps (branches : List Branch) : List Op := branches.flatMap fun b => b.1.ops ++ b.2.ops

def branchBytes (v : Vocabulary) (branches : List Branch) : Bytes :=
  branches.flatMap fun b => b.1.bytes ++ b.2.encode v

namespace Tree

def branches : Tree → List Branch
  | tuple items => items.map fun item => (.bare, item)
  | object _ _ properties => properties.map fun p => (.key p.1 p.2.1, p.2.2)
  | sequence _ events => events.map fun e => (.time e.1, e.2)
  | _ => []

def type (v : Vocabulary) : Tree → TypeId
  | scalar x => v.scalarType x.kind
  | text form _ => v.id form.term
  | literal _ _ _ => v.id .literal
  | chunk _ => v.id .chunk
  | atom type _ => type
  | vector _ _ _ => v.id .vector
  | tuple _ => v.id .tuple
  | object _ _ _ => v.id .object
  | sequence _ _ => v.id .sequence

/-- The body of a tree up to its branches. -/
def front (v : Vocabulary) : Tree → Bytes
  | scalar x => x.payload
  | text _ content => content ++ [0]
  | literal content lang datatype => word32 lang ++ word32 datatype ++ content ++ [0]
  | chunk body | atom _ body => body
  | vector childType width elements => word32 childType ++ word32 width ++ elements.flatten
  | tuple _ => []
  | object id otype _ => word32 id ++ word32 otype
  | sequence unit _ => word32 (v.id unit.term) ++ word32 0

def body (v : Vocabulary) (t : Tree) : Bytes := t.front v ++ branchBytes v t.branches

/-- The number of bytes that each branch stands behind. -/
def lead : Tree → Nat
  | object _ _ _ | sequence _ _ => 8
  | _ => 0

theorem length_label {t : Tree} {b : Branch} (h : b ∈ t.branches) :
    b.1.bytes.length = t.lead := by
  cases t with
  | tuple items =>
    obtain ⟨item, _, rfl⟩ := List.mem_map.mp h
    rfl
  | object id otype properties =>
    obtain ⟨p, _, rfl⟩ := List.mem_map.mp h
    rfl
  | sequence unit events =>
    obtain ⟨e, _, rfl⟩ := List.mem_map.mp h
    exact e.1.length_payload
  | _ => cases h

theorem itemOps_eq (items : List Tree) :
    itemOps items = branchOps (items.map fun item => (.bare, item)) := by
  induction items with
  | nil => rfl
  | cons item rest ih => simp [itemOps, ih, branchOps, Label.ops]

theorem propertyOps_eq (properties : List (TypeId × TypeId × Tree)) :
    propertyOps properties = branchOps (properties.map fun p => (.key p.1 p.2.1, p.2.2)) := by
  induction properties with
  | nil => rfl
  | cons p rest ih => simp [propertyOps, ih, branchOps, Label.ops]

theorem eventOps_eq (events : List (Stamp × Tree)) :
    eventOps events = branchOps (events.map fun e => (.time e.1, e.2)) := by
  induction events with
  | nil => rfl
  | cons e rest ih => simp [eventOps, ih, branchOps, Label.ops]

theorem encodeItems_eq (v : Vocabulary) (items : List Tree) :
    encodeItems v items = branchBytes v (items.map fun item => (.bare, item)) := by
  induction items with
  | nil => rfl
  | cons item rest ih => simp [encodeItems, ih, branchBytes, Label.bytes]

theorem encodeProperties_eq (v : Vocabulary) (properties : List (TypeId × TypeId × Tree)) :
    encodeProperties v properties =
      branchBytes v (properties.map fun p => (.key p.1 p.2.1, p.2.2)) := by
  induction properties with
  | nil => rfl
  | cons p rest ih => simp [encodeProperties, ih, branchBytes, Label.bytes, wordBytes_eq]

theorem encodeEvents_eq (v : Vocabulary) (events : List (Stamp × Tree)) :
    encodeEvents v events = branchBytes v (events.map fun e => (.time e.1, e.2)) := by
  induction events with
  | nil => rfl
  | cons e rest ih => simp [encodeEvents, ih, branchBytes, Label.bytes, Stamp.bytes_eq]

theorem encode_eq (v : Vocabulary) (t : Tree) : t.encode v = atomBytes (t.type v) (t.body v) := by
  cases t with
  | scalar x =>
    simp [encode, body, front, branches, type, branchBytes, Scalar.type_eq, Scalar.bytes_eq]
  | text form content => simp [encode, body, front, branches, type, branchBytes, TextForm.type_eq]
  | tuple items => simp [encode, body, front, branches, type, encodeItems_eq]
  | object id otype properties =>
    simp [encode, body, front, branches, type, encodeProperties_eq, wordBytes_eq]
  | sequence unit events =>
    simp [encode, body, front, branches, type, encodeEvents_eq, wordBytes_eq, TimeUnit.type_eq]
  | _ => simp [encode, body, front, branches, type, branchBytes, wordBytes_eq]

theorem length_encode (v : Vocabulary) (t : Tree) :
    (t.encode v).length = atomSize (t.body v).length := by
  simp only [encode_eq, atomBytes_eq, List.length_append, length_word32, List.length_replicate,
    atomSize, headerSize]

theorem depth_le_itemsDepth {items : List Tree} {t : Tree} (h : t ∈ items) :
    t.depth ≤ itemsDepth items := by
  induction items with
  | nil => cases h
  | cons item rest ih =>
    rw [itemsDepth]
    rcases List.mem_cons.mp h with rfl | h
    · exact Nat.le_max_left _ _
    · exact Nat.le_trans (ih h) (Nat.le_max_right _ _)

theorem depth_le_propertiesDepth {properties : List (TypeId × TypeId × Tree)}
    {p : TypeId × TypeId × Tree} (h : p ∈ properties) :
    p.2.2.depth ≤ propertiesDepth properties := by
  induction properties with
  | nil => cases h
  | cons head rest ih =>
    rw [propertiesDepth]
    rcases List.mem_cons.mp h with rfl | h
    · exact Nat.le_max_left _ _
    · exact Nat.le_trans (ih h) (Nat.le_max_right _ _)

theorem depth_le_eventsDepth {events : List (Stamp × Tree)} {e : Stamp × Tree} (h : e ∈ events) :
    e.2.depth ≤ eventsDepth events := by
  induction events with
  | nil => cases h
  | cons head rest ih =>
    rw [eventsDepth]
    rcases List.mem_cons.mp h with rfl | h
    · exact Nat.le_max_left _ _
    · exact Nat.le_trans (ih h) (Nat.le_max_right _ _)

theorem depth_lt_of_mem_branches {t : Tree} {b : Branch} (h : b ∈ t.branches) :
    b.2.depth < t.depth := by
  cases t with
  | tuple items =>
    obtain ⟨item, hitem, rfl⟩ := List.mem_map.mp h
    rw [depth]
    exact Nat.lt_succ_of_le (depth_le_itemsDepth hitem)
  | object id otype properties =>
    obtain ⟨p, hp, rfl⟩ := List.mem_map.mp h
    rw [depth]
    exact Nat.lt_succ_of_le (depth_le_propertiesDepth hp)
  | sequence unit events =>
    obtain ⟨e, he, rfl⟩ := List.mem_map.mp h
    rw [depth]
    exact Nat.lt_succ_of_le (depth_le_eventsDepth he)
  | _ => cases h

/-- What holds of no branches, and of branches whose first one has branches for which it
holds, holds of all branches. -/
theorem branches_induction {P : List Branch → Prop} (nil : P [])
    (cons : ∀ label t rest, P t.branches → P rest → P ((label, t) :: rest)) (list : List Branch) :
    P list := by
  have hlist : ∀ list : List Branch, (∀ b ∈ list, P b.2.branches) → P list := by
    intro list hall
    induction list with
    | nil => exact nil
    | cons b rest ih =>
      exact cons b.1 b.2 rest (hall b List.mem_cons_self)
        (ih fun x hx => hall x (List.mem_cons_of_mem b hx))
  have htree : ∀ t : Tree, P t.branches := by
    intro t
    induction hdepth : t.depth using Nat.strongRecOn generalizing t with
    | ind n ih =>
      apply hlist
      intro b hb
      have hlt := depth_lt_of_mem_branches hb
      exact ih b.2.depth (by omega) b.2 rfl
  exact hlist list fun b _ => htree b.2

mutual

/-- The check holds of the tree and of all trees in it. -/
def all (check : Tree → Bool) : Tree → Bool
  | scalar x => check (scalar x)
  | text form content => check (text form content)
  | literal content lang datatype => check (literal content lang datatype)
  | chunk body => check (chunk body)
  | atom type body => check (atom type body)
  | vector childType width elements => check (vector childType width elements)
  | tuple items => check (tuple items) && allItems check items
  | object id otype properties =>
    check (object id otype properties) && allProperties check properties
  | sequence unit events => check (sequence unit events) && allEvents check events

def allItems (check : Tree → Bool) : List Tree → Bool
  | [] => true
  | item :: rest => item.all check && allItems check rest

def allProperties (check : Tree → Bool) : List (TypeId × TypeId × Tree) → Bool
  | [] => true
  | (_, _, value) :: rest => value.all check && allProperties check rest

def allEvents (check : Tree → Bool) : List (Stamp × Tree) → Bool
  | [] => true
  | (_, value) :: rest => value.all check && allEvents check rest

end

section All

variable {check : Tree → Bool}

theorem allItems_iff {items : List Tree} :
    allItems check items = true ↔ ∀ item ∈ items, item.all check = true := by
  induction items with
  | nil => simp [allItems]
  | cons item rest ih => simp [allItems, ih]

theorem allProperties_iff {properties : List (TypeId × TypeId × Tree)} :
    allProperties check properties = true ↔ ∀ p ∈ properties, p.2.2.all check = true := by
  induction properties with
  | nil => simp [allProperties]
  | cons p rest ih => simp [allProperties, ih]

theorem allEvents_iff {events : List (Stamp × Tree)} :
    allEvents check events = true ↔ ∀ e ∈ events, e.2.all check = true := by
  induction events with
  | nil => simp [allEvents]
  | cons e rest ih => simp [allEvents, ih]

theorem all_iff {t : Tree} :
    t.all check = true ↔ check t = true ∧ ∀ b ∈ t.branches, b.2.all check = true := by
  cases t with
  | tuple items => simp only [all, branches, List.forall_mem_map, Bool.and_eq_true, allItems_iff]
  | object id otype properties =>
    simp only [all, branches, List.forall_mem_map, Bool.and_eq_true, allProperties_iff]
  | sequence unit events =>
    simp only [all, branches, List.forall_mem_map, Bool.and_eq_true, allEvents_iff]
  | _ => simp [all, branches]

end All

/-- What the format asks of a tree, its branches apart. -/
def isProper (v : Vocabulary) : Tree → Bool
  | scalar _ | text _ _ | chunk _ | tuple _ => true
  | literal _ lang datatype => lang = 0 ∨ datatype = 0
  | atom type _ => type ≠ 0 ∧ v.shape type = .raw
  | vector childType width elements =>
    childType ≠ 0 ∧ width ≠ 0 ∧ ∀ element ∈ elements, element.length = width.toNat
  | object _ _ properties => ∀ p ∈ properties, p.1 ≠ 0
  | sequence unit events => ∀ e ∈ events, e.1.unit = unit

/-- A proper tree with a body that a header can announce. -/
def isSound (v : Vocabulary) (t : Tree) : Bool := t.isProper v && (t.body v).length ≤ maxBody

end Tree

end AtomWire

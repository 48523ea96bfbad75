import AtomWire.Bytes.Lemmas
import AtomWire.Proofs.Moves
import AtomWire.Source.Container

/-!
# Reading what is laid out record by record

A record is an atom with the bytes that lead it. Where the bytes of some records stand one
after another in a block, every region over them yields these records and nothing else,
whatever the padding between them holds.
-/

namespace AtomWire

set_option autoImplicit false

/-- The bytes stand in the block from the position on. -/
def Block.Shows (b : Block) (pos : Nat) (bytes : Bytes) : Prop := bytes <+: b.bytes.drop pos

namespace Block.Shows

variable {b : Block} {pos : Nat} {x y : Bytes}

theorem left (h : b.Shows pos (x ++ y)) : b.Shows pos x := (List.prefix_append x y).trans h

theorem right (h : b.Shows pos (x ++ y)) : b.Shows (pos + x.length) y := by
  obtain ⟨rest, hrest⟩ := h
  refine ⟨rest, ?_⟩
  rw [← List.drop_drop, ← hrest, List.append_assoc, List.drop_left]

theorem append (hx : b.Shows pos x) (hy : b.Shows (pos + x.length) y) : b.Shows pos (x ++ y) := by
  obtain ⟨rest, hrest⟩ := hx
  rw [Block.Shows, ← List.drop_drop, ← hrest, List.drop_left] at hy
  rw [Block.Shows, ← hrest]
  exact (List.prefix_append_right_inj x).mpr hy

theorem slice_eq (h : b.Shows pos x) : slice b.bytes pos x.length = x :=
  (List.prefix_iff_eq_take.mp h).symm

theorem stop_le (h : b.Shows pos x) (hx : x ≠ []) : pos + x.length ≤ b.size := by
  have hlen := h.length_le
  have hpos : 0 < x.length := List.length_pos_iff.mpr hx
  rw [List.length_drop] at hlen
  unfold Block.size
  omega

end Block.Shows

@[simp] theorem length_headerBytes (type : TypeId) (size : Nat) :
    (headerBytes type size).length = 8 := by
  simp [headerBytes]

theorem slice_word32 {b : Block} {pos : Nat} {n : UInt32} (h : b.Shows pos (word32 n)) :
    getWord32 (slice b.bytes pos 4) = n := by
  have hslice := h.slice_eq
  rw [length_word32] at hslice
  rw [hslice, getWord32_word32]

theorem toNat_ofNat_of_le {n : Nat} (h : n ≤ maxBody) : (UInt32.ofNat n).toNat = n :=
  UInt32.toNat_ofNat_of_lt' (Nat.lt_of_le_of_lt h (by decide))

/-- An atom and the bytes that lead it. -/
structure Record where
  lead : Bytes
  type : TypeId
  body : Bytes
  pad : Bytes

namespace Record

def bytes (r : Record) : Bytes :=
  r.lead ++ (headerBytes r.type r.body.length ++ (r.body ++ r.pad))

structure Fits (lead : Nat) (r : Record) : Prop where
  length_lead : r.lead.length = lead
  body_le : r.body.length ≤ maxBody
  length_pad : r.pad.length = padding r.body.length

/-- As `Fits`, but the padding may be cut short. -/
structure Trimmed (lead : Nat) (r : Record) : Prop where
  length_lead : r.lead.length = lead
  body_le : r.body.length ≤ maxBody
  pad_le : r.pad.length ≤ padding r.body.length

theorem Fits.trimmed {lead : Nat} {r : Record} (h : r.Fits lead) : r.Trimmed lead :=
  ⟨h.length_lead, h.body_le, Nat.le_of_eq h.length_pad⟩

theorem bytes_lead (lead : Bytes) (type : TypeId) (body pad : Bytes) :
    bytes ⟨lead, type, body, pad⟩ = lead ++ bytes ⟨[], type, body, pad⟩ := rfl

/-- The view of the atom of a record that starts at `pos`. -/
def view (memory : Option Nat) (pos : Nat) (r : Record) : AtomView :=
  ⟨r.type, UInt32.ofNat r.body.length, pos + r.lead.length, pos + r.bytes.length,
    ⟨memory, pos + r.lead.length + headerSize, r.body⟩⟩

@[simp] theorem view_type (memory : Option Nat) (pos : Nat) (r : Record) :
    (r.view memory pos).type = r.type := rfl

/-- The bytes of records that follow each other. -/
def flat (records : List Record) : Bytes := records.flatMap bytes

/-- The records with their positions, the first one at `pos`. -/
def place : Nat → List Record → List (Nat × Record)
  | _, [] => []
  | pos, r :: rest => (pos, r) :: place (pos + r.bytes.length) rest

@[simp] theorem flat_nil : flat [] = [] := rfl

@[simp] theorem flat_cons (r : Record) (rest : List Record) :
    flat (r :: rest) = r.bytes ++ flat rest := List.flatMap_cons

@[simp] theorem flat_append (rs rest : List Record) :
    flat (rs ++ rest) = flat rs ++ flat rest := List.flatMap_append

@[simp] theorem length_place (pos : Nat) (records : List Record) :
    (place pos records).length = records.length := by
  induction records generalizing pos with
  | nil => rfl
  | cons r rest ih => simp [place, ih]

theorem place_take (pos count : Nat) (records : List Record) :
    (place pos records).take count = place pos (records.take count) := by
  induction records generalizing pos count with
  | nil => simp [place]
  | cons r rest ih =>
    cases count with
    | zero => rfl
    | succ count => simp [place, ih]

theorem mem_of_mem_place {x : Nat × Record} {pos : Nat} {records : List Record}
    (h : x ∈ place pos records) : x.2 ∈ records := by
  induction records generalizing pos with
  | nil => cases h
  | cons r rest ih =>
    rcases List.mem_cons.mp h with rfl | h
    · exact List.mem_cons_self
    · exact List.mem_cons_of_mem r (ih h)

theorem length_bytes_trimmed {r : Record} {lead : Nat} (h : r.Trimmed lead) :
    r.bytes.length = lead + headerSize + r.body.length + r.pad.length := by
  simp only [bytes, List.length_append, length_headerBytes, h.length_lead, headerSize]
  omega

theorem length_bytes {r : Record} {lead : Nat} (h : r.Fits lead) :
    r.bytes.length = lead + headerSize + r.body.length + padding r.body.length := by
  rw [length_bytes_trimmed h.trimmed, h.length_pad]

theorem bytes_ne_nil (r : Record) : r.bytes ≠ [] := by
  have hlen : 8 ≤ r.bytes.length := by
    simp only [bytes, List.length_append, length_headerBytes]
    omega
  intro hnil
  simp [hnil] at hlen

end Record

section Atom

variable {b : Block} {pos lead : Nat} {r : Record}

theorem typeAt_header {type : TypeId} {size : Nat} (h : b.Shows pos (headerBytes type size)) :
    b.typeAt pos = type := slice_word32 h.left

theorem sizeAt_header {type : TypeId} {size : Nat} (h : b.Shows pos (headerBytes type size)) :
    b.sizeAt pos = UInt32.ofNat size := by
  have hword := h.right
  rw [length_word32] at hword
  exact slice_word32 hword

theorem typeAt_record (h : b.Shows pos r.bytes) : b.typeAt (pos + r.lead.length) = r.type :=
  typeAt_header h.right.left

theorem sizeAt_record (h : b.Shows pos r.bytes) :
    b.sizeAt (pos + r.lead.length) = UInt32.ofNat r.body.length := sizeAt_header h.right.left

theorem bodyEnd_record (h : b.Shows pos r.bytes) (htrim : r.Trimmed lead) :
    b.bodyEnd (pos + r.lead.length) = pos + r.lead.length + headerSize + r.body.length := by
  rw [Block.bodyEnd, sizeAt_record h, toNat_ofNat_of_le htrim.body_le]

theorem paddedEnd_record (h : b.Shows pos r.bytes) (htrim : r.Trimmed lead) :
    b.paddedEnd (pos + r.lead.length) =
      pos + r.lead.length + headerSize + r.body.length + padding r.body.length := by
  rw [Block.paddedEnd, bodyEnd_record h htrim, sizeAt_record h, toNat_ofNat_of_le htrim.body_le]

theorem viewAt_record (h : b.Shows pos r.bytes) (htrim : r.Trimmed lead) :
    b.viewAt (pos + r.lead.length) (pos + r.bytes.length) = r.view b.memory pos := by
  have hbody := h.right.right.left
  rw [length_headerBytes] at hbody
  rw [Block.viewAt, typeAt_record h, sizeAt_record h, toNat_ofNat_of_le htrim.body_le, Block.span]
  rw [show pos + r.lead.length + headerSize = pos + r.lead.length + 8 from rfl, hbody.slice_eq]
  rfl

/-- A record is read where it ends with its padding, or where the end cuts that off. -/
theorem childAt_record {stop : Nat} {overrun : WireError} (h : b.Shows pos r.bytes)
    (htrim : r.Trimmed lead) (hstop : pos + r.bytes.length ≤ stop)
    (hend : r.Fits lead ∨ pos + r.bytes.length = stop) :
    b.childAt (pos + r.lead.length) stop overrun = .ok (r.view b.memory pos) := by
  apply Block.childAt_eq_ok_iff.mpr
  have hlen := Record.length_bytes_trimmed htrim
  have hlead := htrim.length_lead
  have hpad := htrim.pad_le
  have hnext : min (b.paddedEnd (pos + r.lead.length)) stop = pos + r.bytes.length := by
    rw [paddedEnd_record h htrim]
    rcases hend with hfit | hcut
    · have hfull := hfit.length_pad
      omega
    · omega
  rw [bodyEnd_record h htrim, hnext, viewAt_record h htrim]
  exact ⟨by omega, rfl⟩

end Atom

namespace Region

variable {α : Type}

theorem itemAt_record {r : Region α} {pos : Nat} {x : Record} (h : r.block.Shows pos x.bytes)
    (htrim : x.Trimmed r.layout.lead) (hstop : pos + x.bytes.length ≤ r.stop)
    (hend : x.Fits r.layout.lead ∨ pos + x.bytes.length = r.stop) :
    r.itemAt pos =
      .ok (r.layout.make x.lead (x.view r.block.memory pos), pos + x.bytes.length) := by
  apply itemAt_eq_ok_iff.mpr
  refine ⟨x.view r.block.memory pos, ?_, ?_, rfl⟩
  · rw [← htrim.length_lead]
    exact childAt_record h htrim hstop hend
  · rw [← htrim.length_lead, h.left.slice_eq]

/-- A region yields the records that it starts with, in order and without an error. -/
theorem itemsFrom_records_append {r : Region α} {records : List Record} {pos : Nat}
    (hfit : ∀ x ∈ records, x.Fits r.layout.lead)
    (hshow : r.block.Shows pos (Record.flat records))
    (hstop : pos + (Record.flat records).length ≤ r.stop) :
    r.itemsFrom pos = ((Record.place pos records).map fun x =>
      .ok (r.layout.make x.2.lead (x.2.view r.block.memory x.1))) ++
        r.itemsFrom (pos + (Record.flat records).length) := by
  induction records generalizing pos with
  | nil => rfl
  | cons x rest ih =>
    rw [Record.flat_cons] at hshow hstop
    rw [List.length_append] at hstop
    have hpos : 0 < x.bytes.length := List.length_pos_iff.mpr x.bytes_ne_nil
    have hx := hfit x List.mem_cons_self
    have hitem := itemAt_record hshow.left hx.trimmed (by omega) (Or.inl hx)
    have hrest := ih (fun y hy => hfit y (List.mem_cons_of_mem x hy)) hshow.right (by omega)
    rw [itemsFrom_of_ok (by omega) hitem, hrest, Record.flat_cons, List.length_append,
      ← Nat.add_assoc]
    rfl

/-- A region over records yields them and nothing else. -/
theorem itemsFrom_records {r : Region α} {records : List Record} {pos : Nat}
    (hfit : ∀ x ∈ records, x.Fits r.layout.lead)
    (hshow : r.block.Shows pos (Record.flat records))
    (hstop : r.stop = pos + (Record.flat records).length) :
    r.itemsFrom pos = (Record.place pos records).map fun x =>
      .ok (r.layout.make x.2.lead (x.2.view r.block.memory x.1)) := by
  rw [itemsFrom_records_append hfit hshow (Nat.le_of_eq hstop.symm),
    itemsFrom_of_le (Nat.le_of_eq hstop), List.append_nil]

end Region

namespace Source

variable {s : Source} {pos lead : Nat} {r : Record}

theorem atomAt_record (h : s.block.Shows pos r.bytes) (hfit : r.Fits 0) :
    s.atomAt pos = .ok (r.view s.block.memory pos) := by
  have hlead := hfit.length_lead
  have hstop : pos + r.bytes.length ≤ s.size := h.stop_le r.bytes_ne_nil
  have hlen := Record.length_bytes hfit
  have hend := paddedEnd_record h hfit.trimmed
  have hview := viewAt_record h hfit.trimmed
  rw [hlead, Nat.add_zero] at hend hview
  rw [show pos + headerSize + r.body.length + padding r.body.length = pos + r.bytes.length by
    omega] at hend
  simp only [atomAt, headerAt, ensure_bind, hend]
  rw [if_pos (decide_eq_true (by omega)), if_pos (decide_eq_true hstop), pure_eq_ok, ok_bind,
    pure_eq_ok, hview]

theorem body_record (h : s.block.Shows pos r.bytes) (hfit : r.Fits lead) :
    s.body (r.view s.block.memory pos) = .ok r.body := by
  have hstop : pos + r.bytes.length ≤ s.size := h.stop_le r.bytes_ne_nil
  have hlen := Record.length_bytes hfit
  have hlead := hfit.length_lead
  have hbody := h.right.right.left
  rw [length_headerBytes] at hbody
  have hholds : s.holds (r.view s.block.memory pos) = true := by
    simp only [holds, Record.view, AtomView.bodyOffset, toNat_ofNat_of_le hfit.body_le,
      decide_eq_true_eq, and_true]
    omega
  have hslice : slice s.block.bytes (r.view s.block.memory pos).bodyOffset
      (r.view s.block.memory pos).bodySize.toNat = r.body := by
    simp only [Record.view, AtomView.bodyOffset, toNat_ofNat_of_le hfit.body_le]
    exact hbody.slice_eq
  rw [body, ensure_bind, if_pos hholds, pure_eq_ok, hslice]

/-- The records in a body are read from behind what leads them all. -/
theorem items_regionOf {α : Type} (layout : Layout α) {front : Bytes} {inner : List Record}
    (h : s.block.Shows pos r.bytes) (hfit : r.Fits lead)
    (hbody : r.body = front ++ Record.flat inner) (hinner : ∀ x ∈ inner, x.Fits layout.lead) :
    (s.regionOf (r.view s.block.memory pos) front.length layout).items =
      (Record.place (pos + r.lead.length + headerSize + front.length) inner).map fun x =>
        .ok (layout.make x.2.lead (x.2.view s.block.memory x.1)) := by
  have hshow := h.right.right.left
  rw [length_headerBytes, hbody] at hshow
  apply Region.itemsFrom_records hinner hshow.right
  have hsize : (UInt32.ofNat r.body.length).toNat = front.length + (Record.flat inner).length := by
    rw [toNat_ofNat_of_le hfit.body_le, hbody, List.length_append]
  simp only [regionOf, Record.view, AtomView.bodyOffset, hsize]
  omega

theorem openAs_record {term : Term} {count : Nat} (h : s.block.Shows pos r.bytes)
    (hfit : r.Fits lead) (htype : r.type = s.vocabulary.id term) (hbody : count ≤ r.body.length) :
    s.openAs term count (r.view s.block.memory pos) = .ok r.body := by
  rw [openAs, body_record h hfit, ok_bind, ensure_bind, Record.view_type,
    if_pos (decide_eq_true htype), ensure_bind, if_pos (decide_eq_true hbody)]
  rfl

theorem tuple_record (h : s.block.Shows pos r.bytes) (hfit : r.Fits lead)
    (htype : r.type = s.vocabulary.id .tuple) :
    s.tuple (r.view s.block.memory pos) =
      .ok (s.regionOf (r.view s.block.memory pos) 0 (Layout.atoms .malformedContainer)) := by
  rw [tuple, openAs_record h hfit htype (Nat.zero_le _)]
  rfl

theorem object_record (h : s.block.Shows pos r.bytes) (hfit : r.Fits lead)
    (htype : s.vocabulary.isObject r.type = true) (hbody : 8 ≤ r.body.length) :
    s.object (r.view s.block.memory pos) =
      .ok ⟨getWord32 r.body, getWord32 (r.body.drop 4),
        s.regionOf (r.view s.block.memory pos) 8 Layout.properties⟩ := by
  rw [object, body_record h hfit, ok_bind, ensure_bind, Record.view_type, if_pos htype,
    ensure_bind, if_pos (decide_eq_true hbody)]
  rfl

theorem sequence_record (h : s.block.Shows pos r.bytes) (hfit : r.Fits lead)
    (htype : r.type = s.vocabulary.id .sequence) (hbody : 8 ≤ r.body.length) :
    s.sequence (r.view s.block.memory pos) =
      .ok ⟨s.unitOf (getWord32 r.body), s.regionOf (r.view s.block.memory pos) 8
        (Layout.events (s.unitOf (getWord32 r.body)))⟩ := by
  rw [sequence, openAs_record h hfit htype hbody]
  rfl

theorem vector_record {childType : TypeId} {width : UInt32} {elements : Bytes}
    (h : s.block.Shows pos r.bytes) (hfit : r.Fits lead)
    (htype : r.type = s.vocabulary.id .vector)
    (hbody : r.body = word32 childType ++ (word32 width ++ elements))
    (hwidth : if width = 0 then elements = [] else elements.length % width.toNat = 0) :
    ∃ span, s.vector (r.view s.block.memory pos) = .ok ⟨childType, width, span⟩ ∧
      span.bytes = elements := by
  have hchild : getWord32 r.body = childType := by rw [hbody, getWord32_word32_append]
  have hdrop : getWord32 (r.body.drop 4) = width := by
    rw [hbody, List.drop_left' (length_word32 childType), getWord32_word32_append]
  have helements : r.body.drop 8 = elements := by
    rw [hbody, ← List.append_assoc, List.drop_left' (by simp)]
  have hlen : 8 ≤ r.body.length := by
    simp only [hbody, List.length_append, length_word32]
    omega
  refine ⟨⟨s.block.memory, (r.view s.block.memory pos).bodyOffset + 8, elements⟩, ?_, rfl⟩
  simp only [vector, openAs_record h hfit htype hlen, ok_bind, ensure_bind, hchild, hdrop,
    helements]
  split at hwidth
  · rename_i hzero
    simp [hzero, hwidth]
  · rename_i hzero
    simp [hzero, hwidth]

end Source

end AtomWire

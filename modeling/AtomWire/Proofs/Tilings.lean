import AtomWire.Proofs.Records

/-!
# Regions and the records that fill them

Whatever the bytes of a region are, they are read as records one after another for as long
as they can be. If they are used up so, the records fill the region: all are whole, except
that the end of the region may cut off padding of the last one. There is no other way to
fill it. If not, the records read are the longest start of the region that can be filled
so, and one error follows them.
-/

namespace AtomWire

set_option autoImplicit false

/-- Records one after another, of which only the last one may lack padding. -/
inductive Tiles (lead : Nat) : List Record → Prop where
  | nil : Tiles lead []
  | cons {r : Record} {rest : List Record} (htrim : r.Trimmed lead)
      (hfull : rest ≠ [] → r.Fits lead) (hrest : Tiles lead rest) : Tiles lead (r :: rest)

namespace Region

variable {α : Type}

/-- The bytes between the ends of a region. -/
def bytes (r : Region α) : Bytes := slice r.block.bytes r.first (r.stop - r.first)

/-- The items that records make, the first of them at `pos`. -/
def made (r : Region α) (pos : Nat) (records : List Record) : List α :=
  (Record.place pos records).map fun x => r.layout.make x.2.lead (x.2.view r.block.memory x.1)

/-- What is read in a region, and what is not, with `overrun` for an error. -/
structure Parses (r : Region α) (overrun : WireError) : Prop where
  /-- There is no error exactly if records fill the region; the items are these records. -/
  accepted (items : List α) : r.items = items.map .ok ↔
    ∃ records, Tiles r.layout.lead records ∧ Record.flat records = r.bytes ∧
      items = r.made r.first records
  unique {records others : List Record} (h : Tiles r.layout.lead records)
    (hothers : Tiles r.layout.lead others) (hsame : Record.flat records = Record.flat others) :
    records = others
  /-- Otherwise the items are the longest start that records fill, then one error. -/
  rejected (h : ¬ ∃ records, Tiles r.layout.lead records ∧ Record.flat records = r.bytes) :
    ∃ records, Tiles r.layout.lead records ∧ Record.flat records <+: r.bytes ∧
      (∀ others, Tiles r.layout.lead others → Record.flat others <+: r.bytes →
        Record.flat others <+: Record.flat records) ∧
      r.items = (r.made r.first records).map .ok ++ [.error overrun]
  counted : ∃ values : List α, r.count = values.length ∧
    (r.items = values.map .ok ∨ r.items = values.map .ok ++ [.error overrun])

end Region

namespace Record

variable {lead : Nat} {x y : Record} {u v : Bytes}

theorem headerBytes_inj {type type' : TypeId} {size size' : Nat} (hsize : size ≤ maxBody)
    (hsize' : size' ≤ maxBody) (h : headerBytes type size = headerBytes type' size') :
    type = type' ∧ size = size' := by
  obtain ⟨htype, hwords⟩ := List.append_inj h (by simp)
  have hnat := congrArg UInt32.toNat (congrArg getWord32 hwords)
  rw [getWord32_word32, getWord32_word32, toNat_ofNat_of_le hsize,
    toNat_ofNat_of_le hsize'] at hnat
  refine ⟨?_, hnat⟩
  rw [← getWord32_word32 type, htype, getWord32_word32]

/-- The bytes of a record tell everything but where its padding ends. -/
theorem parts_eq (hx : x.Trimmed lead) (hy : y.Trimmed lead) (h : x.bytes ++ u = y.bytes ++ v) :
    x.lead = y.lead ∧ x.type = y.type ∧ x.body = y.body ∧ x.pad ++ u = y.pad ++ v := by
  simp only [bytes, List.append_assoc] at h
  obtain ⟨hlead, h⟩ := List.append_inj h (hx.length_lead.trans hy.length_lead.symm)
  obtain ⟨hheader, h⟩ := List.append_inj h (by simp)
  obtain ⟨htype, hsize⟩ := headerBytes_inj hx.body_le hy.body_le hheader
  obtain ⟨hbody, hpad⟩ := List.append_inj h hsize
  exact ⟨hlead, htype, hbody, hpad⟩

theorem eq_of_pad (hlead : x.lead = y.lead) (htype : x.type = y.type) (hbody : x.body = y.body)
    (hpad : x.pad = y.pad) : x = y := by
  cases x
  cases y
  simp_all

/-- Whole records at the start of the same bytes are the same. -/
theorem eq_of_fits (hx : x.Fits lead) (hy : y.Fits lead) (h : x.bytes ++ u = y.bytes ++ v) :
    x = y ∧ u = v := by
  obtain ⟨hlead, htype, hbody, hpad⟩ := parts_eq hx.trimmed hy.trimmed h
  have hlen : x.pad.length = y.pad.length := by rw [hx.length_pad, hy.length_pad, hbody]
  obtain ⟨hpad, hrest⟩ := List.append_inj hpad hlen
  exact ⟨eq_of_pad hlead htype hbody hpad, hrest⟩

theorem flat_eq_nil {records : List Record} : flat records = [] ↔ records = [] := by
  cases records with
  | nil => simp
  | cons r rest => simp [r.bytes_ne_nil]

end Record

namespace Tiles

variable {lead : Nat} {records others : List Record}

theorem of_fits (h : ∀ r ∈ records, r.Fits lead) : Tiles lead records := by
  induction records with
  | nil => exact .nil
  | cons r rest ih =>
    rw [List.forall_mem_cons] at h
    exact .cons h.1.trimmed (fun _ => h.1) (ih h.2)

/-- Nothing follows where a single record makes up all the bytes. -/
theorem rest_eq_nil {x y : Record} {rest : List Record} (hx : x.Trimmed lead)
    (hy : y.Trimmed lead) (hrest : rest ≠ [] → y.Fits lead)
    (h : x.bytes ++ [] = y.bytes ++ Record.flat rest) : rest = [] := by
  by_contra hne
  obtain ⟨_, _, hbody, hpad⟩ := Record.parts_eq hx hy h
  have hlen := congrArg List.length hpad
  have hfull := (hrest hne).length_pad
  have hpad_le := hx.pad_le
  have hpos : 0 < (Record.flat rest).length :=
    List.length_pos_iff.mpr fun hnil => hne (Record.flat_eq_nil.mp hnil)
  rw [hbody] at hpad_le
  simp only [List.length_append, List.length_nil] at hlen
  omega

theorem unique (h : Tiles lead records) (hothers : Tiles lead others)
    (hsame : Record.flat records = Record.flat others) : records = others := by
  induction h generalizing others with
  | nil => exact (Record.flat_eq_nil.mp hsame.symm).symm
  | @cons x rest htrim hfull hrest ih =>
    cases hothers with
    | nil => exact absurd (Record.flat_eq_nil.mp hsame) (by simp)
    | @cons y more htrim' hfull' hmore =>
      rw [Record.flat_cons, Record.flat_cons] at hsame
      by_cases hempty : rest = [] ∨ more = []
      · -- One of them ends here, so the other one does, and their padding is what is left.
        obtain ⟨rfl, rfl⟩ : rest = [] ∧ more = [] := by
          rcases hempty with rfl | rfl
          · exact ⟨rfl, rest_eq_nil htrim htrim' hfull' hsame⟩
          · exact ⟨rest_eq_nil htrim' htrim hfull hsame.symm, rfl⟩
        obtain ⟨hlead, htype, hbody, hpad⟩ := Record.parts_eq htrim htrim' hsame
        simp only [Record.flat_nil, List.append_nil] at hpad
        rw [Record.eq_of_pad hlead htype hbody hpad]
      · obtain ⟨hrestne, hmorene⟩ := not_or.mp hempty
        obtain ⟨rfl, htail⟩ := Record.eq_of_fits (hfull hrestne) (hfull' hmorene) hsame
        rw [ih hmore htail]

/-- Where no record can follow some whole ones, no tiling of a start goes beyond them. -/
theorem prefix_of_stuck {tail : Bytes} (h : Tiles lead records)
    (hothers : ∀ r ∈ others, r.Fits lead)
    (hstuck : ∀ r : Record, r.Trimmed lead → ¬ r.bytes <+: tail)
    (hstart : Record.flat records <+: Record.flat others ++ tail) :
    Record.flat records <+: Record.flat others := by
  induction h generalizing others with
  | nil => exact List.nil_prefix
  | @cons x rest htrim hfull hrest ih =>
    rw [Record.flat_cons] at hstart ⊢
    cases others with
    | nil =>
      rw [Record.flat_nil, List.nil_append] at hstart
      exact absurd ((List.prefix_append _ _).trans hstart) (hstuck x htrim)
    | cons y more =>
      rw [List.forall_mem_cons] at hothers
      obtain ⟨surplus, hsurplus⟩ := hstart
      rw [Record.flat_cons, List.append_assoc, List.append_assoc] at hsurplus
      rw [Record.flat_cons]
      by_cases hlast : rest = []
      · subst hlast
        obtain ⟨hlead, htype, hbody, hpad⟩ := Record.parts_eq htrim hothers.1.trimmed hsurplus
        have hlen : x.pad.length ≤ y.pad.length := by
          rw [hothers.1.length_pad, ← hbody]
          exact htrim.pad_le
        have hpads : x.pad <+: y.pad :=
          List.prefix_of_prefix_length_le ⟨_, hpad⟩ (List.prefix_append _ _) hlen
        have hbytes : x.bytes <+: y.bytes := by
          rw [Record.bytes, Record.bytes, hlead, htype, hbody, List.prefix_append_right_inj,
            List.prefix_append_right_inj, List.prefix_append_right_inj]
          exact hpads
        simpa using hbytes.trans (List.prefix_append _ _)
      · obtain ⟨rfl, htail⟩ := Record.eq_of_fits (hfull hlast) hothers.1 hsurplus
        rw [List.prefix_append_right_inj]
        exact ih hothers.2 ⟨surplus, htail⟩

end Tiles

namespace Region

variable {α : Type} {r : Region α} {pos next : Nat} {item : α} {records : List Record}

/-- The record at a position where an item is read. -/
theorem exists_record (hstop : r.stop ≤ r.block.size) (h : r.itemAt pos = .ok (item, next)) :
    ∃ x : Record, x.Trimmed r.layout.lead ∧ r.block.Shows pos x.bytes ∧
      next = pos + x.bytes.length ∧ next ≤ r.stop ∧ (x.Fits r.layout.lead ∨ next = r.stop) ∧
      item = r.layout.make x.lead (x.view r.block.memory pos) := by
  obtain ⟨value, hchild, rfl, rfl⟩ := itemAt_eq_ok_iff.mp h
  obtain ⟨hbody, hvalue⟩ := Block.childAt_eq_ok_iff.mp hchild
  let start := pos + r.layout.lead
  let size := (r.block.sizeAt start).toNat
  let x : Record := ⟨slice r.block.bytes pos r.layout.lead, r.block.typeAt start,
    slice r.block.bytes (start + 8) size,
    slice r.block.bytes (start + 8 + size) (value.next - (start + 8 + size))⟩
  have hnext : value.next = min (start + 8 + size + padding size) r.stop := by
    rw [hvalue]
    rfl
  have hend : start + 8 + size ≤ r.stop := hbody
  have hsize : r.stop ≤ r.block.bytes.length := hstop
  have hlead : x.lead.length = r.layout.lead := length_slice (by omega)
  have hlen : x.body.length = size := length_slice (by omega)
  have hpad : x.pad.length = value.next - (start + 8 + size) := length_slice (by omega)
  have hle : x.body.length ≤ maxBody := by
    rw [hlen]
    exact Nat.le_of_lt_succ (r.block.sizeAt start).toNat_lt
  have htrim : x.Trimmed r.layout.lead := ⟨hlead, hle, by rw [hlen]; omega⟩
  have hheader : headerBytes x.type x.body.length = slice r.block.bytes start 8 := by
    rw [headerBytes, hlen, UInt32.ofNat_toNat, ← slice_append r.block.bytes start 4 4]
    have htype : (slice r.block.bytes start 4).length = 4 := length_slice (by omega)
    have hsize : (slice r.block.bytes (start + 4) 4).length = 4 := length_slice (by omega)
    change word32 (getWord32 _) ++ word32 (getWord32 _) = _
    rw [word32_getWord32 (Nat.le_of_eq htype.symm), word32_getWord32 (Nat.le_of_eq hsize.symm),
      List.take_of_length_le (Nat.le_of_eq htype), List.take_of_length_le (Nat.le_of_eq hsize)]
  -- The parts of the record follow each other in the block.
  have hbytes : x.bytes = slice r.block.bytes pos (r.layout.lead + (8 + (size +
      (value.next - (start + 8 + size))))) := by
    rw [Record.bytes, hheader, ← slice_append, ← slice_append, ← slice_append]
  have hshow : r.block.Shows pos x.bytes := by
    rw [hbytes]
    exact List.take_prefix _ _
  have htotal : pos + x.bytes.length = value.next := by
    rw [Record.length_bytes_trimmed htrim, hlen, hpad, headerSize]
    omega
  have hview : value = x.view r.block.memory pos := by
    rw [← viewAt_record hshow htrim, hlead, htotal, hnext]
    exact hvalue
  refine ⟨x, htrim, hshow, htotal.symm, by omega, ?_, congrArg _ hview⟩
  by_cases hcut : value.next = r.stop
  · exact Or.inr hcut
  · exact Or.inl ⟨hlead, hle, by rw [hpad, hlen]; omega⟩

/-- Where the start of a record fits into a region, there is an item. -/
theorem itemAt_ne_error {x : Record} {e : WireError} (htrim : x.Trimmed r.layout.lead)
    (hshow : r.block.Shows pos x.bytes) (hstop : pos + x.bytes.length ≤ r.stop) :
    r.itemAt pos ≠ .error e := by
  intro herror
  have hbody := bodyEnd_record hshow htrim
  have hlen := Record.length_bytes_trimmed htrim
  have hlead := htrim.length_lead
  rw [hlead] at hbody
  have hchild : r.block.childAt (pos + r.layout.lead) r.stop r.layout.overrun = .ok _ :=
    Block.childAt_eq_ok_iff.mpr ⟨by omega, rfl⟩
  have hitem := itemAt_eq_ok_iff.mpr ⟨_, hchild, rfl, rfl⟩
  rw [herror] at hitem
  cases hitem

/-- What leads a record is missing, or its atom does not fit. -/
theorem itemAt_error {e : WireError} (h : r.itemAt pos = .error e) :
    (e = .malformedContainer ∧ r.stop < pos + r.layout.lead) ∨ e = r.layout.overrun := by
  simp only [itemAt, ensure_bind, decide_eq_true_eq] at h
  split at h
  · right
    simp only [Block.childAt, ensure_bind, decide_eq_true_eq] at h
    split at h
    · split at h
      · cases h
      · cases h
        rfl
    · cases h
      rfl
  · rename_i hlead
    cases h
    exact Or.inl ⟨rfl, Nat.lt_of_not_le hlead⟩

theorem itemsFrom_tiles (h : Tiles r.layout.lead records)
    (hshow : r.block.Shows pos (Record.flat records))
    (hlen : (Record.flat records).length = r.stop - pos) :
    r.itemsFrom pos = (r.made pos records).map .ok := by
  induction h generalizing pos with
  | nil =>
    rw [Record.flat_nil, List.length_nil] at hlen
    exact itemsFrom_of_le (by omega)
  | @cons x rest htrim hfull hrest ih =>
    rw [Record.flat_cons] at hshow hlen
    rw [List.length_append] at hlen
    have hpos : 0 < x.bytes.length := List.length_pos_iff.mpr x.bytes_ne_nil
    have hend : x.Fits r.layout.lead ∨ pos + x.bytes.length = r.stop := by
      by_cases hlast : rest = []
      · right
        simp only [hlast, Record.flat_nil, List.length_nil] at hlen
        omega
      · exact Or.inl (hfull hlast)
    rw [itemsFrom_of_ok (by omega) (itemAt_record hshow.left htrim (by omega) hend),
      ih hshow.right (by omega)]
    rfl

/-- The bytes from a position on are used up by records, or an error follows whole ones. -/
theorem itemsFrom_cases (hstop : r.stop ≤ r.block.size) (pos : Nat) :
    ∃ records, r.block.Shows pos (Record.flat records) ∧
      ((Tiles r.layout.lead records ∧ (Record.flat records).length = r.stop - pos) ∨
        ((∀ x ∈ records, x.Fits r.layout.lead) ∧ ∃ e,
          pos + (Record.flat records).length < r.stop ∧
          r.itemAt (pos + (Record.flat records).length) = .error e ∧
          r.itemsFrom pos = (r.made pos records).map .ok ++ [.error e])) := by
  induction pos using r.itemsFrom_induction with
  | behind pos hpos => exact ⟨[], List.nil_prefix, Or.inl ⟨.nil, by simp; omega⟩⟩
  | error pos e hpos hitem =>
    refine ⟨[], List.nil_prefix, Or.inr ⟨by simp, e, hpos, hitem, ?_⟩⟩
    exact itemsFrom_of_error hpos hitem
  | record pos value hpos hchild ih =>
    have hitem := itemAt_eq_ok_iff.mpr ⟨value, hchild, rfl, rfl⟩
    obtain ⟨x, htrim, hshow, hnext, hle, hend, hmade⟩ := exists_record hstop hitem
    obtain ⟨rest, hrest, hcases⟩ := ih
    have hflat : (Record.flat (x :: rest)).length =
        x.bytes.length + (Record.flat rest).length := by simp
    rw [hnext] at hrest hle hend
    refine ⟨x :: rest, hshow.append hrest, ?_⟩
    rcases hcases with ⟨htiles, hlen⟩ | ⟨hfits, e, hlt, herror, hitems⟩
    · refine Or.inl ⟨.cons htrim ?_ htiles, by omega⟩
      intro hne
      have hpos : 0 < (Record.flat rest).length :=
        List.length_pos_iff.mpr fun hnil => hne (Record.flat_eq_nil.mp hnil)
      exact hend.resolve_right (by omega)
    · have hfit : x.Fits r.layout.lead := hend.resolve_right (by omega)
      refine Or.inr ⟨List.forall_mem_cons.mpr ⟨hfit, hfits⟩, e, by omega, ?_, ?_⟩
      · rw [hflat, ← Nat.add_assoc, ← hnext]
        exact herror
      · rw [itemsFrom_of_ok hpos hitem, hitems, hmade, hnext]
        rfl

theorem length_bytes (hstop : r.stop ≤ r.block.size) : r.bytes.length = r.stop - r.first := by
  simp only [bytes, slice, List.length_take, List.length_drop]
  unfold Block.size at hstop
  omega

theorem items_of_tiles (hstop : r.stop ≤ r.block.size) (h : Tiles r.layout.lead records)
    (hbytes : Record.flat records = r.bytes) : r.items = (r.made r.first records).map .ok := by
  apply itemsFrom_tiles h
  · rw [hbytes]
    exact List.take_prefix _ _
  · rw [hbytes, length_bytes hstop]

/-- A region is filled by records, or an error follows the longest start that is. -/
theorem items_cases (hstop : r.stop ≤ r.block.size)
    (hlead : r.layout.lead = 0 ∨ r.layout.overrun = .malformedContainer) :
    (∃ records, Tiles r.layout.lead records ∧ Record.flat records = r.bytes) ∨
      ∃ records, Tiles r.layout.lead records ∧ Record.flat records <+: r.bytes ∧
        (∀ others, Tiles r.layout.lead others → Record.flat others <+: r.bytes →
          Record.flat others <+: Record.flat records) ∧
        r.items = (r.made r.first records).map .ok ++ [.error r.layout.overrun] := by
  obtain ⟨records, hshow, ⟨htiles, hlen⟩ | ⟨hfits, e, hlt, herror, hitems⟩⟩ :=
    itemsFrom_cases hstop r.first
  · refine Or.inl ⟨records, htiles, ?_⟩
    rw [← hshow.slice_eq, hlen]
    rfl
  · have he : e = r.layout.overrun := by
      rcases itemAt_error herror with ⟨rfl, hmissing⟩ | he
      · exact (hlead.resolve_left (by omega)).symm
      · exact he
    have hstart : Record.flat records <+: r.bytes :=
      List.prefix_of_prefix_length_le hshow (List.take_prefix _ _)
        (by rw [length_bytes hstop]; omega)
    obtain ⟨tail, htail⟩ := hstart
    -- A record in what is left would have been read.
    have hstuck : ∀ x : Record, x.Trimmed r.layout.lead → ¬ x.bytes <+: tail := by
      intro x htrim hx
      have hboth : r.block.Shows r.first (Record.flat records ++ x.bytes) := by
        have hprefix : Record.flat records ++ x.bytes <+: r.bytes := by
          rw [← htail]
          exact (List.prefix_append_right_inj _).mpr hx
        exact hprefix.trans (List.take_prefix _ _)
      have hlen := hx.length_le
      have htotal := congrArg List.length htail
      rw [List.length_append, length_bytes hstop] at htotal
      exact itemAt_ne_error htrim hboth.right (by omega) herror
    refine Or.inr ⟨records, .of_fits hfits, ⟨tail, htail⟩, ?_, he ▸ hitems⟩
    intro others hothers hprefix
    rw [← htail] at hprefix
    exact hothers.prefix_of_stuck hfits hstuck hprefix

theorem parses (hstop : r.stop ≤ r.block.size)
    (hlead : r.layout.lead = 0 ∨ r.layout.overrun = .malformedContainer) :
    r.Parses r.layout.overrun where
  accepted items := by
    constructor
    · intro hitems
      rcases items_cases hstop hlead with ⟨records, htiles, hbytes⟩ | ⟨records, _, _, _, herror⟩
      · rw [items_of_tiles hstop htiles hbytes] at hitems
        have hsame := (List.map_inj_right fun _ _ => Except.ok.inj).mp hitems
        exact ⟨records, htiles, hbytes, hsame.symm⟩
      · have hmem : .error r.layout.overrun ∈ items.map (Except.ok (ε := WireError)) := by
          rw [← hitems, herror]
          simp
        simp at hmem
    · rintro ⟨records, htiles, hbytes, rfl⟩
      exact items_of_tiles hstop htiles hbytes
  unique h hothers hsame := h.unique hothers hsame
  rejected h := (items_cases hstop hlead).resolve_left h
  counted := by
    rcases items_cases hstop hlead with ⟨records, htiles, hbytes⟩ | ⟨records, _, _, _, herror⟩
    · have hitems := items_of_tiles hstop htiles hbytes
      refine ⟨r.made r.first records, ?_, Or.inl hitems⟩
      simp [count, values, hitems, List.filterMap_map, Function.comp_def, Except.toOption]
    · refine ⟨r.made r.first records, ?_, Or.inr herror⟩
      simp [count, values, herror, List.filterMap_map, Function.comp_def, Except.toOption]

end Region

theorem Layout.make_properties {lead : Bytes} (view : AtomView) (h : lead.length = 8) :
    ∃ key context, lead = word32 key ++ word32 context ∧
      Layout.properties.make lead view = ⟨key, context, view⟩ := by
  have hkey : word32 (getWord32 lead) = lead.take 4 := word32_getWord32 (by omega)
  have hcontext : word32 (getWord32 (lead.drop 4)) = (lead.drop 4).take 4 :=
    word32_getWord32 (by rw [List.length_drop]; omega)
  have hrest : (lead.drop 4).take 4 = lead.drop 4 :=
    List.take_of_length_le (by rw [List.length_drop]; omega)
  refine ⟨getWord32 lead, getWord32 (lead.drop 4), ?_, rfl⟩
  rw [hkey, hcontext, hrest, List.take_append_drop]

theorem Layout.make_events (unit : TimeUnit) {lead : Bytes} (view : AtomView)
    (h : lead.length = 8) :
    ∃ stamp : Stamp, stamp.unit = unit ∧ lead = stamp.payload ∧
      (Layout.events unit).make lead view = ⟨stamp, view⟩ := by
  have hword : word64 (getWord64 lead) = lead := by
    rw [word64_getWord64 (Nat.le_of_eq h.symm), List.take_of_length_le (Nat.le_of_eq h)]
  refine ⟨unit.read lead, ?_, ?_, rfl⟩
  · cases unit <;> rfl
  · cases unit with
    | frames => simpa [TimeUnit.read, Stamp.payload] using hword.symm
    | beats => exact hword.symm

/-- In any block, and between any two positions in it: tuples, objects and sequences are
read as records that fill what is between the positions, in the one way there is, or else
as the longest start of it that records fill, with an error at the end. What leads the
records are the keys with their contexts and the stamps that are read. Atoms outside of
any container are read so too, up to the end of the block. -/
theorem regions_parse (s : Source) :
    (∀ first stop, stop ≤ s.size →
      (Region.mk s.block first stop (Layout.atoms .malformedContainer)).Parses
        .malformedContainer ∧
      (Region.mk s.block first stop Layout.properties).Parses .malformedContainer ∧
      ∀ unit, (Region.mk s.block first stop (Layout.events unit)).Parses .malformedContainer) ∧
    (∀ offset, (s.atoms offset).Parses .truncatedBuffer) ∧
    ∀ (lead : Bytes) (view : AtomView), lead.length = 8 →
      (∃ key context, lead = word32 key ++ word32 context ∧
        Layout.properties.make lead view = ⟨key, context, view⟩) ∧
      ∀ unit, ∃ stamp : Stamp, stamp.unit = unit ∧ lead = stamp.payload ∧
        (Layout.events unit).make lead view = ⟨stamp, view⟩ := by
  refine ⟨?_, ?_, ?_⟩
  · intro first stop hstop
    exact ⟨Region.parses hstop (Or.inl rfl), Region.parses hstop (Or.inr rfl),
      fun unit => Region.parses hstop (Or.inr rfl)⟩
  · intro offset
    exact Region.parses (Nat.le_refl _) (Or.inl rfl)
  · intro lead view hlen
    exact ⟨Layout.make_properties view hlen, fun unit => Layout.make_events unit view hlen⟩

/-- Two of the four bytes of padding are cut off, and a key leads the atom. -/
theorem regions_parse_cut :
    let lead := word32 5 ++ word32 6
    let record : Record := ⟨lead, 7, [1, 2, 3, 4], [9, 9]⟩
    let s : Source := ⟨Vocabulary.unresolved, ⟨some 0, record.bytes ++ [9, 9]⟩⟩
    let r : Region Property := ⟨s.block, 0, 22, Layout.properties⟩
    22 ≤ s.size ∧ lead.length = 8 ∧
      r.items = [.ok (Layout.properties.make lead (record.view (some 0) 0))] ∧
      ∃ key context, lead = word32 key ++ word32 context ∧
        Layout.properties.make lead (record.view (some 0) 0) =
          ⟨key, context, record.view (some 0) 0⟩ := by
  intro lead record s r
  have hsize : 22 ≤ s.size := by decide
  have hlen : lead.length = 8 := by decide
  have htiles : Tiles 8 [record] :=
    .cons ⟨rfl, by decide, by decide⟩ (fun hne => absurd rfl hne) .nil
  obtain ⟨hregions, _, hleads⟩ := regions_parse s
  have hparses := (hregions 0 22 hsize).2.1
  refine ⟨hsize, hlen, ?_, (hleads lead _ hlen).1⟩
  exact (hparses.accepted (r.made 0 [record])).mpr ⟨[record], htiles, by decide, rfl⟩

end AtomWire

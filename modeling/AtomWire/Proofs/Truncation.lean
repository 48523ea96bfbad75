import AtomWire.Proofs.Commands
import AtomWire.Proofs.Journal

/-!
# Whole atoms cut anywhere

Whole atoms stand one after another, as a writer leaves them, and only the first bytes of
them are read. Everything before the cut reads as it did. An atom read by its offset needs
its padding too, so the atom that is cut cannot be read so; an atom met on the way through
the buffer only needs its body, so it is still there if nothing but padding is missing.
-/

namespace AtomWire

set_option autoImplicit false

namespace Record

/-- Where the record of an index starts among records from 0 on; the end of all of them for
the number of records. -/
def startOf (records : List Record) (index : Nat) : Nat := (flat (records.take index)).length

variable {records : List Record} {index cut : Nat}

theorem startOf_length : startOf records records.length = (flat records).length := by
  rw [startOf, List.take_length]

theorem startOf_succ {r : Record} (h : records[index]? = some r) :
    startOf records (index + 1) = startOf records index + r.bytes.length := by
  rw [startOf, List.take_add_one, h, flat_append, List.length_append]
  simp [startOf]

theorem startOf_le_succ (records : List Record) (index : Nat) :
    startOf records index ≤ startOf records (index + 1) := by
  cases h : records[index]? with
  | none => rw [startOf, startOf, List.take_add_one, h]; simp
  | some r => rw [startOf_succ h]; exact Nat.le_add_right _ _

theorem startOf_le_length (records : List Record) (index : Nat) :
    startOf records index ≤ (flat records).length := by
  have hsplit : flat records = flat (records.take index) ++ flat (records.drop index) := by
    rw [← flat_append, List.take_append_drop]
  rw [hsplit, List.length_append]
  exact Nat.le_add_right _ _

theorem startOf_mono (records : List Record) : Monotone (startOf records) :=
  monotone_nat_of_le_succ (startOf_le_succ records)

/-- Every position in the bytes lies in one of the records. -/
theorem exists_startOf (h : cut < (flat records).length) :
    ∃ index, startOf records index ≤ cut ∧ cut < startOf records (index + 1) := by
  rw [← startOf_length] at h
  generalize records.length = count at h
  induction count with
  | zero => exact absurd h (Nat.not_lt_zero cut)
  | succ count ih =>
    by_cases hbefore : cut < startOf records count
    · exact ih hbefore
    · exact ⟨count, Nat.not_lt.mp hbefore, h⟩

theorem exists_of_startOf_lt (h : startOf records index < startOf records (index + 1)) :
    ∃ r, records[index]? = some r := by
  cases hindex : records[index]? with
  | some r => exact ⟨r, rfl⟩
  | none =>
    rw [startOf, startOf, List.take_add_one, hindex] at h
    simp at h

theorem flat_take_append {r : Record} (h : records[index]? = some r) :
    flat (records.take index) ++ r.bytes <+: flat records := by
  have hsplit : flat (records.take (index + 1)) = flat (records.take index) ++ r.bytes := by
    rw [List.take_add_one, h]
    simp
  rw [← hsplit]
  refine ⟨flat (records.drop (index + 1)), ?_⟩
  rw [← flat_append, List.take_append_drop]

theorem getElem?_place (pos : Nat) (records : List Record) (index : Nat) :
    (place pos records)[index]? = records[index]?.map (pos + startOf records index, ·) := by
  induction records generalizing pos index with
  | nil => rfl
  | cons r rest ih =>
    cases index with
    | zero => rfl
    | succ index =>
      have hstart : startOf (r :: rest) (index + 1) = r.bytes.length + startOf rest index := by
        simp [startOf]
      rw [place, List.getElem?_cons_succ, List.getElem?_cons_succ, ih, hstart, Nat.add_assoc]

end Record

theorem Source.atomAt_of_lt {s : Source} {offset : Nat} (h : s.size < s.block.paddedEnd offset) :
    s.atomAt offset = .error .truncatedBuffer := by
  simp only [atomAt, headerAt, ensure_bind, decide_eq_true_eq, if_neg (Nat.not_le_of_lt h),
    ite_self]
  rfl

section Cut

variable {memory : Option Nat} {records : List Record} {index cut : Nat} {atom : Record}

/-- The first bytes of records. -/
def cutBlock (memory : Option Nat) (records : List Record) (cut : Nat) : Block :=
  ⟨memory, (Record.flat records).take cut⟩

theorem size_cutBlock (h : cut < (Record.flat records).length) :
    (cutBlock memory records cut).size = cut :=
  List.length_take_of_le (Nat.le_of_lt h)

/-- The bytes of a record before the cut stand where they stood. -/
theorem shows_cut (hatom : records[index]? = some atom)
    (hstart : Record.startOf records index ≤ cut) :
    (cutBlock memory records cut).Shows (Record.startOf records index)
      (atom.bytes.take (cut - Record.startOf records index)) := by
  have hshow : (cutBlock memory records cut).Shows 0
      (Record.flat (records.take index) ++
        atom.bytes.take (cut - Record.startOf records index)) := by
    apply List.prefix_take_iff.mpr
    constructor
    · refine List.IsPrefix.trans ?_ (Record.flat_take_append hatom)
      exact (List.prefix_append_right_inj _).mpr (List.take_prefix _ _)
    · rw [List.length_append, List.length_take]
      unfold Record.startOf at *
      omega
  have hright := hshow.right
  rwa [Nat.zero_add] at hright

theorem shows_before (hatom : records[index]? = some atom)
    (hend : Record.startOf records (index + 1) ≤ cut) :
    (cutBlock memory records cut).Shows (Record.startOf records index) atom.bytes := by
  rw [Record.startOf_succ hatom] at hend
  have hshow : (cutBlock memory records cut).Shows _ _ := shows_cut hatom (by omega)
  rwa [List.take_of_length_le (by omega)] at hshow

/-- Either the header is cut, or it still announces the whole body. -/
theorem bodyEnd_cut (hfit : atom.Fits 0) (hatom : records[index]? = some atom)
    (hstart : Record.startOf records index ≤ cut) :
    let b := cutBlock memory records cut
    let start := Record.startOf records index
    cut < start + headerSize ∨ (b.bodyEnd start = start + headerSize + atom.body.length ∧
      b.paddedEnd start = start + atom.bytes.length) := by
  intro b start
  by_cases hheader : cut < start + headerSize
  · exact Or.inl hheader
  · have hshow : b.Shows start (headerBytes atom.type atom.body.length) := by
      refine List.IsPrefix.trans ?_ (shows_cut hatom hstart)
      apply List.prefix_take_iff.mpr
      constructor
      · rw [Record.bytes, Record.lead_eq_nil hfit]
        exact List.prefix_append _ _
      · rw [length_headerBytes]
        unfold headerSize at hheader
        omega
    have hsize : (b.sizeAt start).toNat = atom.body.length := by
      rw [sizeAt_header hshow, toNat_ofNat_of_le hfit.body_le]
    refine Or.inr ⟨by rw [Block.bodyEnd, hsize], ?_⟩
    rw [Block.paddedEnd, Block.bodyEnd, hsize, Record.length_bytes hfit]
    omega

/-- From the record that is cut on, no padding ends before the cut. -/
theorem lt_paddedEnd_cut (hfit : ∀ r ∈ records, r.Fits 0)
    (hcut : cut < Record.startOf records (index + 1)) {later : Nat} (hlater : index ≤ later) :
    cut < (cutBlock memory records cut).paddedEnd (Record.startOf records later) := by
  have hmono := Record.startOf_mono records
  have hpadded : Record.startOf records later + headerSize ≤
      (cutBlock memory records cut).paddedEnd (Record.startOf records later) := by
    simp only [Block.paddedEnd, Block.bodyEnd]
    omega
  by_cases hstart : Record.startOf records later ≤ cut
  · -- The record is the one that is cut, and its header is, or tells where it would end.
    have hend : cut < Record.startOf records (later + 1) :=
      Nat.lt_of_lt_of_le hcut (hmono (Nat.succ_le_succ hlater))
    obtain ⟨atom, hatom⟩ := Record.exists_of_startOf_lt (Nat.lt_of_le_of_lt hstart hend)
    rw [Record.startOf_succ hatom] at hend
    rcases bodyEnd_cut (hfit atom (List.mem_of_getElem? hatom)) hatom hstart with
      hheader | ⟨_, hwhole⟩
    · exact Nat.lt_of_lt_of_le hheader hpadded
    · rwa [hwhole]
  · omega

/-- The way through a cut block. -/
def cutRegion (memory : Option Nat) (records : List Record) (cut : Nat) : Region AtomView :=
  ⟨cutBlock memory records cut, 0, cut, Layout.atoms .truncatedBuffer⟩

theorem itemAt_cut_body (hfit : atom.Fits 0) (hatom : records[index]? = some atom)
    (hstart : Record.startOf records index ≤ cut)
    (hbody : cut < Record.startOf records index + headerSize + atom.body.length) :
    (cutRegion memory records cut).itemAt (Record.startOf records index) =
      .error .truncatedBuffer := by
  have hend : cut < (cutBlock memory records cut).bodyEnd (Record.startOf records index) := by
    rcases bodyEnd_cut hfit hatom hstart with hheader | ⟨hend, _⟩
    · exact Nat.lt_of_lt_of_le hheader (Nat.le_add_right _ _)
    · rwa [hend]
  have hchild : (cutBlock memory records cut).childAt (Record.startOf records index) cut
      .truncatedBuffer = .error .truncatedBuffer := Block.childAt_of_lt hend
  rw [Region.itemAt, ensure_bind]
  exact (if_pos (decide_eq_true hstart)).trans (congrArg (· >>= _) hchild)

theorem itemAt_cut_padding (hfit : atom.Fits 0) (hatom : records[index]? = some atom)
    (hbody : Record.startOf records index + headerSize + atom.body.length ≤ cut)
    (hcut : cut < Record.startOf records (index + 1)) :
    (cutRegion memory records cut).itemAt (Record.startOf records index) =
      .ok ({ atom.view memory (Record.startOf records index) with next := cut }, cut) := by
  let start := Record.startOf records index
  -- The record with what is left of its padding ends where the block does.
  let left : Record :=
    { atom with pad := atom.pad.take (cut - (start + headerSize + atom.body.length)) }
  have hlen := Record.length_bytes hfit
  rw [Record.startOf_succ hatom] at hcut
  have hpad : left.pad.length = cut - (start + headerSize + atom.body.length) := by
    apply List.length_take_of_le
    rw [hfit.length_pad]
    omega
  have htrim : left.Trimmed 0 := by
    refine ⟨hfit.length_lead, hfit.body_le, ?_⟩
    change _ ≤ padding atom.body.length
    omega
  have htotal : start + left.bytes.length = cut := by
    rw [Record.length_bytes_trimmed htrim, hpad]
    change start + (0 + headerSize + atom.body.length + _) = cut
    omega
  have hshow : (cutBlock memory records cut).Shows start left.bytes := by
    have hprefix : left.bytes <+: atom.bytes := by
      simp only [left, Record.bytes, List.prefix_append_right_inj]
      exact List.take_prefix _ _
    rw [List.prefix_iff_eq_take.mp hprefix, show left.bytes.length = cut - start by omega]
    exact shows_cut hatom (by omega)
  have hitem : (cutRegion memory records cut).itemAt start =
      .ok (left.view memory start, start + left.bytes.length) :=
    Region.itemAt_record hshow htrim (Nat.le_of_eq htotal) (Or.inr htotal)
  rw [hitem, Record.view, htotal]
  rfl

variable (memory) in
/-- What is met on the way through at the record that is cut. -/
theorem itemsFrom_cut (hfit : atom.Fits 0) (hatom : records[index]? = some atom)
    (hstart : Record.startOf records index ≤ cut)
    (hcut : cut < Record.startOf records (index + 1)) :
    let start := Record.startOf records index
    let items := (cutRegion memory records cut).itemsFrom start
    (cut = start → items = []) ∧
    (start < cut → cut < start + headerSize + atom.body.length →
      items = [.error .truncatedBuffer]) ∧
    (start + headerSize + atom.body.length ≤ cut →
      items = [.ok { atom.view memory start with next := cut }]) := by
  intro start items
  refine ⟨?_, ?_, ?_⟩
  · intro hnone
    exact Region.itemsFrom_of_le (Nat.le_of_eq hnone)
  · intro hsome hbody
    exact Region.itemsFrom_of_error hsome (itemAt_cut_body hfit hatom hstart hbody)
  · intro hbody
    have hsome : start < cut := by
      unfold headerSize at hbody
      omega
    have hrest : (cutRegion memory records cut).itemsFrom cut = [] :=
      Region.itemsFrom_of_le (Nat.le_refl cut)
    rw [← hrest]
    exact Region.itemsFrom_of_ok hsome (itemAt_cut_padding hfit hatom hbody hcut)

theorem atomAt_before (v : Vocabulary) (hfit : ∀ r ∈ records, r.Fits 0)
    (hatom : records[index]? = some atom) (hend : Record.startOf records (index + 1) ≤ cut) :
    (Source.mk v (cutBlock memory records cut)).atomAt (Record.startOf records index) =
      .ok (atom.view memory (Record.startOf records index)) :=
  Source.atomAt_record (shows_before hatom hend) (hfit atom (List.mem_of_getElem? hatom))

theorem items_cutRegion (hfit : ∀ r ∈ records, r.Fits 0)
    (hstart : Record.startOf records index ≤ cut) :
    (cutRegion memory records cut).items =
      ((Record.place 0 (records.take index)).map fun x => .ok (x.2.view memory x.1)) ++
        (cutRegion memory records cut).itemsFrom (Record.startOf records index) := by
  have hshow : (cutRegion memory records cut).block.Shows 0
      (Record.flat (records.take index)) := by
    apply List.prefix_take_iff.mpr
    refine ⟨⟨Record.flat (records.drop index), ?_⟩, hstart⟩
    rw [← Record.flat_append, List.take_append_drop]
  have hitems := Region.itemsFrom_records_append
    (fun r hr => hfit r (List.mem_of_mem_take hr)) hshow (by rwa [Nat.zero_add])
  rwa [Nat.zero_add] at hitems

end Cut

theorem Draft.exists_records {v : Vocabulary} {j : Journal} {bytes : Bytes}
    (h : Draft v [] j bytes) :
    ∃ records, (∀ r ∈ records, Record.Fits 0 r) ∧ bytes = Record.flat records := by
  cases h with
  | @base records closed hfit hclosed => exact ⟨records, fun r hr => (hfit r hr).1, rfl⟩

/-- The bytes that a writer leaves with no container open are whole atoms. -/
theorem exists_records_of_executeAll (v : Vocabulary) (zeroPadding : Bool) (buffer : Bytes)
    {ops : List Op} (hops : ∀ count, Op.reserve count ∉ ops)
    (hdepth : ((Writer.create v zeroPadding buffer).executeAll ops).2.depth = 0) :
    ∃ records, (∀ r ∈ records, Record.Fits 0 r) ∧
      ((Writer.create v zeroPadding buffer).executeAll ops).2.written = Record.flat records := by
  have hmirrors := ((Writer.Mirrors.refl _).executeAll
    (Writer.Rooted.create v zeroPadding buffer) ops).2
  have hdraft := ((Tracks.create v zeroPadding buffer).run (Op.role_ne_gap hops)).draft
  have hframes := List.length_eq_zero_iff.mp (hmirrors.depth.symm.trans hdepth)
  rw [hframes] at hdraft
  rw [hmirrors.written]
  exact hdraft.exists_records

/-- Whole atoms one after another, as they are written by any calls but bare reservations
once no container is open, are cut inside the atom of index `k`. The atoms before it are
read as ever. It and all later ones cannot be read by their offsets. On the way through
the bytes the atoms before it come first; then nothing if nothing of it is left, an error
if its body is cut, and the atom itself, ended by the cut, if only padding is missing. -/
theorem cut_anywhere :
    (∀ (v : Vocabulary) (zeroPadding : Bool) (buffer : Bytes) (ops : List Op),
      (∀ count, Op.reserve count ∉ ops) →
      let w := ((Writer.create v zeroPadding buffer).executeAll ops).2
      w.depth = 0 →
        ∃ records, (∀ r ∈ records, Record.Fits 0 r) ∧ w.written = Record.flat records) ∧
    ∀ (v : Vocabulary) (memory : Option Nat) (records : List Record) (cut : Nat),
      (∀ r ∈ records, r.Fits 0) → cut < (Record.flat records).length →
      let start := Record.startOf records
      let whole : Source := ⟨v, ⟨memory, Record.flat records⟩⟩
      let part : Source := ⟨v, ⟨memory, (Record.flat records).take cut⟩⟩
      (∃ k, start k ≤ cut ∧ cut < start (k + 1)) ∧
      ∀ k, start k ≤ cut → cut < start (k + 1) →
        (∀ j < k, ∃ view, whole.atomAt (start j) = .ok view ∧
          part.atomAt (start j) = .ok view ∧ (whole.atoms 0).items[j]? = some (.ok view)) ∧
        (∀ j ≥ k, part.atomAt (start j) = .error .truncatedBuffer) ∧
        ∃ view, whole.atomAt (start k) = .ok view ∧
          let same := (whole.atoms 0).items.take k
          let bodyEnd := start k + headerSize + view.bodySize.toNat
          (cut = start k → (part.atoms 0).items = same) ∧
          (start k < cut → cut < bodyEnd →
            (part.atoms 0).items = same ++ [.error .truncatedBuffer]) ∧
          (bodyEnd ≤ cut → (part.atoms 0).items = same ++ [.ok { view with next := cut }]) := by
  constructor
  · intro v zeroPadding buffer ops hops w hdepth
    exact exists_records_of_executeAll v zeroPadding buffer hops hdepth
  · intro v memory records cut hfit hsize start whole part
    refine ⟨Record.exists_startOf hsize, ?_⟩
    intro k hstart hcut
    have hmono := Record.startOf_mono records
    obtain ⟨atom, hatom⟩ := Record.exists_of_startOf_lt (Nat.lt_of_le_of_lt hstart hcut)
    have hatomFit : atom.Fits 0 := hfit atom (List.mem_of_getElem? hatom)
    -- All the bytes are what is left by a cut behind them.
    have hwhole : whole.block = cutBlock memory records (Record.flat records).length := by
      rw [cutBlock, List.take_length]
    have hwholeAt : ∀ {j r}, records[j]? = some r →
        whole.atomAt (start j) = .ok (r.view memory (start j)) := by
      intro j r hr
      rw [← atomAt_before v hfit hr (Record.startOf_le_length records _), ← hwhole]
    have hwholeItems : (whole.atoms 0).items =
        (Record.place 0 records).map fun x => .ok (x.2.view memory x.1) :=
      Region.itemsFrom_records hfit (List.prefix_refl _) (Nat.zero_add _).symm
    have hpartSize : part.size = cut := size_cutBlock hsize
    have hpart : part.atoms 0 = cutRegion memory records cut := by
      rw [Source.atoms, hpartSize]
      rfl
    have hsame : (whole.atoms 0).items.take k =
        (Record.place 0 (records.take k)).map fun x => .ok (x.2.view memory x.1) := by
      rw [hwholeItems, ← List.map_take, Record.place_take]
    refine ⟨?_, ?_, atom.view memory (start k), hwholeAt hatom, ?_⟩
    · intro j hj
      have hlength : k < records.length := (List.getElem?_eq_some_iff.mp hatom).1
      have hr : records[j]? = some records[j] := List.getElem?_eq_getElem (by omega)
      refine ⟨_, hwholeAt hr, ?_, ?_⟩
      · exact atomAt_before v hfit hr (Nat.le_trans (hmono hj) hstart)
      · rw [hwholeItems, List.getElem?_map, Record.getElem?_place, hr, Nat.zero_add]
        rfl
    · intro j hj
      apply Source.atomAt_of_lt
      rw [hpartSize]
      exact lt_paddedEnd_cut hfit hcut hj
    · intro same bodyEnd
      have hitems : (part.atoms 0).items =
          same ++ (cutRegion memory records cut).itemsFrom (start k) := by
        rw [hpart, items_cutRegion hfit hstart, ← hsame]
      have hend : bodyEnd = start k + headerSize + atom.body.length := by
        rw [← toNat_ofNat_of_le hatomFit.body_le]
        rfl
      obtain ⟨hnone, hbody, hpadding⟩ := itemsFrom_cut memory hatomFit hatom hstart hcut
      rw [hitems, hend]
      refine ⟨?_, ?_, ?_⟩
      · intro heq
        rw [hnone heq, List.append_nil]
      · intro hsome hlt
        rw [hbody hsome hlt]
      · intro hle
        rw [hpadding hle]

/-- The second of two atoms loses three of its four bytes of padding, then a byte of its body. -/
theorem cut_anywhere_padding :
    let first : Record := ⟨[], 5, [], []⟩
    let second : Record := ⟨[], 6, [1, 2, 3, 4], [9, 9, 9, 9]⟩
    let records := [first, second]
    let part (cut : Nat) : Source :=
      ⟨Vocabulary.unresolved, ⟨some 0, (Record.flat records).take cut⟩⟩
    (∀ r ∈ records, r.Fits 0) ∧ Record.startOf records 1 = 8 ∧ Record.startOf records 2 = 24 ∧
      ((part 21).atoms 0).items = [.ok (first.view (some 0) 0),
        .ok { second.view (some 0) 8 with next := 21 }] ∧
      (part 21).atomAt 8 = .error .truncatedBuffer ∧
      ((part 19).atoms 0).items = [.ok (first.view (some 0) 0), .error .truncatedBuffer] := by
  intro first second records part
  have hfit : ∀ r ∈ records, r.Fits 0 := by
    intro r hr
    simp only [records, List.mem_cons, List.not_mem_nil, or_false] at hr
    rcases hr with rfl | rfl
    · exact ⟨rfl, by decide, by decide⟩
    · exact ⟨rfl, by decide, by decide⟩
  have hcut := cut_anywhere.2 Vocabulary.unresolved (some 0) records
  have hview : (Source.mk Vocabulary.unresolved ⟨some 0, Record.flat records⟩).atomAt 8 =
      .ok (second.view (some 0) 8) := by cbv
  have hsame :
      ((Source.mk Vocabulary.unresolved ⟨some 0, Record.flat records⟩).atoms 0).items.take 1 =
        [.ok (first.view (some 0) 0)] := by cbv
  obtain ⟨_, hfar, view, hfound, _, _, hpadding⟩ :=
    (hcut 21 hfit (by decide)).2 1 (by decide) (by decide)
  obtain ⟨_, _, view', hfound', _, hbody, _⟩ :=
    (hcut 19 hfit (by decide)).2 1 (by decide) (by decide)
  obtain rfl : second.view (some 0) 8 = view := Except.ok.inj (hview.symm.trans hfound)
  obtain rfl : second.view (some 0) 8 = view' := Except.ok.inj (hview.symm.trans hfound')
  rw [hsame] at hpadding hbody
  refine ⟨hfit, rfl, rfl, hpadding (by decide), hfar 1 (Nat.le_refl 1), ?_⟩
  exact hbody (by decide) (by decide)

end AtomWire

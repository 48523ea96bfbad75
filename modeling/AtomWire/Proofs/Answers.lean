import AtomWire.Proofs.Probes

/-!
# Probes answer what sources answer

A probe of a view goes on only from where its body starts, if the source holds the view. A
`Window` says between which bounds that leaves it, and every question to a source is then
answered from between them, as the source answers it.
-/

namespace AtomWire

set_option autoImplicit false

/-- The last byte of a slice, and what is before it. -/
theorem terminated_slice {bytes : Bytes} {start size : Nat} (h : start + size ≤ bytes.length) :
    terminated (slice bytes start size) =
      if size ≠ 0 ∧ slice bytes (start + (size - 1)) 1 = [0] then
        .ok (slice bytes start (size - 1))
      else .error .malformedContainer := by
  have hlen := length_slice h
  have hinit : (slice bytes start size).dropLast = slice bytes start (size - 1) := by
    rw [List.dropLast_eq_take, hlen, slice, slice, List.take_take]
    congr 1
    omega
  have hlast : (slice bytes start size).getLast? = some 0 ↔
      size ≠ 0 ∧ slice bytes (start + (size - 1)) 1 = [0] := by
    rw [List.getLast?_eq_getElem?, hlen, slice_one_eq_iff, slice, List.getElem?_take,
      List.getElem?_drop]
    by_cases hsize : size = 0
    · simp [hsize]
    · simp [hsize, Nat.pos_of_ne_zero hsize]
  rw [terminated, hinit]
  exact if_congr hlast rfl rfl

namespace Probe

variable {α β : Type} {first stop : Nat}

theorem endsAs_terminated {b : Block} {start size : UInt64} (hfirst : first ≤ start.toNat)
    (hstop : start.toNat + size.toNat ≤ stop) (hblock : start.toNat + size.toNat ≤ b.size)
    (hsmall : start.toNat + size.toNat < 2 ^ 64) :
    EndsAs first stop (terminated b start size)
      (AtomWire.terminated (slice b.bytes start.toNat size.toNat)) := by
  have hone : (1 : UInt64).toNat = 1 := rfl
  rw [terminated_slice hblock, terminated]
  by_cases hsize : size.toNat = 0
  · rw [if_neg fun h => h.1 hsize]
    exact endsAs_fail (decide_eq_false fun hne => hne (UInt64.toNat_inj.mp hsize))
  · refine endsAs_pass (decide_eq_true fun h => hsize (congrArg UInt64.toNat h)) ?_
    refine endsAs_sub (by omega) fun last hlast => ?_
    refine endsAs_add (by omega) fun place hplace => ?_
    refine endsAs_load (by omega) (by omega) ?_
    rw [hplace, hlast, hone]
    by_cases hmark : slice b.bytes (start.toNat + (size.toNat - 1)) 1 = [0]
    · rw [if_pos ⟨hsize, hmark⟩]
      refine endsAs_pass (decide_eq_true hmark) ?_
      rw [← bind_pure (load b start (size.toNat - 1))]
      exact endsAs_load hfirst (by omega) (.pure _)
    · rw [if_neg fun h => hmark h.2]
      exact endsAs_fail (decide_eq_false hmark)

/-- The bounds hold the body of the view, if the source holds the view. -/
structure Window (s : Source) (view : AtomView) (first stop : Nat) : Prop where
  size_lt : s.size < 2 ^ 63
  offset_lt : view.offset < 2 ^ 64
  first_le : s.holds view = true → first ≤ view.bodyOffset
  stop_le : s.holds view = true → view.stop ≤ stop

section Sources

variable {s : Source} {view : AtomView}

/-- A probe goes on with the start of the body where a source goes on with the body. -/
theorem endsAs_bodyStart {f : UInt64 → Probe α} {g : Bytes → Except WireError α}
    (hw : Window s view first stop)
    (h : s.holds view = true → ∀ start : UInt64, start.toNat = view.bodyOffset →
      EndsAs first stop (f start)
        (g (slice s.block.bytes view.bodyOffset view.bodySize.toNat))) :
    EndsAs first stop (bodyStart s view >>= f) (s.body view >>= g) := by
  have height : (8 : UInt64).toNat = 8 := rfl
  have hsize : (UInt64.ofNat s.size).toNat = s.size := toNat_ofNat (by have := hw.size_lt; omega)
  have hoffset : (UInt64.ofNat view.offset).toNat = view.offset := toNat_ofNat hw.offset_lt
  have hwide : view.bodySize.toUInt64.toNat = view.bodySize.toNat := UInt32.toNat_toUInt64 _
  have hplace : view.bodyOffset = view.offset + 8 := rfl
  have hend : view.stop = view.bodyOffset + view.bodySize.toNat := rfl
  have hlt := hw.size_lt
  rw [bodyStart, bind_assoc]
  refine endsAs_room (fun hroom _ _ => ?_) fun hshort => ?_
  · rw [bind_assoc]
    refine endsAs_add (by omega) fun start hstart => ?_
    rw [bind_assoc]
    refine endsAs_sub (by omega) fun left hleft => ?_
    rw [bind_assoc]
    have hguard : (view.bodySize.toUInt64 ≤ left ∧
        view.body.bytes.length = view.bodySize.toNat ∧ view.body.memory = s.block.memory ∧
        view.body.start = start.toNat) ↔ s.holds view = true := by
      rw [Source.holds_iff, UInt64.le_iff_toNat_le, hwide, hleft, hsize, hstart, hoffset, height,
        ← hplace]
      refine and_congr ?_ Iff.rfl
      omega
    by_cases hheld : s.holds view = true
    · refine endsAs_pass (decide_eq_true (hguard.mpr hheld)) ?_
      rw [pure_bind, Source.body_of_holds hheld]
      exact h hheld start (by omega)
    · rw [Source.body_of_not_holds hheld]
      exact endsAs_fail (decide_eq_false (mt hguard.mp hheld))
  · rw [Source.body_of_not_holds]
    · rfl
    · rw [ne_eq, Source.holds_iff]
      omega

/-- The body of a view that the source holds lies between the bounds. -/
theorem Window.bounds (hw : Window s view first stop) (h : s.holds view = true) :
    first ≤ view.bodyOffset ∧ view.bodyOffset + view.bodySize.toNat ≤ stop ∧
      view.bodyOffset + view.bodySize.toNat ≤ s.block.size ∧ s.block.size < 2 ^ 63 :=
  ⟨hw.first_le h, hw.stop_le h, (Source.holds_iff.mp h).1, hw.size_lt⟩

theorem endsAs_scalar (hw : Window s view first stop) :
    EndsAs first stop (scalar s view) (s.scalar view) := by
  refine endsAs_bodyStart hw fun hheld start hstart => ?_
  obtain ⟨hfirst, hstop, _, _⟩ := hw.bounds hheld
  refine endsAs_ensure rfl fun _ => ?_
  refine endsAs_load (by omega) (by omega) ?_
  rw [hstart]
  exact .check _

theorem endsAs_scalarOf (hw : Window s view first stop) (kind : ScalarKind) :
    EndsAs first stop (scalarOf s kind view) (s.scalarOf kind view) :=
  (endsAs_scalar hw).bind fun value _ => endsAs_ensure rfl fun _ => .pure value

theorem endsAs_text (hw : Window s view first stop) (form : TextForm) :
    EndsAs first stop (text s form view) (s.text form view) := by
  refine endsAs_bodyStart hw fun hheld start hstart => ?_
  obtain ⟨hfirst, hstop, hblock, hsmall⟩ := hw.bounds hheld
  have hwide : view.bodySize.toUInt64.toNat = view.bodySize.toNat := UInt32.toNat_toUInt64 _
  refine (EndsAs.check _).bind fun _ _ => ?_
  rw [← hstart, ← hwide]
  exact endsAs_terminated (by omega) (by omega) (by omega) (by omega)

theorem endsAs_chunk (hw : Window s view first stop) :
    EndsAs first stop (chunk s view) (s.chunk view) := by
  refine endsAs_bodyStart hw fun hheld start hstart => ?_
  obtain ⟨hfirst, hstop, _, _⟩ := hw.bounds hheld
  refine (EndsAs.check _).bind fun _ _ => ?_
  rw [← bind_pure (load s.block start view.bodySize.toNat), ← hstart]
  exact endsAs_load (by omega) (by omega) (.pure _)

theorem endsAs_literal (hw : Window s view first stop) :
    EndsAs first stop (literal s view) (s.literal view) := by
  refine endsAs_bodyStart hw fun hheld start hstart => ?_
  obtain ⟨hfirst, hstop, hblock, hsmall⟩ := hw.bounds hheld
  have height : (8 : UInt64).toNat = 8 := rfl
  have hwide : view.bodySize.toUInt64.toNat = view.bodySize.toNat := UInt32.toNat_toUInt64 _
  refine (EndsAs.check _).bind fun _ _ => ?_
  rw [drop_slice]
  by_cases hlong : 8 < view.bodySize.toNat
  · refine endsAs_pass (decide_eq_true (UInt32.lt_iff_toNat_lt.mpr hlong)) ?_
    refine endsAs_add (by omega) fun place hplace => ?_
    refine endsAs_sub (by omega) fun rest hrest => ?_
    have htext : EndsAs first stop (terminated s.block place rest) _ :=
      endsAs_terminated (by omega) (by omega) (by omega) (by omega)
    rw [hplace, hrest, hstart, height, hwide] at htext
    refine htext.bind fun text _ => ?_
    refine endsAs_load (by omega) (by omega) ?_
    obtain ⟨hlang, hdatatype⟩ :=
      front_words s.block.bytes view.bodyOffset (Nat.le_of_lt hlong)
    rw [hstart, hlang, hdatatype]
    exact .pure _
  · have hempty : slice s.block.bytes (view.bodyOffset + 8) (view.bodySize.toNat - 8) = [] := by
      rw [Nat.sub_eq_zero_of_le (Nat.le_of_not_lt hlong)]
      exact List.take_zero
    rw [hempty]
    refine endsAs_fail (decide_eq_false ?_)
    rwa [UInt32.lt_iff_toNat_lt]

/-- The check of a type and of the room for two words in front. -/
theorem endsAs_front {f : Bytes → Probe α} {o : Except WireError α} {c : Bool} {start : UInt64}
    (hw : Window s view first stop) (hheld : s.holds view = true)
    (hstart : start.toNat = view.bodyOffset)
    (h : 8 ≤ view.bodySize.toNat →
      EndsAs first stop (f (slice s.block.bytes view.bodyOffset 8)) o) :
    EndsAs first stop
      (do
        check (ensure c .unexpectedType)
        check (ensure (8 ≤ view.bodySize) .malformedContainer)
        let front ← load s.block start 8
        f front)
      (do
        ensure c .unexpectedType
        ensure (8 ≤ (slice s.block.bytes view.bodyOffset view.bodySize.toNat).length)
          .malformedContainer
        o) := by
  obtain ⟨hfirst, hstop, _, _⟩ := hw.bounds hheld
  rw [Source.length_body hheld]
  refine endsAs_ensure rfl fun _ => ?_
  refine endsAs_ensure ?_ fun hlong => ?_
  · rw [Bool.eq_iff_iff, decide_eq_true_eq, decide_eq_true_eq, UInt32.le_iff_toNat_le]
    rfl
  have hlong := of_decide_eq_true hlong
  refine endsAs_load (by omega) (by omega) ?_
  rw [hstart]
  exact h hlong

theorem endsAs_vector (hw : Window s view first stop) :
    EndsAs first stop (vector s view) (s.vector view) := by
  rw [vector, Source.vector, Source.openAs]
  simp only [bind_assoc, pure_bind]
  refine endsAs_bodyStart hw fun hheld start hstart => ?_
  obtain ⟨hfirst, hstop, hblock, hsmall⟩ := hw.bounds hheld
  have height : (8 : UInt64).toNat = 8 := rfl
  have hwide : view.bodySize.toUInt64.toNat = view.bodySize.toNat := UInt32.toNat_toUInt64 _
  refine endsAs_front hw hheld hstart fun hlong => ?_
  obtain ⟨htype, hwidth⟩ := front_words s.block.bytes view.bodyOffset hlong
  rw [htype, hwidth, drop_slice _ _ _ 8]
  refine endsAs_add (by omega) fun place hplace => ?_
  refine endsAs_sub (by omega) fun length hlength => ?_
  have hcount : (slice s.block.bytes (view.bodyOffset + 8) (view.bodySize.toNat - 8)).length =
      length.toNat := by
    rw [length_slice (by unfold Block.size at hblock; omega), hlength, hwide, height]
  refine endsAs_ensure ?_ fun _ => ?_
  · split
    · rw [Bool.eq_iff_iff, decide_eq_true_eq, List.isEmpty_iff_length_eq_zero, hcount,
        ← UInt64.toNat_inj]
      rfl
    · rw [Bool.eq_iff_iff, decide_eq_true_eq, decide_eq_true_eq, hcount, ← UInt64.toNat_inj,
        UInt64.toNat_mod, UInt32.toNat_toUInt64]
      rfl
  · refine endsAs_load (by omega) (by omega) ?_
    rw [hplace, hlength, hstart, hwide, height]
    exact .pure _

theorem endsAs_tuple (hw : Window s view first stop) :
    EndsAs first stop (tuple s view) (s.tuple view) := by
  rw [tuple, Source.tuple, Source.openAs]
  simp only [bind_assoc, pure_bind]
  refine endsAs_bodyStart hw fun hheld start hstart => ?_
  obtain ⟨hfirst, hstop, hblock, hsmall⟩ := hw.bounds hheld
  have hwide : view.bodySize.toUInt64.toNat = view.bodySize.toNat := UInt32.toNat_toUInt64 _
  refine endsAs_ensure rfl fun _ => ?_
  refine endsAs_add (by omega) fun last hlast => ?_
  rw [hlast, hstart, hwide]
  exact .pure _

theorem endsAs_object (hw : Window s view first stop) :
    EndsAs first stop (object s view) (s.object view) := by
  refine endsAs_bodyStart hw fun hheld start hstart => ?_
  obtain ⟨hfirst, hstop, hblock, hsmall⟩ := hw.bounds hheld
  have height : (8 : UInt64).toNat = 8 := rfl
  have hwide : view.bodySize.toUInt64.toNat = view.bodySize.toNat := UInt32.toNat_toUInt64 _
  refine endsAs_front hw hheld hstart fun hlong => ?_
  obtain ⟨hid, hotype⟩ := front_words s.block.bytes view.bodyOffset hlong
  refine endsAs_add (by omega) fun place hplace => ?_
  refine endsAs_add (by omega) fun last hlast => ?_
  rw [hid, hotype, hplace, hlast, hstart, hwide, height]
  exact .pure _

theorem endsAs_sequence (hw : Window s view first stop) :
    EndsAs first stop (sequence s view) (s.sequence view) := by
  rw [sequence, Source.sequence, Source.openAs]
  simp only [bind_assoc, pure_bind]
  refine endsAs_bodyStart hw fun hheld start hstart => ?_
  obtain ⟨hfirst, hstop, hblock, hsmall⟩ := hw.bounds hheld
  have height : (8 : UInt64).toNat = 8 := rfl
  have hwide : view.bodySize.toUInt64.toNat = view.bodySize.toNat := UInt32.toNat_toUInt64 _
  refine endsAs_front hw hheld hstart fun hlong => ?_
  refine endsAs_add (by omega) fun place hplace => ?_
  refine endsAs_add (by omega) fun last hlast => ?_
  rw [(front_words s.block.bytes view.bodyOffset hlong).1, hplace, hlast, hstart, hwide, height]
  exact .pure _

theorem endsAs_headerAt (hsize : s.size < 2 ^ 63) (offset : UInt64) :
    EndsAs 0 s.size (headerAt s offset) (s.headerAt offset.toNat) := by
  have height : (8 : UInt64).toNat = 8 := rfl
  have hword : (UInt64.ofNat s.size).toNat = s.size := toNat_ofNat (by omega)
  have hwide : (s.block.sizeAt offset.toNat).toUInt64.toNat =
      (s.block.sizeAt offset.toNat).toNat := UInt32.toNat_toUInt64 _
  have hbound : (s.block.sizeAt offset.toNat).toNat < 2 ^ 32 :=
    (s.block.sizeAt offset.toNat).toNat_lt
  have hpad := padding_lt (s.block.sizeAt offset.toNat).toNat
  have hend : s.block.paddedEnd offset.toNat = offset.toNat + 8 +
      (s.block.sizeAt offset.toNat).toNat + padding (s.block.sizeAt offset.toNat).toNat := rfl
  rw [Source.headerAt]
  refine endsAs_room (fun hroom left hleft => ?_) fun hshort => ?_
  · rw [ensure_bind, if_pos (decide_eq_true (by unfold headerSize; omega))]
    refine endsAs_load (Nat.zero_le _) (by omega) ?_
    rw [(s.block.header_words offset.toNat).1, (s.block.header_words offset.toNat).2]
    refine endsAs_sub (by omega) fun rest hrest => ?_
    refine endsAs_align (by omega) fun aligned haligned => ?_
    rw [hwide] at haligned
    refine endsAs_ensure ?_ fun hfits => ?_
    · rw [Bool.eq_iff_iff, decide_eq_true_eq, decide_eq_true_eq, UInt64.le_iff_toNat_le]
      omega
    have hfits := of_decide_eq_true hfits
    refine endsAs_add (by omega) fun padded hpadded => ?_
    refine endsAs_add (by omega) fun next hnext => ?_
    have hnext' : next.toNat = s.block.paddedEnd offset.toNat := by omega
    rw [hnext']
    exact .pure _
  · rw [ensure_bind, if_neg]
    rw [decide_eq_true_eq]
    unfold headerSize
    omega

theorem endsAs_atomAt (hsize : s.size < 2 ^ 63) (offset : UInt64) :
    EndsAs 0 s.size (atomAt s offset) (s.atomAt offset.toNat) := by
  have height : (8 : UInt64).toNat = 8 := rfl
  refine (endsAs_headerAt hsize offset).bind fun header hheader => ?_
  obtain ⟨_, hrest⟩ := ensure_eq_ok_iff.mp hheader
  obtain ⟨hfits, hfound⟩ := ensure_eq_ok_iff.mp hrest
  cases hfound
  have hfits := of_decide_eq_true hfits
  have hend : s.block.paddedEnd offset.toNat = offset.toNat + 8 +
      (s.block.sizeAt offset.toNat).toNat + padding (s.block.sizeAt offset.toNat).toNat := rfl
  refine endsAs_add (by omega) fun start hstart => ?_
  have hbody : start.toNat + (s.block.sizeAt offset.toNat).toNat ≤ s.size := by omega
  refine endsAs_load (Nat.zero_le _) hbody ?_
  rw [hstart, height]
  exact .pure _

theorem inside_atoms (hsize : s.size < 2 ^ 63) (offset : UInt64) :
    (s.atoms offset.toNat).Inside 0 s.size :=
  ⟨Nat.zero_le _, offset.toNat_lt, Nat.le_refl _, hsize, Nat.zero_le _⟩

end Sources

end Probe

namespace Source

variable {s : Source} {view : AtomView} {body : Bytes}

theorem holds_of_tuple {r : Region AtomView} (h : s.tuple view = .ok r) :
    s.holds view = true ∧ r = s.regionOf view 0 (Layout.atoms .malformedContainer) := by
  obtain ⟨body, hopen, hr⟩ := bind_eq_ok_iff.mp h
  cases hr
  exact ⟨(body_eq_ok_iff.mp (openAs_eq_ok_iff.mp hopen).1).1, rfl⟩

theorem holds_of_object {o : ObjectView} (h : s.object view = .ok o) :
    s.holds view = true ∧ o.properties = s.regionOf view 8 Layout.properties := by
  obtain ⟨body, hbody, hrest⟩ := bind_eq_ok_iff.mp h
  obtain ⟨_, hrest⟩ := ensure_eq_ok_iff.mp hrest
  obtain ⟨_, ho⟩ := ensure_eq_ok_iff.mp hrest
  cases ho
  exact ⟨(body_eq_ok_iff.mp hbody).1, rfl⟩

theorem holds_of_sequence {q : SequenceView} (h : s.sequence view = .ok q) :
    s.holds view = true ∧ q.events = s.regionOf view 8 (Layout.events q.unit) := by
  obtain ⟨body, hopen, hq⟩ := bind_eq_ok_iff.mp h
  cases hq
  exact ⟨(body_eq_ok_iff.mp (openAs_eq_ok_iff.mp hopen).1).1, rfl⟩

theorem holds_of_vector {v : VectorView} (h : s.vector view = .ok v) :
    s.holds view = true ∧ 8 ≤ view.bodySize.toNat ∧
      v.elements = s.block.span (view.bodyOffset + 8) (view.bodySize.toNat - 8) := by
  obtain ⟨body, hopen, hrest⟩ := bind_eq_ok_iff.mp h
  obtain ⟨hbody, _, hlong⟩ := openAs_eq_ok_iff.mp hopen
  obtain ⟨_, hv⟩ := ensure_eq_ok_iff.mp hrest
  obtain ⟨hheld, rfl⟩ := body_eq_ok_iff.mp hbody
  cases hv
  rw [length_body hheld] at hlong
  exact ⟨hheld, hlong, by rw [Block.span, ← drop_slice]⟩

end Source

namespace Probe

variable {first stop : Nat} {s : Source} {view : AtomView}

theorem Window.inside_regionOf {α : Type} (hw : Window s view first stop)
    (hheld : s.holds view = true) {lead : Nat} {layout : Layout α} (hlead : lead ≤ 8)
    (hlayout : layout.lead ≤ 8) : (s.regionOf view lead layout).Inside first stop := by
  obtain ⟨hfirst, hstop, hblock, hsmall⟩ := hw.bounds hheld
  exact ⟨Nat.le_trans hfirst (Nat.le_add_right _ _), by simp only [Source.regionOf]; omega, hstop,
    Nat.lt_of_le_of_lt hblock hsmall, hlayout⟩

theorem Window.inside_vector {v : VectorView} (hw : Window s view first stop)
    (h : s.vector view = .ok v) : v.Inside s.block first stop := by
  obtain ⟨hheld, hlong, helements⟩ := Source.holds_of_vector h
  obtain ⟨hfirst, hstop, hblock, hsmall⟩ := hw.bounds hheld
  have hlen : (slice s.block.bytes (view.bodyOffset + 8) (view.bodySize.toNat - 8)).length =
      view.bodySize.toNat - 8 := length_slice (by unfold Block.size at hblock; omega)
  constructor <;> simp only [helements, Block.span, hlen] <;> omega

/-- A probe answers every question as the source does. -/
theorem endsAs_answer (hw : Window s view first stop) (query : Query) :
    EndsAs first stop (answer s view query) (s.answer view query) := by
  have htuple {r : Region AtomView} (h : s.tuple view = .ok r) : r.Inside first stop := by
    obtain ⟨hheld, rfl⟩ := Source.holds_of_tuple h
    exact hw.inside_regionOf hheld (by decide) (by decide)
  have hobject {o : ObjectView} (h : s.object view = .ok o) :
      o.properties.Inside first stop := by
    obtain ⟨hheld, hregion⟩ := Source.holds_of_object h
    rw [hregion]
    exact hw.inside_regionOf hheld (by decide) (by decide)
  have hsequence {q : SequenceView} (h : s.sequence view = .ok q) :
      q.events.Inside first stop := by
    obtain ⟨hheld, hregion⟩ := Source.holds_of_sequence h
    rw [hregion]
    exact hw.inside_regionOf hheld (by decide) (Nat.le_refl 8)
  cases query with
  | scalar => exact (endsAs_scalar hw).map _
  | scalarOf kind => exact (endsAs_scalarOf hw kind).map _
  | text form => exact (endsAs_text hw form).map _
  | literal => exact (endsAs_literal hw).map _
  | chunk => exact (endsAs_chunk hw).map _
  | vector => exact (endsAs_vector hw).map _
  | element index =>
    exact (endsAs_vector hw).bind fun v h => (endsAs_element (hw.inside_vector h) index).map _
  | elements =>
    exact (endsAs_vector hw).bind fun v h => (endsAs_elements (hw.inside_vector h)).map _
  | children => exact (endsAs_tuple hw).bind fun r h => (endsAs_items (htuple h)).map _
  | childCount => exact (endsAs_tuple hw).bind fun r h => (endsAs_count (htuple h)).map _
  | object => exact (endsAs_object hw).map _
  | properties => exact (endsAs_object hw).bind fun o h => (endsAs_items (hobject h)).map _
  | propertyCount => exact (endsAs_object hw).bind fun o h => (endsAs_count (hobject h)).map _
  | find key => exact (endsAs_object hw).bind fun o h => (endsAs_find (hobject h) key).map _
  | unit => exact (endsAs_sequence hw).map _
  | events => exact (endsAs_sequence hw).bind fun q h => (endsAs_items (hsequence h)).map _
  | eventCount => exact (endsAs_sequence hw).bind fun q h => (endsAs_count (hsequence h)).map _
  | firstDecrease =>
    exact (endsAs_sequence hw).bind fun q h => (endsAs_firstDecrease (hsequence h)).map _

end Probe

end AtomWire

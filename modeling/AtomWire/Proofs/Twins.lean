import AtomWire.Proofs.Surveys

/-!
# Records that differ in their padding

Twins are lists of records that are alike but for padding: leaves have the same body, and
the bodies of containers are twins again. Wherever twins stand in two blocks, surveys of
the blocks agree on them.
-/

namespace AtomWire

set_option autoImplicit false

/-- Atoms of the type hold records, each led by `width` bytes, behind as many bytes. -/
def Vocabulary.Houses (v : Vocabulary) (type : TypeId) (width : Nat) : Prop :=
  (type = v.id .tuple ∧ width = 0) ∨
    ((type = v.id .object ∨ type = v.id .sequence) ∧ width = 8)

inductive Twins (v : Vocabulary) : Nat → List Record → List Record → Prop where
  | nil {lead : Nat} : Twins v lead [] []
  | leaf {lead : Nat} {label body pad pad' : Bytes} {type : TypeId} {rest rest' : List Record}
      (hleft : Record.Fits lead ⟨label, type, body, pad⟩)
      (hright : Record.Fits lead ⟨label, type, body, pad'⟩) (hrest : Twins v lead rest rest') :
      Twins v lead (⟨label, type, body, pad⟩ :: rest) (⟨label, type, body, pad'⟩ :: rest')
  | container {lead width : Nat} {label front pad pad' : Bytes} {type : TypeId}
      {inner inner' rest rest' : List Record} (hhouses : v.Houses type width)
      (hfront : front.length = width)
      (hleft : Record.Fits lead ⟨label, type, front ++ Record.flat inner, pad⟩)
      (hright : Record.Fits lead ⟨label, type, front ++ Record.flat inner', pad'⟩)
      (hinner : Twins v width inner inner') (hrest : Twins v lead rest rest') :
      Twins v lead (⟨label, type, front ++ Record.flat inner, pad⟩ :: rest)
        (⟨label, type, front ++ Record.flat inner', pad'⟩ :: rest')

theorem Record.length_bytes_eq {lead : Nat} {r q : Record} (hr : r.Fits lead) (hq : q.Fits lead)
    (hbody : r.body.length = q.body.length) : r.bytes.length = q.bytes.length := by
  rw [length_bytes hr, length_bytes hq, hbody]

namespace Twins

variable {v : Vocabulary} {lead : Nat} {records others : List Record}

theorem fits_left (h : Twins v lead records others) : ∀ r ∈ records, r.Fits lead := by
  induction h with
  | nil => simp
  | leaf hleft _ _ ih => exact List.forall_mem_cons.mpr ⟨hleft, ih⟩
  | container _ _ hleft _ _ _ _ ih => exact List.forall_mem_cons.mpr ⟨hleft, ih⟩

theorem fits_right (h : Twins v lead records others) : ∀ r ∈ others, r.Fits lead := by
  induction h with
  | nil => simp
  | leaf _ hright _ ih => exact List.forall_mem_cons.mpr ⟨hright, ih⟩
  | container _ _ _ hright _ _ _ ih => exact List.forall_mem_cons.mpr ⟨hright, ih⟩

theorem length_flat (h : Twins v lead records others) :
    (Record.flat records).length = (Record.flat others).length := by
  induction h with
  | nil => rfl
  | leaf hleft hright _ ih =>
    rw [Record.flat_cons, Record.flat_cons, List.length_append, List.length_append, ih,
      Record.length_bytes_eq hleft hright rfl]
  | container _ _ hleft hright _ _ ihinner ih =>
    have hbody := Record.length_bytes_eq hleft hright (by simp [ihinner])
    rw [Record.flat_cons, Record.flat_cons, List.length_append, List.length_append, ih, hbody]

theorem append {more others' : List Record} (h : Twins v lead records others)
    (hmore : Twins v lead more others') : Twins v lead (records ++ more) (others ++ others') := by
  induction h with
  | nil => exact hmore
  | leaf hleft hright _ ih => exact .leaf hleft hright (ih hmore)
  | container hhouses hfront hleft hright hinner _ _ ih =>
    exact .container hhouses hfront hleft hright hinner (ih hmore)

end Twins

theorem Block.Shows.agreeOn {b c : Block} {pos : Nat} {bytes : Bytes} (hb : b.Shows pos bytes)
    (hc : c.Shows pos bytes) : b.AgreeOn c pos (pos + bytes.length) := by
  have hget : ∀ {a : Block}, a.Shows pos bytes → ∀ index < bytes.length,
      a.bytes[pos + index]? = bytes[index]? := by
    rintro a ⟨rest, hrest⟩ index hindex
    rw [← List.getElem?_drop, ← hrest, List.getElem?_append_left hindex]
  intro place hfirst hstop
  obtain ⟨index, rfl⟩ := Nat.exists_eq_add_of_le hfirst
  rw [hget hb index (by omega), hget hc index (by omega)]

/-- The surveys of records that stand in the block from the position on, with their leads. -/
def Source.surveyRecords (s : Source) (levels pos : Nat) (records : List Record) :
    List (Bytes × Survey) :=
  (Record.place pos records).map fun x =>
    (x.2.lead, s.surveyTo levels (x.2.view s.block.memory x.1))

section Container

variable {s : Source} {pos lead width : Nat} {r : Record}

theorem Vocabulary.Houses.ne_id {v : Vocabulary} {type : TypeId} (h : v.Houses type width)
    (hv : v.Resolved) (term : Term) (hterm : term ∉ [Term.tuple, .object, .sequence]) :
    type ≠ v.id term := by
  rintro rfl
  apply hterm
  rcases h with ⟨h, _⟩ | ⟨h | h, _⟩ <;> rw [hv.injective h] <;> simp

theorem Vocabulary.Houses.eq_eight {v : Vocabulary} {term : Term} (h : v.Houses (v.id term) width)
    (hv : v.Resolved) (hterm : term ≠ .tuple) : width = 8 := by
  rcases h with ⟨h, _⟩ | ⟨_, h⟩
  · exact absurd (hv.injective h) hterm
  · exact h

theorem Vocabulary.Houses.eq_zero {v : Vocabulary} (h : v.Houses (v.id .tuple) width)
    (hv : v.Resolved) : width = 0 := by
  rcases h with ⟨_, h⟩ | ⟨h | h, _⟩
  · exact h
  · exact nomatch hv.injective h
  · exact nomatch hv.injective h

theorem Source.openAs_other {term : Term} {count : Nat} (h : s.block.Shows pos r.bytes)
    (hfit : r.Fits lead) (htype : r.type ≠ s.vocabulary.id term) :
    s.openAs term count (r.view s.block.memory pos) = .error .unexpectedType := by
  rw [openAs, body_record h hfit, ok_bind, ensure_bind, Record.view_type,
    if_neg (by simpa using htype)]

theorem Source.expect_other {term : Term} (htype : r.type ≠ s.vocabulary.id term) :
    s.expect term (r.view s.block.memory pos) = .error .unexpectedType := by
  simp [expect, ensure, htype]

/-- A record that houses others is nothing but a container. -/
theorem Source.facts_container (hv : s.vocabulary.Resolved) (h : s.block.Shows pos r.bytes)
    (hfit : r.Fits lead) (hhouses : s.vocabulary.Houses r.type width) :
    s.facts (r.view s.block.memory pos) =
      ⟨r.type, UInt32.ofNat r.body.length, pos + r.lead.length, pos + r.bytes.length, none,
        .error .unexpectedType, fun _ => .error .unexpectedType, .error .unexpectedType,
        .error .unexpectedType, .error .unexpectedType⟩ := by
  have hholds : s.vocabulary.holdsAtoms r.type = true := by
    rcases hhouses with ⟨h, _⟩ | ⟨h | h, _⟩ <;> rw [h] <;>
      simp [Vocabulary.holdsAtoms, Vocabulary.isObject, hv.ne_zero]
  have hcontainer : s.vocabulary.isContainer r.type = true := by
    rcases hhouses with ⟨h, _⟩ | ⟨h | h, _⟩ <;> rw [h] <;>
      simp [Vocabulary.isContainer, hv.ne_zero]
  have hbody := body_record h hfit
  have hscalar : s.scalar (r.view s.block.memory pos) = .error .unexpectedType := by
    rw [scalar, hbody, ok_bind, Record.view_type, hcontainer]
    rfl
  have htext : ∀ form, s.text form (r.view s.block.memory pos) = .error .unexpectedType := by
    intro form
    have hform : r.type ≠ s.vocabulary.id form.term := by
      apply hhouses.ne_id hv
      cases form <;> decide
    rw [text, hbody, ok_bind, expect_other hform, error_bind]
  have hliteral : s.literal (r.view s.block.memory pos) = .error .unexpectedType := by
    rw [literal, hbody, ok_bind, expect_other (hhouses.ne_id hv .literal (by decide)), error_bind]
  have hchunk : s.chunk (r.view s.block.memory pos) = .error .unexpectedType := by
    rw [chunk, hbody, ok_bind, expect_other (hhouses.ne_id hv .chunk (by decide)), error_bind]
  have hvector : s.vector (r.view s.block.memory pos) = .error .unexpectedType := by
    rw [vector, openAs_other h hfit (hhouses.ne_id hv .vector (by decide)), error_bind]
  simp only [facts, hscalar, htext, hliteral, hchunk, hvector, Record.view_type, hholds, if_true,
    map_error]
  rfl

/-- The items of a container, asked one by one, are its records. -/
theorem Source.map_items_regionOf {α β : Type} {front : Bytes} {inner : List Record}
    (levels : Nat) (layout : Layout α) (f : α → β) (g : Bytes × Survey → β)
    (hmake : ∀ lead view, f (layout.make lead view) = g (lead, s.surveyTo levels view))
    (h : s.block.Shows pos r.bytes) (hfit : r.Fits lead)
    (hbody : r.body = front ++ Record.flat inner) (hinner : ∀ x ∈ inner, x.Fits layout.lead) :
    (s.regionOf (r.view s.block.memory pos) front.length layout).items.map (Except.map f) =
      (s.surveyRecords levels (pos + r.lead.length + headerSize + front.length) inner).map
        fun x => .ok (g x) := by
  rw [items_regionOf layout h hfit hbody hinner, surveyRecords, List.map_map, List.map_map]
  apply List.map_congr_left
  intro x _
  simp only [Function.comp_apply, map_ok, hmake]

theorem getWord32_append {x : Bytes} (h : 4 ≤ x.length) (y : Bytes) :
    getWord32 (x ++ y) = getWord32 x := by
  rw [getWord32, getWord32, List.take_append_of_le_length h]

/-- What a survey finds in a container of the type, given what stands before its records
and the surveys of these. -/
def Source.containerSurvey (s : Source) (facts : Facts) (front : Bytes)
    (inner : List (Bytes × Survey)) : Survey :=
  let unit := s.unitOf (getWord32 front)
  .full facts
    (if facts.type = s.vocabulary.id .tuple then .ok (inner.map fun x => .ok x.2)
    else .error .unexpectedType)
    (if facts.type = s.vocabulary.id .object then
      .ok (getWord32 front, getWord32 (front.drop 4),
        inner.map fun x => .ok (getWord32 x.1, getWord32 (x.1.drop 4), x.2))
    else .error .unexpectedType)
    (if facts.type = s.vocabulary.id .sequence then
      .ok (unit, inner.map fun x => .ok (unit.read x.1, x.2))
    else .error .unexpectedType)

theorem Source.surveyTo_container {front : Bytes} {inner : List Record} (levels : Nat)
    (hv : s.vocabulary.Resolved) (h : s.block.Shows pos r.bytes) (hfit : r.Fits lead)
    (hhouses : s.vocabulary.Houses r.type width) (hfront : front.length = width)
    (hbody : r.body = front ++ Record.flat inner) (hinner : ∀ x ∈ inner, x.Fits width) :
    s.surveyTo (levels + 1) (r.view s.block.memory pos) =
      s.containerSurvey (s.facts (r.view s.block.memory pos)) front
        (s.surveyRecords levels (pos + r.lead.length + headerSize + front.length) inner) := by
  rw [surveyTo, containerSurvey]
  congr 1
  · by_cases htype : r.type = s.vocabulary.id .tuple
    · obtain rfl : width = 0 := (htype ▸ hhouses).eq_zero hv
      have hitems := map_items_regionOf levels (Layout.atoms .malformedContainer)
        (s.surveyTo levels) Prod.snd (fun _ _ => rfl) h hfit hbody hinner
      rw [hfront] at hitems
      rw [tuple_record h hfit htype, map_ok, hitems, hfront]
      exact (if_pos htype).symm
    · rw [tuple, openAs_other h hfit htype, error_bind, map_error]
      exact (if_neg htype).symm
  · by_cases htype : r.type = s.vocabulary.id .object
    · obtain rfl : width = 8 := (htype ▸ hhouses).eq_eight hv (by decide)
      have hobject : s.vocabulary.isObject r.type = true := by
        simp [Vocabulary.isObject, htype, hv.ne_zero]
      have hitems := map_items_regionOf levels Layout.properties
        (fun p => (p.key, p.context, s.surveyTo levels p.value))
        (fun x => (getWord32 x.1, getWord32 (x.1.drop 4), x.2)) (fun _ _ => rfl) h hfit hbody hinner
      rw [hfront] at hitems
      have hle : 8 ≤ r.body.length := by simp [hbody, hfront]
      rw [object_record h hfit hobject hle, map_ok, hitems, hfront, hbody,
        getWord32_append (by omega), List.drop_append_of_le_length (by omega),
        getWord32_append (by simp [hfront])]
      exact (if_pos htype).symm
    · have hobject : s.vocabulary.isObject r.type = false := by
        simp [Vocabulary.isObject, htype, hhouses.ne_id hv .blank (by decide)]
      rw [object, body_record h hfit, ok_bind, Record.view_type, hobject]
      exact (if_neg htype).symm
  · by_cases htype : r.type = s.vocabulary.id .sequence
    · obtain rfl : width = 8 := (htype ▸ hhouses).eq_eight hv (by decide)
      have hitems := fun unit => map_items_regionOf levels (Layout.events unit)
        (fun e => (e.stamp, s.surveyTo levels e.value)) (fun x => (unit.read x.1, x.2))
        (fun _ _ => rfl) h hfit hbody hinner
      rw [hfront] at hitems
      have hle : 8 ≤ r.body.length := by simp [hbody, hfront]
      rw [sequence_record h hfit htype hle, map_ok, hitems, hfront, hbody,
        getWord32_append (by omega)]
      exact (if_pos htype).symm
    · rw [sequence, openAs_other h hfit htype, error_bind, map_error]
      exact (if_neg htype).symm

end Container

section Blocks

variable {s t : Source} {pos lead : Nat}

theorem Source.surveyRecords_cons (s : Source) (levels pos : Nat) (r : Record)
    (rest : List Record) :
    s.surveyRecords levels pos (r :: rest) =
      (r.lead, s.surveyTo levels (r.view s.block.memory pos)) ::
        s.surveyRecords levels (pos + r.bytes.length) rest := rfl

theorem Block.Shows.unpadded {b : Block} {r : Record} (h : b.Shows pos r.bytes) :
    b.Shows (pos + r.lead.length) (headerBytes r.type r.body.length ++ r.body) := by
  have hright := h.right
  rw [← List.append_assoc] at hright
  exact hright.left

theorem mated_leaf {label body pad pad' : Bytes} {type : TypeId}
    (hs : s.block.Shows pos (Record.bytes ⟨label, type, body, pad⟩))
    (ht : t.block.Shows pos (Record.bytes ⟨label, type, body, pad'⟩))
    (hleft : Record.Fits lead ⟨label, type, body, pad⟩)
    (hright : Record.Fits lead ⟨label, type, body, pad'⟩) :
    Mated s.block t.block (Record.view s.block.memory pos ⟨label, type, body, pad⟩)
      (Record.view t.block.memory pos ⟨label, type, body, pad'⟩) := by
  have hatom := hs.unpadded
  have hatom' := ht.unpadded
  have hne : headerBytes type body.length ++ body ≠ [] := by
    intro hnil
    simpa using congrArg List.length hnil
  have hend : s.block.bodyEnd (pos + label.length) =
      pos + label.length + (headerBytes type body.length ++ body).length := by
    rw [bodyEnd_record hs hleft.trimmed, List.length_append, length_headerBytes, Nat.add_assoc]
    rfl
  rw [← viewAt_record hs hleft.trimmed, ← viewAt_record ht hright.trimmed,
    ← Record.length_bytes_eq hleft hright rfl]
  apply mated_viewAt
  · exact hend ▸ hatom.stop_le hne
  · exact hend ▸ hatom'.stop_le hne
  · exact hend ▸ hatom.agreeOn hatom'

theorem surveyTo_twins {label front pad pad' : Bytes} {type : TypeId} {width : Nat}
    {inner inner' : List Record} (hv : s.vocabulary.Resolved) (hsame : t.vocabulary = s.vocabulary)
    (hhouses : s.vocabulary.Houses type width) (hfront : front.length = width)
    (hleft : Record.Fits lead ⟨label, type, front ++ Record.flat inner, pad⟩)
    (hright : Record.Fits lead ⟨label, type, front ++ Record.flat inner', pad'⟩)
    (hs : s.block.Shows pos (Record.bytes ⟨label, type, front ++ Record.flat inner, pad⟩))
    (ht : t.block.Shows pos (Record.bytes ⟨label, type, front ++ Record.flat inner', pad'⟩))
    (hinner : Twins s.vocabulary width inner inner') {levels : Nat}
    (hfewer : ∀ fewer < levels, ∀ start, s.block.Shows start (Record.flat inner) →
      t.block.Shows start (Record.flat inner') →
      s.surveyRecords fewer start inner = t.surveyRecords fewer start inner') :
    s.surveyTo levels (Record.view s.block.memory pos
        ⟨label, type, front ++ Record.flat inner, pad⟩) =
      t.surveyTo levels (Record.view t.block.memory pos
        ⟨label, type, front ++ Record.flat inner', pad'⟩) := by
  have hbody : (front ++ Record.flat inner).length = (front ++ Record.flat inner').length := by
    simp [hinner.length_flat]
  have hhouses' : t.vocabulary.Houses type width := hsame.symm ▸ hhouses
  have hv' : t.vocabulary.Resolved := hsame.symm ▸ hv
  have hfacts : s.facts (Record.view s.block.memory pos
        ⟨label, type, front ++ Record.flat inner, pad⟩) =
      t.facts (Record.view t.block.memory pos
        ⟨label, type, front ++ Record.flat inner', pad'⟩) := by
    rw [Source.facts_container hv hs hleft hhouses, Source.facts_container hv' ht hright hhouses',
      Record.length_bytes_eq hleft hright hbody, hbody]
  cases levels with
  | zero => rw [Source.surveyTo, Source.surveyTo, hfacts]
  | succ fewer =>
    have hstart := hs.right.right.left.right
    have hstart' := ht.right.right.left.right
    rw [length_headerBytes] at hstart hstart'
    have hrecords := hfewer fewer (Nat.lt_succ_self _) _ hstart hstart'
    have hsurvey : t.containerSurvey = s.containerSurvey := by
      funext facts front inner
      rw [Source.containerSurvey, Source.containerSurvey, Source.unitOf_congr hsame, hsame]
    rw [Source.surveyTo_container fewer hv hs hleft hhouses hfront rfl hinner.fits_left,
      Source.surveyTo_container fewer hv' ht hright hhouses' hfront rfl hinner.fits_right, hfacts,
      hsurvey]
    exact congrArg _ hrecords

theorem Source.surveysTo_records (levels : Nat) {records : List Record}
    (h : s.block.bytes = Record.flat records) (hfit : ∀ r ∈ records, r.Fits 0) :
    s.surveysTo levels = (s.surveyRecords levels 0 records).map fun x => .ok x.2 := by
  have hshow : s.block.Shows 0 (Record.flat records) := by simp [Block.Shows, h]
  have hstop : (s.atoms 0).stop = 0 + (Record.flat records).length := by
    simp [Source.atoms, Source.size, Block.size, h]
  have hitems : (s.atoms 0).items = (Record.place 0 records).map fun x =>
      .ok (x.2.view s.block.memory x.1) := Region.itemsFrom_records hfit hshow hstop
  rw [surveysTo, surveyRecords, hitems, List.map_map, List.map_map]
  rfl

end Blocks

namespace Twins

variable {s t : Source} {lead : Nat} {records others : List Record}

/-- Surveys agree on twins. -/
theorem surveyRecords_eq (hv : s.vocabulary.Resolved) (hsame : t.vocabulary = s.vocabulary)
    (levels : Nat) (h : Twins s.vocabulary lead records others) {pos : Nat}
    (hs : s.block.Shows pos (Record.flat records)) (ht : t.block.Shows pos (Record.flat others)) :
    s.surveyRecords levels pos records = t.surveyRecords levels pos others := by
  induction levels using Nat.strongRecOn generalizing lead records others pos with
  | ind levels ihlevels =>
    induction h generalizing pos with
    | nil => rfl
    | leaf hleft hright _ ih =>
      rw [Record.flat_cons] at hs ht
      have hhead := (mated_leaf hs.left ht.left hleft hright).surveyTo_eq hsame levels
      have hlen := Record.length_bytes_eq hleft hright rfl
      rw [Source.surveyRecords_cons, Source.surveyRecords_cons, hhead, ← hlen,
        ih hs.right (hlen ▸ ht.right)]
    | container hhouses hfront hleft hright hinner _ _ ih =>
      rw [Record.flat_cons] at hs ht
      have hhead := surveyTo_twins hv hsame hhouses hfront hleft hright hs.left ht.left hinner
        fun fewer hlt _ => ihlevels fewer hlt hinner
      have hlen := Record.length_bytes_eq hleft hright (by simp [hinner.length_flat])
      rw [Source.surveyRecords_cons, Source.surveyRecords_cons, hhead, ← hlen,
        ih hs.right (hlen ▸ ht.right)]

/-- Surveys of sources that hold twins and nothing else agree. -/
theorem surveysTo_eq (hv : s.vocabulary.Resolved) (hsame : t.vocabulary = s.vocabulary)
    (h : Twins s.vocabulary 0 records others) (hs : s.block.bytes = Record.flat records)
    (ht : t.block.bytes = Record.flat others) (levels : Nat) :
    s.surveysTo levels = t.surveysTo levels := by
  have hrecords : s.surveyRecords levels 0 records = t.surveyRecords levels 0 others :=
    h.surveyRecords_eq hv hsame levels (by simp [Block.Shows, hs]) (by simp [Block.Shows, ht])
  rw [Source.surveysTo_records levels hs h.fits_left,
    Source.surveysTo_records levels ht h.fits_right, hrecords]

end Twins

end AtomWire

import Mathlib.Data.List.Forall2
import AtomWire.Proofs.Payloads
import AtomWire.Proofs.Spelling

/-!
# Trees read back

`Source.treeTo` reads an atom by its type, containers with all that is in them, down to a
fixed number of levels. Over what a writer has made of some trees it gives these trees.
-/

namespace AtomWire

set_option autoImplicit false

namespace Source

/-- One level of a tree, given how the atoms below are read. -/
def treeWith (s : Source) (inner : AtomView → Except WireError Tree) (view : AtomView) :
    Except WireError Tree :=
  match s.vocabulary.shape view.type with
  | .tuple => do
    let region ← s.tuple view
    let items ← region.items.mapM fun item => item >>= inner
    return .tuple items
  | .object => do
    let found ← s.object view
    let properties ← found.properties.items.mapM fun item => do
      let p ← item
      let value ← inner p.value
      return (p.key, p.context, value)
    return .object found.id found.otype properties
  | .sequence => do
    let found ← s.sequence view
    let events ← found.events.items.mapM fun item => do
      let e ← item
      let value ← inner e.value
      return (e.stamp, value)
    return .sequence found.unit events
  | .vector => do
    let found ← s.vector view
    return .vector found.childType found.width found.items
  | .text form => do
    let content ← s.text form view
    return .text form content
  | .literal => do
    let found ← s.literal view
    return .literal found.text found.lang found.datatype
  | .scalar => do
    let x ← s.scalar view
    return .scalar x
  | .chunk => do
    let body ← s.chunk view
    return .chunk body
  | .raw => do
    let body ← s.body view
    return .atom view.type body

/-- The tree of an atom; what is nested deeper than `levels` is refused. -/
def treeTo (s : Source) : Nat → AtomView → Except WireError Tree
  | 0, _ => .error .frameOverflow
  | levels + 1, view => s.treeWith (s.treeTo levels) view

end Source

theorem Stamp.read_payload (time : Stamp) : time.unit.read time.payload = time := by
  cases time <;> simp [unit, payload, TimeUnit.read]

theorem terminated_append (content : Bytes) : terminated (content ++ [0]) = .ok content := by
  simp [terminated]

namespace Vocabulary.Resolved

variable {v : Vocabulary}

theorem isContainer_scalarType (hv : v.Resolved) (kind : ScalarKind) :
    v.isContainer (v.scalarType kind) = false := by
  cases kind <;> simp [isContainer, scalarType, ScalarKind.term, hv.id_eq_iff]

theorem shape_scalar (hv : v.Resolved) (kind : ScalarKind) :
    v.shape (v.scalarType kind) = .scalar := by
  have hsome : (v.scalarKind? (v.scalarType kind)).isSome = true := by
    rw [hv.scalarKind?_eq_some_iff.mpr rfl]
    rfl
  cases kind <;>
    simp [shape, isObject, hsome] <;> simp [scalarType, ScalarKind.term, hv.id_eq_iff]

theorem scalarKind?_eq_none (hv : v.Resolved) {term : Term}
    (h : ∀ kind, ScalarKind.term kind ≠ term) : v.scalarKind? (v.id term) = none := by
  cases hkind : v.scalarKind? (v.id term) with
  | none => rfl
  | some kind => exact absurd (hv.injective (hv.scalarKind?_eq_some_iff.mp hkind)).symm (h kind)

end Vocabulary.Resolved

def Tree.shape : Tree → Shape
  | scalar _ => .scalar
  | text form _ => .text form
  | literal _ _ _ => .literal
  | chunk _ => .chunk
  | atom _ _ => .raw
  | vector _ _ _ => .vector
  | tuple _ => .tuple
  | object _ _ _ => .object
  | sequence _ _ => .sequence

/-- The type of a tree tells its shape. -/
theorem Tree.shape_type {v : Vocabulary} (hv : v.Resolved) {t : Tree}
    (hproper : t.isProper v = true) : v.shape (t.type v) = t.shape := by
  cases t with
  | scalar x => exact hv.shape_scalar x.kind
  | text form content =>
    cases form <;>
      simp [Tree.type, Tree.shape, Vocabulary.shape, Vocabulary.isObject, hv.id_eq_iff,
        TextForm.term]
  | chunk body =>
    have hchunk : v.scalarKind? (v.id .chunk) = none :=
      hv.scalarKind?_eq_none fun kind => by cases kind <;> simp [ScalarKind.term]
    simp [Tree.type, Tree.shape, Vocabulary.shape, Vocabulary.isObject, hv.id_eq_iff, hchunk]
  | atom type body =>
    obtain ⟨_, hraw⟩ : type ≠ 0 ∧ v.shape type = .raw := by simpa [isProper] using hproper
    exact hraw
  | _ =>
    simp [Tree.type, Tree.shape, Vocabulary.shape, Vocabulary.isObject, hv.id_eq_iff, hv.ne_zero]

section Elements

variable {elements : List Bytes}

theorem length_flatten {width : Nat} (hlen : ∀ element ∈ elements, element.length = width) :
    elements.flatten.length = elements.length * width := by
  induction elements with
  | nil => simp
  | cons element rest ih =>
    have hrest := ih fun x hx => hlen x (List.mem_cons_of_mem element hx)
    rw [List.flatten_cons, List.length_append, hrest, hlen element List.mem_cons_self,
      List.length_cons, Nat.succ_mul, Nat.add_comm]

theorem slice_flatten {width i : Nat} (hlen : ∀ element ∈ elements, element.length = width)
    (hi : i < elements.length) :
    slice elements.flatten (i * width) width = elements.get ⟨i, hi⟩ := by
  induction elements generalizing i with
  | nil => cases hi
  | cons element rest ih =>
    have hhead := hlen element List.mem_cons_self
    rw [List.flatten_cons]
    cases i with
    | zero => simp [slice, ← hhead]
    | succ i =>
      have hrest := ih (fun x hx => hlen x (List.mem_cons_of_mem element hx))
        (Nat.lt_of_succ_lt_succ hi)
      have hdrop : (element ++ rest.flatten).drop ((i + 1) * width) =
          rest.flatten.drop (i * width) := by
        rw [Nat.succ_mul, Nat.add_comm, ← List.drop_drop, List.drop_left' hhead]
      rw [slice, hdrop]
      exact hrest

theorem VectorView.items_eq (found : VectorView) (hwidth : found.width ≠ 0)
    (hbytes : found.elements.bytes = elements.flatten)
    (hlen : ∀ element ∈ elements, element.length = found.width.toNat)
    (hbody : elements.flatten.length ≤ maxBody) : found.items = elements := by
  have hpos : 0 < found.width.toNat := Nat.pos_of_ne_zero fun hzero =>
    hwidth (UInt32.toNat_inj.mp (by simpa using hzero))
  have hflat := length_flatten hlen
  have hsize : found.size = elements.length := by
    rw [size, hbytes, hflat, Nat.mul_div_cancel _ hpos]
  have hlook : ∀ i (hi : i < elements.length),
      found.look (UInt64.ofNat i) = elements.get ⟨i, hi⟩ := by
    intro i hi
    -- The positions stay far below the wrap of 64-bit words.
    have hstop : i * found.width.toNat + found.width.toNat ≤ elements.flatten.length := by
      rw [hflat, ← Nat.succ_mul]
      exact Nat.mul_le_mul_right _ hi
    have hi64 : i < 2 ^ 64 := by
      have hle : i ≤ i * found.width.toNat := Nat.le_mul_of_pos_right i hpos
      unfold maxBody at hbody
      omega
    have hstart : (UInt64.ofNat i * found.width.toUInt64).toNat = i * found.width.toNat := by
      rw [UInt64.toNat_mul, UInt64.toNat_ofNat_of_lt' hi64, UInt32.toNat_toUInt64]
      apply Nat.mod_eq_of_lt
      unfold maxBody at hbody
      omega
    have hend : (UInt64.ofNat i * found.width.toUInt64 + found.width.toUInt64).toNat =
        i * found.width.toNat + found.width.toNat := by
      rw [UInt64.toNat_add, hstart, UInt32.toNat_toUInt64]
      apply Nat.mod_eq_of_lt
      unfold maxBody at hbody
      omega
    have hshown : ¬ (found.width = 0 ∨ found.elements.bytes.length <
        (UInt64.ofNat i * found.width.toUInt64 + found.width.toUInt64).toNat) := by
      rw [hend, hbytes]
      rintro (hzero | hshort)
      · exact hwidth hzero
      · omega
    simp only [look, if_neg hshown]
    rw [hstart, hbytes]
    exact slice_flatten hlen hi
  rw [items, hsize]
  apply List.ext_getElem
  · simp
  · intro i _ hi
    simpa using hlook i hi

end Elements

namespace Source

variable {s : Source} {pos lead : Nat} {r : Record}

theorem scalar_record {x : Scalar} (hv : s.vocabulary.Resolved) (h : s.block.Shows pos r.bytes)
    (hfit : r.Fits lead) (htype : r.type = s.vocabulary.scalarType x.kind)
    (hbody : r.body = x.payload) : s.scalar (r.view s.block.memory pos) = .ok x := by
  have hkind : s.vocabulary.scalarKind? (s.vocabulary.scalarType x.kind) = some x.kind :=
    hv.scalarKind?_eq_some_iff.mpr rfl
  rw [scalar, body_record h hfit, ok_bind, ensure_bind, Record.view_type, htype,
    hv.isContainer_scalarType, hbody]
  simp [Vocabulary.decode, hkind, x.length_payload, x.read_payload]

theorem expect_record {term : Term} (hid : s.vocabulary.id term ≠ 0)
    (htype : r.type = s.vocabulary.id term) :
    s.expect term (r.view s.block.memory pos) = .ok () := by
  simp [expect, ensure, hid, htype]

theorem text_record {form : TextForm} {content : Bytes}
    (hid : s.vocabulary.id form.term ≠ 0) (h : s.block.Shows pos r.bytes) (hfit : r.Fits lead)
    (htype : r.type = s.vocabulary.id form.term) (hbody : r.body = content ++ [0]) :
    s.text form (r.view s.block.memory pos) = .ok content := by
  rw [text, body_record h hfit, ok_bind, expect_record hid htype, ok_bind, hbody,
    terminated_append]

theorem literal_record {content : Bytes} {lang datatype : TypeId} (hv : s.vocabulary.Resolved)
    (h : s.block.Shows pos r.bytes) (hfit : r.Fits lead)
    (htype : r.type = s.vocabulary.id .literal)
    (hbody : r.body = word32 lang ++ word32 datatype ++ content ++ [0]) :
    s.literal (r.view s.block.memory pos) = .ok ⟨lang, datatype, content⟩ := by
  have hwords : r.body = word32 lang ++ (word32 datatype ++ (content ++ [0])) := by simp [hbody]
  have hdrop : r.body.drop 4 = word32 datatype ++ (content ++ [0]) := by
    rw [hwords, List.drop_left' (length_word32 lang)]
  have htext : r.body.drop 8 = content ++ [0] := by
    rw [show 8 = 4 + 4 from rfl, ← List.drop_drop, hdrop, List.drop_left' (length_word32 datatype)]
  rw [literal, body_record h hfit, ok_bind, expect_record (hv.ne_zero _) htype, ok_bind, htext,
    terminated_append, ok_bind, hdrop, hwords, getWord32_word32_append, getWord32_word32_append]
  rfl

theorem chunk_record (hv : s.vocabulary.Resolved) (h : s.block.Shows pos r.bytes)
    (hfit : r.Fits lead) (htype : r.type = s.vocabulary.id .chunk) :
    s.chunk (r.view s.block.memory pos) = .ok r.body := by
  rw [chunk, body_record h hfit, ok_bind, expect_record (hv.ne_zero _) htype]
  rfl

theorem unitOf_id (hv : s.vocabulary.Resolved) (unit : TimeUnit) :
    s.unitOf (s.vocabulary.id unit.term) = unit := by
  cases unit <;> simp [unitOf, TimeUnit.term, hv.id_eq_iff, hv.ne_zero]

end Source

theorem mapM_eq_ok {α β : Type} {f : α → Except WireError β} {xs : List α} {ys : List β}
    (h : List.Forall₂ (fun x y => f x = .ok y) xs ys) : xs.mapM f = .ok ys := by
  induction h with
  | nil => rfl
  | cons hhead _ ih =>
    rw [List.mapM_cons, hhead, ok_bind, ih]
    rfl

/-- The records with their positions read back as the branches, one by one. -/
def ReadsBack (s : Source) (levels : Nat) : List (Nat × Record) → List Branch → Prop :=
  List.Forall₂ fun x b =>
    x.2.lead = b.1.bytes ∧ s.treeTo levels (x.2.view s.block.memory x.1) = .ok b.2

/-- Reading the items of a region gives back what the branches were made of. -/
theorem ReadsBack.mapM {α β : Type} {s : Source} {levels : Nat} {placed : List (Nat × Record)}
    {xs : List β} {toBranch : β → Branch} (h : ReadsBack s levels placed (xs.map toBranch))
    (make : Bytes → AtomView → α) (read : Except WireError α → Except WireError β)
    (hread : ∀ x ∈ xs, ∀ view, s.treeTo levels view = .ok (toBranch x).2 →
      read (.ok (make (toBranch x).1.bytes view)) = .ok x) :
    (placed.map fun x => .ok (make x.2.lead (x.2.view s.block.memory x.1))).mapM read = .ok xs := by
  apply mapM_eq_ok
  rw [List.forall₂_map_left_iff]
  refine List.forall₂_iff_zip.mpr ⟨?_, ?_⟩
  · simpa using h.length_eq
  · intro x y hxy
    obtain ⟨hlead, htree⟩ := (List.forall₂_iff_zip.mp (List.forall₂_map_right_iff.mp h)).2 hxy
    rw [hlead]
    exact hread y (List.of_mem_zip hxy).2 _ htree

section Read

variable {s : Source} {t : Tree} {r : Record} {inner : List Record} {pos lead levels : Nat}

/-- A record reads back as its tree if the records in it read back as its branches. -/
theorem treeTo_record (hv : s.vocabulary.Resolved) (hshow : s.block.Shows pos r.bytes)
    (hfit : r.Fits lead) (htype : r.type = t.type s.vocabulary)
    (hbody : r.body = t.front s.vocabulary ++ Record.flat inner)
    (hproper : t.isProper s.vocabulary = true)
    (hinner : ∀ x ∈ inner, x.Fits t.lead)
    (hback : ReadsBack s levels
      (Record.place (pos + r.lead.length + headerSize + (t.front s.vocabulary).length) inner)
      t.branches) :
    s.treeTo (levels + 1) (r.view s.block.memory pos) = .ok t := by
  have hleaf : t.branches = [] → r.body = t.front s.vocabulary := by
    intro hbranches
    rw [hbranches] at hback
    have hlen := congrArg List.length (List.forall₂_nil_right_iff.mp hback)
    rw [Record.length_place] at hlen
    rw [hbody, List.length_eq_zero_iff.mp hlen, Record.flat_nil, List.append_nil]
  rw [Source.treeTo, Source.treeWith, Record.view_type, htype, Tree.shape_type hv hproper]
  cases t with
  | scalar x =>
    simp only [Tree.shape, Source.scalar_record hv hshow hfit htype (hleaf rfl), ok_bind]
    rfl
  | text form content =>
    simp only [Tree.shape, Source.text_record (hv.ne_zero _) hshow hfit htype (hleaf rfl), ok_bind]
    rfl
  | literal content lang datatype =>
    simp only [Tree.shape, Source.literal_record hv hshow hfit htype (hleaf rfl), ok_bind]
    rfl
  | chunk body =>
    simp only [Tree.shape, Source.chunk_record hv hshow hfit htype, ok_bind, hleaf rfl]
    rfl
  | atom type body =>
    simp only [Tree.shape, Source.body_record hshow hfit, ok_bind, hleaf rfl]
    rfl
  | vector childType width elements =>
    obtain ⟨_, hwidth, hlen⟩ : childType ≠ 0 ∧ width ≠ 0 ∧
        ∀ element ∈ elements, element.length = width.toNat := by
      simpa [Tree.isProper] using hproper
    have hwords : r.body = word32 childType ++ (word32 width ++ elements.flatten) := by
      rw [hleaf rfl, Tree.front, List.append_assoc]
    obtain ⟨span, hopen, hspan⟩ := Source.vector_record hshow hfit htype hwords
      (by simp [hwidth, length_flatten hlen])
    have hle : elements.flatten.length ≤ maxBody := by
      have hle := hfit.body_le
      rw [hwords] at hle
      simp only [List.length_append] at hle
      omega
    have hitems := VectorView.items_eq ⟨childType, width, span⟩ hwidth hspan hlen hle
    simp only [Tree.shape, hopen, ok_bind, hitems]
    rfl
  | tuple items =>
    have hitems := Source.items_regionOf (Layout.atoms .malformedContainer) hshow hfit hbody hinner
    have hread := ReadsBack.mapM hback (Layout.atoms .malformedContainer).make
      (fun item => item >>= s.treeTo levels) (fun _ _ _ hview => hview)
    rw [← hitems] at hread
    simp only [Tree.shape, Source.tuple_record hshow hfit htype, ok_bind]
    exact congrArg (· >>= _) hread
  | object id otype properties =>
    have hwords : r.body = word32 id ++ (word32 otype ++ Record.flat inner) := by
      rw [hbody, Tree.front, List.append_assoc]
    have hdrop : r.body.drop 4 = word32 otype ++ Record.flat inner := by
      rw [hwords, List.drop_left' (length_word32 id)]
    have hobject : s.vocabulary.isObject r.type = true := by
      simp [Vocabulary.isObject, htype, Tree.type, hv.ne_zero]
    have hitems := Source.items_regionOf Layout.properties hshow hfit hbody hinner
    have hread := ReadsBack.mapM hback Layout.properties.make
      (fun item => do
        let p ← item
        let value ← s.treeTo levels p.value
        return (p.key, p.context, value)) (by
      intro p _ view hview
      simp [Layout.properties, Label.bytes, hview, List.drop_left' (length_word32 p.1)])
    rw [← hitems] at hread
    simp only [Tree.shape, Source.object_record hshow hfit hobject (by simp [hwords]; omega),
      ok_bind, hdrop]
    rw [hwords, getWord32_word32_append, getWord32_word32_append]
    exact congrArg (· >>= _) hread
  | sequence unit events =>
    have hwords : r.body = word32 (s.vocabulary.id unit.term) ++
        (word32 0 ++ Record.flat inner) := by
      rw [hbody, Tree.front, List.append_assoc]
    have hunits : ∀ e ∈ events, e.1.unit = unit := by simpa [Tree.isProper] using hproper
    have hunit : s.unitOf (getWord32 r.body) = unit := by
      rw [hwords, getWord32_word32_append, Source.unitOf_id hv]
    have hitems := Source.items_regionOf (Layout.events unit) hshow hfit hbody hinner
    have hread := ReadsBack.mapM hback (Layout.events unit).make
      (fun item => do
        let e ← item
        let value ← s.treeTo levels e.value
        return (e.stamp, value)) (by
      intro e he view hview
      simp [Layout.events, Label.bytes, hview, ← hunits e he, Stamp.read_payload])
    rw [← hitems] at hread
    simp only [Tree.shape, Source.sequence_record hshow hfit htype (by simp [hwords]; omega),
      ok_bind, hunit]
    exact congrArg (· >>= _) hread

end Read

section Spelled

variable {v : Vocabulary} {zero : Bool} {branches : List Branch} {records : List Record}

theorem Tree.body_le_of_isSound {t : Tree} (h : t.all (isSound v) = true) :
    (t.body v).length ≤ maxBody := by
  have htree := (all_iff.mp h).1
  simp only [isSound, Bool.and_eq_true, decide_eq_true_eq] at htree
  exact htree.2

theorem Tree.record_fits {t : Tree} {inner : List Record} {pad : Bytes} (lead : Bytes)
    (hinner : Spelled v zero t.branches inner)
    (hpad : IsPadding zero (padding (t.front v ++ Record.flat inner).length) pad)
    (hle : (t.body v).length ≤ maxBody) :
    Record.Fits lead.length ⟨lead, t.type v, t.front v ++ Record.flat inner, pad⟩ :=
  ⟨rfl, Nat.le_trans (Nat.le_of_eq (length_body hinner.length_flat)) hle, hpad.1⟩

theorem Spelled.fits {lead : Nat} (h : Spelled v zero branches records)
    (hle : ∀ b ∈ branches, (b.2.body v).length ≤ maxBody)
    (hlead : ∀ b ∈ branches, b.1.bytes.length = lead) : ∀ x ∈ records, x.Fits lead := by
  induction h with
  | nil => simp
  | @cons label t rest inner records pad hinner hpad hrest ihInner ihRest =>
    intro x hx
    rcases List.mem_cons.mp hx with rfl | hx
    · rw [← hlead (label, t) List.mem_cons_self]
      exact Tree.record_fits label.bytes hinner hpad (hle (label, t) List.mem_cons_self)
    · exact ihRest (fun b hb => hle b (List.mem_cons_of_mem _ hb))
        (fun b hb => hlead b (List.mem_cons_of_mem _ hb)) x hx

/-- Records that stand in a source read back as the branches they spell. -/
theorem Spelled.readsBack {s : Source} {pos levels : Nat} (hv : s.vocabulary.Resolved)
    (h : Spelled s.vocabulary zero branches records)
    (hsound : ∀ b ∈ branches, b.2.all (Tree.isSound s.vocabulary) = true)
    (hdepth : ∀ b ∈ branches, b.2.depth < levels)
    (hshow : s.block.Shows pos (Record.flat records)) :
    ReadsBack s levels (Record.place pos records) branches := by
  induction h generalizing pos levels with
  | nil => exact .nil
  | @cons label t rest inner records pad hinner hpad hrest ihInner ihRest =>
    have hlt := hdepth (label, t) List.mem_cons_self
    obtain ⟨below, rfl⟩ : ∃ below, levels = below + 1 := ⟨levels - 1, by omega⟩
    obtain ⟨htree, hbranches⟩ := Tree.all_iff.mp (hsound (label, t) List.mem_cons_self)
    have hproper : t.isProper s.vocabulary = true := (Bool.and_eq_true_iff.mp htree).1
    have hfit := Tree.record_fits label.bytes hinner hpad
      (Tree.body_le_of_isSound (hsound (label, t) List.mem_cons_self))
    rw [Record.flat_cons] at hshow
    have hinside := hshow.left.right.right.left
    rw [length_headerBytes] at hinside
    -- What is inside is read with one level less, and is nested one level less.
    have hbelow : ∀ b ∈ t.branches, b.2.depth < below := by
      intro b hb
      have hless := Tree.depth_lt_of_mem_branches hb
      change t.depth < below + 1 at hlt
      omega
    have hback := ihInner hbranches hbelow hinside.right
    refine .cons ⟨rfl, ?_⟩ ?_
    · exact treeTo_record hv hshow.left hfit rfl rfl hproper
        (hinner.fits (fun b hb => Tree.body_le_of_isSound (hbranches b hb))
          fun b hb => Tree.length_label hb) hback
    · exact ihRest (fun b hb => hsound b (List.mem_cons_of_mem _ hb))
        (fun b hb => hdepth b (List.mem_cons_of_mem _ hb)) hshow.right

/-- A source that holds the records of some trees and nothing else reads back as the trees. -/
theorem Spelled.read_forest {s : Source} {forest : List Tree} {levels : Nat}
    (hv : s.vocabulary.Resolved)
    (h : Spelled s.vocabulary zero (forest.map fun item => (.bare, item)) records)
    (hsound : ∀ item ∈ forest, item.all (Tree.isSound s.vocabulary) = true)
    (hdepth : ∀ item ∈ forest, item.depth < levels)
    (hbytes : s.block.bytes = Record.flat records) :
    (s.atoms 0).items.length = forest.length ∧
      ((s.atoms 0).items.mapM fun item => item >>= s.treeTo levels) = .ok forest := by
  have hsound' : ∀ b ∈ forest.map fun item => ((.bare, item) : Branch),
      b.2.all (Tree.isSound s.vocabulary) = true := List.forall_mem_map.mpr hsound
  have hshow : s.block.Shows 0 (Record.flat records) := by simp [Block.Shows, hbytes]
  have hfit : ∀ x ∈ records, x.Fits 0 :=
    h.fits (fun b hb => Tree.body_le_of_isSound (hsound' b hb)) (by simp [Label.bytes])
  have hstop : (s.atoms 0).stop = 0 + (Record.flat records).length := by
    simp [Source.atoms, Source.size, Block.size, hbytes]
  have hitems : (s.atoms 0).items = _ := Region.itemsFrom_records hfit hshow hstop
  have hback := h.readsBack hv hsound' (List.forall_mem_map.mpr hdepth) hshow
  have hread := hback.mapM (s.atoms 0).layout.make (fun item => item >>= s.treeTo levels)
    (fun _ _ _ hview => hview)
  rw [hitems]
  refine ⟨?_, hread⟩
  simpa using hback.length_eq

end Spelled

theorem Writer.create_spells {v : Vocabulary} (hv : v.Resolved) (zeroPadding : Bool)
    {buffer : Bytes} {forest : List Tree}
    (hsound : ∀ item ∈ forest, item.all (Tree.isSound v) = true)
    (hdepth : Tree.itemsDepth forest ≤ maxDepth)
    (hroom : (Tree.encodeItems v forest).length ≤ buffer.length) :
    ∃ records w, Spelled v zeroPadding (forest.map fun item => (.bare, item)) records ∧
      (create v zeroPadding buffer).Accepts (Tree.itemOps forest) w ∧ w.depth = 0 ∧
      w.written = Record.flat records := by
  rw [Tree.encodeItems_eq] at hroom
  have hdepths : ∀ item ∈ forest, (create v zeroPadding buffer).depth + item.depth ≤ maxDepth := by
    intro item hitem
    have hle := Tree.depth_le_itemsDepth hitem
    change 0 + item.depth ≤ maxDepth
    omega
  have hencodable : ∀ item ∈ forest, item.all (Tree.isEncodable v) = true := fun item hitem =>
    Tree.all_isEncodable (hsound item hitem)
  have hawaits : (create v zeroPadding buffer).Awaits v (forest.map fun item => (.bare, item)) :=
    ⟨rfl, rfl, List.forall_mem_map.mpr fun _ _ => rfl, List.forall_mem_map.mpr hdepths,
      List.forall_mem_map.mpr hencodable, hroom⟩
  have hwritable : ∀ item ∈ forest, item.all Tree.isWritable = true := fun item hitem =>
    Tree.all_isWritable (hencodable item hitem)
  have htranscript : Transcript v (forest.map fun item => (.bare, item)) _ :=
    transcript_branchOps (List.forall_mem_map.mpr hwritable)
  obtain ⟨records, hspelled, haccepts⟩ := htranscript.spells hv hawaits
  rw [← Tree.itemOps_eq] at haccepts
  exact ⟨records, _, hspelled, haccepts, rfl, List.nil_append _⟩

/-- Sound trees, nested no deeper than a writer can go, are written without an error into
any buffer that is large enough for their encoding, and the atoms that are then found are
the trees again. -/
theorem forest_roundTrip (t : UriTable) (hids : t.resolve.2.size < UInt32.size) (zeroPadding : Bool)
    (buffer : Bytes) (memory : Option Nat) (forest : List Tree)
    (hsound : Tree.allItems (Tree.isSound t.resolve.1) forest = true)
    (hdepth : Tree.itemsDepth forest ≤ maxDepth)
    (hroom : (Tree.encodeItems t.resolve.1 forest).length ≤ buffer.length) :
    let run := (Writer.create t.resolve.1 zeroPadding buffer).run (Tree.itemOps forest)
    let s : Source := ⟨t.resolve.1, ⟨memory, run.2.written⟩⟩
    (∀ reply ∈ run.1, reply.isOk = true) ∧ run.2.depth = 0 ∧
      (s.atoms 0).items.length = forest.length ∧
      ((s.atoms 0).items.mapM fun item => item >>= s.treeTo (maxDepth + 1)) = .ok forest := by
  intro run s
  have hv := UriTable.resolved_of_size_lt hids
  have hall := Tree.allItems_iff.mp hsound
  obtain ⟨records, w, hspelled, ⟨hok, rfl⟩, hclosed, hwritten⟩ :=
    Writer.create_spells hv zeroPadding hall hdepth hroom
  have hlevels : ∀ item ∈ forest, item.depth < maxDepth + 1 := fun item hitem =>
    Nat.lt_succ_of_le (Nat.le_trans (Tree.depth_le_itemsDepth hitem) hdepth)
  obtain ⟨hcount, hread⟩ := Spelled.read_forest (s := s) hv hspelled hall hlevels hwritten
  exact ⟨hok, hclosed, hcount, hread⟩

theorem forest_roundTrip_nested :
    let t := UriTable.empty
    let forest : List Tree := [.tuple [.scalar (.int 5), .object 7 8 [(9, 0, .text .path [1, 0])]],
      .sequence .beats [(.beats ⟨0⟩, .vector 3 2 [[1, 2], [3, 4]])]]
    let run := (Writer.create t.resolve.1 false (List.replicate 160 9)).run (Tree.itemOps forest)
    let s : Source := ⟨t.resolve.1, ⟨some 0, run.2.written⟩⟩
    t.resolve.2.size < UInt32.size ∧ Tree.allItems (Tree.isSound t.resolve.1) forest = true ∧
      Tree.itemsDepth forest ≤ maxDepth ∧
      (Tree.encodeItems t.resolve.1 forest).length ≤ 160 ∧
      ((s.atoms 0).items.mapM fun item => item >>= s.treeTo (maxDepth + 1)) = .ok forest := by
  intro t forest run s
  have hids : t.resolve.2.size < UInt32.size := by decide +kernel
  have hsound : Tree.allItems (Tree.isSound t.resolve.1) forest = true := by decide +kernel
  have hdepth : Tree.itemsDepth forest ≤ maxDepth := by decide
  have hroom : (Tree.encodeItems t.resolve.1 forest).length ≤ 160 := by decide +kernel
  have hback := forest_roundTrip t hids false (List.replicate 160 9) (some 0) forest hsound hdepth
    hroom
  exact ⟨hids, hsound, hdepth, hroom, hback.2.2.2⟩

end AtomWire

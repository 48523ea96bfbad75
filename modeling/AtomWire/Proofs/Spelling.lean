import AtomWire.Proofs.Transcripts

/-!
# How trees are written

Every writer that has the room and expects them writes trees by any of their calls, and
what comes of it are the records of the trees. The bytes are thereby known up to the
padding, which shows what stood in the buffer before unless it is asked to be zero.
-/

namespace AtomWire

set_option autoImplicit false

/-- The branches come out as the records, whatever fills the padding. -/
inductive Spelled (v : Vocabulary) (zero : Bool) : List Branch → List Record → Prop where
  | nil : Spelled v zero [] []
  | cons {label : Label} {t : Tree} {rest : List Branch} {inner records : List Record} {pad : Bytes}
      (hinner : Spelled v zero t.branches inner)
      (hpad : IsPadding zero (padding (t.front v ++ Record.flat inner).length) pad)
      (hrest : Spelled v zero rest records) :
      Spelled v zero ((label, t) :: rest)
        (⟨label.bytes, t.type v, t.front v ++ Record.flat inner, pad⟩ :: records)

theorem Tree.length_body {v : Vocabulary} {t : Tree} {inner : List Record}
    (h : (Record.flat inner).length = (branchBytes v t.branches).length) :
    (t.front v ++ Record.flat inner).length = (t.body v).length := by
  rw [List.length_append, h, ← List.length_append]
  rfl

theorem Spelled.length_flat {v : Vocabulary} {zero : Bool} {branches : List Branch}
    {records : List Record} (h : Spelled v zero branches records) :
    (Record.flat records).length = (branchBytes v branches).length := by
  induction h with
  | nil => rfl
  | @cons label t rest inner records pad hinner hpad hrest ihInner ihRest =>
    have hbody := Tree.length_body ihInner
    rw [Record.flat_cons, Record.bytes_lead, branchBytes, List.flatMap_cons]
    simp only [List.length_append, length_record hpad.1, ihRest, t.length_encode]
    rw [← List.length_append, hbody]
    rfl

/-- The open containers let a tree stand behind the label. -/
def Label.Admitted (frames : List Frame) : Label → Prop
  | bare => beginFrames frames = .ok frames
  | key k _ => k ≠ 0 ∧ ∃ header outer, frames = ⟨.object false, header⟩ :: outer
  | time t => ∃ header outer, frames = ⟨.sequence t.unit false, header⟩ :: outer

theorem Label.accepts {w : Writer} {label : Label} (hspace : w.exhausted = false)
    (h : label.Admitted w.frames) (hroom : label.bytes.length ≤ w.spare.length) :
    ∃ frames, beginFrames frames = .ok w.frames ∧
      w.Accepts label.ops (w.extend frames w.completed label.bytes) := by
  cases label with
  | bare => exact ⟨w.frames, h, Writer.accepts_nil.mpr w.extend_nil.symm⟩
  | key k context =>
    obtain ⟨hkey, header, outer, hframes⟩ := h
    have hmove : (Op.property k context).move w.vocabulary w.frames =
        .ok (.label (word32 k ++ word32 context)) := by
      rw [hframes]
      exact Op.move_property hkey context
    refine ⟨_, ?_, Writer.accepts_label hspace hmove hframes hroom⟩
    rw [hframes]
    rfl
  | time t =>
    obtain ⟨header, outer, hframes⟩ := h
    have hmove : (Op.stamp t).move w.vocabulary w.frames = .ok (.label t.payload) := by
      rw [hframes]
      exact Op.move_stamp t
    refine ⟨_, ?_, Writer.accepts_label hspace hmove hframes hroom⟩
    rw [hframes]
    rfl

/-- A writer that has the room for the branches and expects them. -/
structure Writer.Awaits (w : Writer) (v : Vocabulary) (branches : List Branch) : Prop where
  vocabulary : w.vocabulary = v
  space : w.exhausted = false
  admitted : ∀ b ∈ branches, b.1.Admitted w.frames
  depth : ∀ b ∈ branches, w.depth + b.2.depth ≤ maxDepth
  sound : ∀ b ∈ branches, b.2.all (Tree.isEncodable v) = true
  room : (branchBytes v branches).length ≤ w.spare.length

/-- A writer that has the room for the tree and expects it. -/
structure Writer.Expects (w : Writer) (v : Vocabulary) (t : Tree) (begun : List Frame) : Prop where
  vocabulary : w.vocabulary = v
  space : w.exhausted = false
  begins : beginFrames w.frames = .ok begun
  depth : w.depth + t.depth ≤ maxDepth
  sound : t.all (Tree.isEncodable v) = true
  room : (t.encode v).length ≤ w.spare.length

/-- The branches are written by the calls. -/
def Writer.Spells (w : Writer) (v : Vocabulary) (branches : List Branch) (ops : List Op) : Prop :=
  ∃ records, Spelled v w.zeroPadding branches records ∧
    w.Accepts ops (w.extend w.frames (w.tally w.frames branches.length) (Record.flat records))

/-- The tree is written by the calls and comes out as one record. -/
def Writer.SpellsTree (w : Writer) (v : Vocabulary) (t : Tree) (ops : List Op)
    (begun : List Frame) : Prop :=
  ∃ inner pad, Spelled v w.zeroPadding t.branches inner ∧
    IsPadding w.zeroPadding (padding (t.front v ++ Record.flat inner).length) pad ∧
    w.Accepts ops (w.extend begun (w.tally begun 1)
      (Record.bytes ⟨[], t.type v, t.front v ++ Record.flat inner, pad⟩))

theorem Writer.accepts_elements {w : Writer} {type : TypeId} {width : UInt32} {header : Nat}
    {outer : List Frame} {elements : List Bytes} {ops : List Op} (hv : w.vocabulary.Resolved)
    (hspace : w.exhausted = false)
    (hframes : w.frames = ⟨.vector (some (type, width)), header⟩ :: outer)
    (hcalls : List.Forall₂ (ElementCall w.vocabulary type) elements ops)
    (hlen : ∀ element ∈ elements, element.length = width.toNat)
    (hroom : elements.flatten.length ≤ w.spare.length) :
    w.Accepts ops (w.extend w.frames w.completed elements.flatten) := by
  induction elements generalizing w ops with
  | nil =>
    cases hcalls
    exact accepts_nil.mpr w.extend_nil.symm
  | cons element rest ih =>
    cases hcalls with
    | @cons _ op _ ops hcall hrest =>
      rw [List.flatten_cons, List.length_append] at hroom
      have hmove : op.move w.vocabulary w.frames = .ok (.element element) := by
        rw [hframes]
        exact hcall.move_eq hv (hlen element List.mem_cons_self)
      have hfirst := accepts_element hspace hmove (by omega)
      have hothers := @ih (w.extend w.frames w.completed element) ops hv hspace hframes hrest
        (fun x hx => hlen x (List.mem_cons_of_mem element hx))
        (by rw [length_spare_extend]; omega)
      exact accepts_trans hfirst hothers

/-- A vector that has got its type is filled with elements. -/
theorem Writer.accepts_fill {w : Writer} {type : TypeId} {width : UInt32} {header completed : Nat}
    {outer : List Frame} {elements : List Bytes} {lead : Bytes} {front ops : List Op}
    (hv : w.vocabulary.Resolved) (hspace : w.exhausted = false)
    (hopen : w.Accepts front
      (w.extend (⟨.vector (some (type, width)), header⟩ :: outer) completed lead))
    (hcalls : List.Forall₂ (ElementCall w.vocabulary type) elements ops)
    (hlen : ∀ element ∈ elements, element.length = width.toNat)
    (hroom : lead.length + elements.flatten.length ≤ w.spare.length) :
    w.Accepts (front ++ ops) (w.extend (⟨.vector (some (type, width)), header⟩ :: outer) completed
      (lead ++ elements.flatten)) := by
  apply accepts_trans hopen
  refine accepts_elements hv hspace rfl hcalls hlen ?_
  rw [length_spare_extend]
  omega

namespace Writer.Expects

variable {w : Writer} {v : Vocabulary} {t : Tree} {begun : List Frame} {ops : List Op}

theorem body_le (h : w.Expects v t begun) : (t.body v).length ≤ maxBody := by
  have hsound := (Tree.all_iff.mp h.sound).1
  simp only [Tree.isEncodable, Bool.and_eq_true, decide_eq_true_eq] at hsound
  exact hsound.2

theorem writable (h : w.Expects v t begun) : t.isWritable = true := by
  have hsound := (Tree.all_iff.mp h.sound).1
  simp only [Tree.isEncodable, Bool.and_eq_true] at hsound
  exact hsound.1

theorem depth_lt (h : w.Expects v t begun) (hdepth : 0 < t.depth) : w.depth < maxDepth := by
  have hbound := h.depth
  omega

theorem leaf {op : Op} (h : w.Expects v t begun) (hbranches : t.branches = [])
    (hmove : op.move w.vocabulary w.frames = .ok (.leaf (t.type v) (t.front v))) :
    w.SpellsTree v t [op] begun := by
  have hbody : t.body v = t.front v := by simp [Tree.body, hbranches, branchBytes]
  have hle := h.body_le
  have hroom := h.room
  rw [t.length_encode, hbody] at hroom
  rw [hbody] at hle
  obtain ⟨pad, hpad, haccepts⟩ := accepts_leaf h.space hmove h.begins hle hroom
  refine ⟨[], pad, ?_, ?_, ?_⟩
  · rw [hbranches]
    exact .nil
  · simpa using hpad
  · simpa using haccepts

theorem inside {kind : FrameKind} (h : w.Expects v t begun)
    (hadmitted : ∀ b ∈ t.branches, b.1.Admitted (⟨kind, w.size⟩ :: begun)) :
    (w.extend (⟨kind, w.size⟩ :: begun) w.completed
      (headerBytes (t.type v) 0 ++ t.front v)).Awaits v t.branches := by
  refine ⟨h.vocabulary, h.space, hadmitted, ?_, (Tree.all_iff.mp h.sound).2, ?_⟩
  · intro b hb
    have hlt := Tree.depth_lt_of_mem_branches hb
    have hdepth := h.depth
    have hlen := length_beginFrames h.begins
    change begun.length + 1 + b.2.depth ≤ maxDepth
    unfold Writer.depth at hdepth
    omega
  · have hroom := h.room
    rw [t.length_encode, Tree.body] at hroom
    simp only [length_spare_extend, List.length_append, length_headerBytes, atomSize,
      headerSize] at *
    omega

theorem container {inner : List Op} (op : Op) (kind : FrameKind) (h : w.Expects v t begun)
    (hdepth : 0 < t.depth)
    (hmove : op.move w.vocabulary w.frames = .ok (.enter kind (t.type v) (t.front v)))
    (hawaiting : kind.awaiting = false)
    (hadmitted : ∀ b ∈ t.branches, b.1.Admitted (⟨kind, w.size⟩ :: begun))
    (hbranches : ∀ w' : Writer, w'.Awaits v t.branches → w'.Spells v t.branches inner) :
    w.SpellsTree v t (op :: (inner ++ [.pop])) begun := by
  obtain ⟨records, hrecords, hinner⟩ := hbranches _ (h.inside hadmitted)
  have hlen := Tree.length_body hrecords.length_flat
  have hle := h.body_le
  have hroom := h.room
  rw [t.length_encode] at hroom
  rw [← hlen] at hle hroom
  have hlead : headerSize + (t.front v).length ≤ w.spare.length := by
    unfold atomSize at hroom
    rw [List.length_append] at hroom
    omega
  have hopen := accepts_enter h.space hmove (h.depth_lt hdepth) h.begins hlead
  have hfilled := accepts_trans hopen hinner
  rw [List.append_assoc] at hfilled
  obtain ⟨pad, hpad, haccepts⟩ := accepts_leave h.space hfilled hawaiting hle hroom
  exact ⟨records, pad, hrecords, hpad, haccepts⟩

section Vector

variable {type : TypeId} {width : UInt32} {elements : List Bytes}

/-- However a vector is filled, its body is that of the tree before it is closed. -/
theorem fills (hv : v.Resolved) (h : w.Expects v (.vector type width elements) begun)
    (hcalls : VectorCalls v type width elements ops) :
    ∃ lock, w.Accepts ops (w.extend (⟨.vector lock, w.size⟩ :: begun) w.completed
      (headerBytes (v.id .vector) 0 ++ (word32 type ++ word32 width ++ elements.flatten))) := by
  have hwritable := h.writable
  simp only [Tree.isWritable, decide_eq_true_eq] at hwritable
  obtain ⟨hwords, hlen⟩ := hwritable
  have hlt := h.depth_lt Nat.one_pos
  have hroom := h.room
  simp only [Tree.length_encode, Tree.body, Tree.front, Tree.branches, branchBytes,
    List.flatMap_nil, List.append_nil, List.length_append, length_word32, atomSize,
    headerSize] at hroom
  obtain rfl := h.vocabulary
  cases hcalls with
  | typed htype hitems =>
    rw [if_neg htype] at hwords
    have hopen := accepts_enter h.space (Op.move_pushVector hv w.frames htype hwords) hlt h.begins
      (by simp only [List.length_append, length_word32, headerSize]; omega)
    have hfilled := accepts_fill hv h.space hopen hitems hlen
      (by simp only [List.length_append, length_headerBytes, length_word32]; omega)
    rw [List.append_assoc] at hfilled
    exact ⟨_, hfilled⟩
  | untyped given =>
    have hopen := accepts_enter h.space (Op.move_pushVector_untyped hv w.frames given) hlt h.begins
      (by simp only [List.length_append, length_word32, headerSize]; omega)
    exact ⟨none, by simpa using hopen⟩
  | @locked x op elements ops given hx hitems =>
    rw [x.type_eq, x.bytes_eq, x.length_payload] at *
    simp only [List.flatten_cons, List.length_append] at hroom
    have hopen := accepts_enter h.space (Op.move_pushVector_untyped hv w.frames given) hlt h.begins
      (by simp only [List.length_append, length_word32, headerSize]; omega)
    have hlock : op.move w.vocabulary (⟨.vector none, w.size⟩ :: begun) =
        .ok (.lock w.size (w.vocabulary.scalarType x.kind) x.payload) := by
      rw [hx.move_eq]
      exact Op.scalarMove_lock hv w.size begun x
    have hlocked := accepts_append.mpr
      ⟨_, hopen, accepts_lock h.space hlock (by unfold headerSize; omega)⟩
    rw [x.length_payload] at hlocked
    have hfilled := accepts_fill hv h.space hlocked hitems
      (fun element hmem => hlen element (List.mem_cons_of_mem _ hmem))
      (by simp only [List.length_append, length_headerBytes, length_word32]; omega)
    exact ⟨_, by simpa using hfilled⟩

theorem vector (hv : v.Resolved) (h : w.Expects v (.vector type width elements) begun)
    (hcalls : VectorCalls v type width elements ops) :
    w.SpellsTree v (.vector type width elements) (ops ++ [.pop]) begun := by
  have hbody : (Tree.vector type width elements).body v =
      word32 type ++ word32 width ++ elements.flatten := by
    simp [Tree.body, Tree.front, Tree.branches, branchBytes]
  have hle := h.body_le
  have hroom := h.room
  rw [Tree.length_encode, hbody] at hroom
  rw [hbody] at hle
  obtain ⟨lock, hfilled⟩ := h.fills hv hcalls
  obtain ⟨pad, hpad, haccepts⟩ := accepts_leave h.space hfilled rfl hle hroom
  have hfront : (Tree.vector type width elements).front v ++ Record.flat [] =
      word32 type ++ word32 width ++ elements.flatten := List.append_nil _
  refine ⟨[], pad, .nil, ?_, ?_⟩
  · rwa [hfront]
  · rw [hfront]
    exact haccepts

end Vector

/-- A tree is written if its branches are. -/
theorem spells {inner : List Op} (hv : v.Resolved) (h : w.Expects v t begun)
    (hcalls : t.CalledBy v inner ops)
    (hbranches : ∀ w' : Writer, w'.Awaits v t.branches → w'.Spells v t.branches inner) :
    w.SpellsTree v t ops begun := by
  have hw := h.vocabulary
  have hwritable := h.writable
  cases hcalls with
  | @scalar x _ hx =>
    apply h.leaf rfl
    rw [hw, hx.move_eq]
    exact Op.scalarMove_leaf hv h.begins x
  | text form content =>
    apply h.leaf rfl
    rw [hw]
    exact Op.move_text hv w.frames form content
  | literal content lang datatype =>
    have hone : lang = 0 ∨ datatype = 0 := by simpa [Tree.isWritable] using hwritable
    apply h.leaf rfl
    rw [hw]
    exact Op.move_literal hv w.frames content hone
  | chunk body =>
    apply h.leaf rfl
    rw [hw]
    exact Op.move_chunk hv w.frames body
  | atom type body =>
    have htype : type ≠ 0 := by simpa [Tree.isWritable] using hwritable
    exact h.leaf rfl (Op.move_atom w.frames htype body)
  | vector hvector => exact vector hv h hvector
  | tuple items =>
    refine h.container .pushTuple .tuple (Nat.succ_pos _) ?_ rfl ?_ hbranches
    · rw [hw]
      exact Op.move_pushTuple hv w.frames
    · intro b hb
      obtain ⟨item, _, rfl⟩ := List.mem_map.mp hb
      rfl
  | object id otype properties =>
    have hkeys : ∀ p ∈ properties, p.1 ≠ 0 := by simpa [Tree.isWritable] using hwritable
    refine h.container (.pushObject id otype) (.object false) (Nat.succ_pos _) ?_ rfl ?_ hbranches
    · rw [hw]
      exact Op.move_pushObject hv w.frames id otype
    · intro b hb
      obtain ⟨p, hp, rfl⟩ := List.mem_map.mp hb
      exact ⟨hkeys p hp, _, _, rfl⟩
  | sequence unit events =>
    have hunits : ∀ e ∈ events, e.1.unit = unit := by simpa [Tree.isWritable] using hwritable
    refine h.container (.pushSequence unit) (.sequence unit false) (Nat.succ_pos _) ?_ rfl ?_
      hbranches
    · rw [hw]
      exact Op.move_pushSequence hv w.frames unit
    · intro b hb
      obtain ⟨e, he, rfl⟩ := List.mem_map.mp hb
      exact ⟨_, _, by rw [hunits e he]⟩

end Writer.Expects

/-- Branches are written from any state that awaits them. -/
theorem Transcript.spells {v : Vocabulary} (hv : v.Resolved) {branches : List Branch}
    {ops : List Op} (hops : Transcript v branches ops) {w : Writer} (h : w.Awaits v branches) :
    w.Spells v branches ops := by
  induction hops generalizing w with
  | nil =>
    refine ⟨[], .nil, Writer.accepts_nil.mpr ?_⟩
    have htally : w.tally w.frames 0 = w.completed := by simp [Writer.tally]
    rw [List.length_nil, htally]
    exact w.extend_nil.symm
  | @cons label t rest innerOps calls restOps hinner hcalls hrest ihTree ihRest =>
    have hroom := h.room
    simp only [branchBytes, List.flatMap_cons, List.length_append] at hroom
    -- Behind each branch the open containers are the same as before it.
    have hfits : label.bytes.length ≤ w.spare.length := by omega
    obtain ⟨frames, hbegin, hlabel⟩ :=
      Label.accepts h.space (h.admitted (label, t) List.mem_cons_self) hfits
    have hexpects : (w.extend frames w.completed label.bytes).Expects v t w.frames := by
      refine ⟨h.vocabulary, h.space, hbegin, ?_, h.sound (label, t) List.mem_cons_self, ?_⟩
      · have hdepth := h.depth (label, t) List.mem_cons_self
        unfold Writer.depth at hdepth
        rwa [length_beginFrames hbegin] at hdepth
      · rw [Writer.length_spare_extend]
        omega
    obtain ⟨inner, pad, hspelled, hpad, htree⟩ :=
      hexpects.spells hv hcalls fun w' hw' => ihTree hw'
    have hfirst := Writer.accepts_trans hlabel htree
    rw [← Record.bytes_lead] at hfirst
    have hlen : (Record.bytes ⟨label.bytes, t.type v, t.front v ++ Record.flat inner, pad⟩).length =
        label.bytes.length + (t.encode v).length := by
      rw [Record.bytes_lead, List.length_append, length_record hpad.1,
        Tree.length_body hspelled.length_flat, t.length_encode]
    have hawaits : (w.extend w.frames (w.tally w.frames 1)
        (Record.bytes ⟨label.bytes, t.type v, t.front v ++ Record.flat inner, pad⟩)).Awaits v
          rest := by
      refine ⟨h.vocabulary, h.space, ?_, ?_, ?_, ?_⟩
      · intro b hb
        exact h.admitted b (List.mem_cons_of_mem _ hb)
      · intro b hb
        exact h.depth b (List.mem_cons_of_mem _ hb)
      · intro b hb
        exact h.sound b (List.mem_cons_of_mem _ hb)
      · rw [Writer.length_spare_extend, hlen, branchBytes]
        omega
    obtain ⟨records, hrecords, hothers⟩ := ihRest hawaits
    refine ⟨_, .cons hspelled hpad hrecords, ?_⟩
    have hall := Writer.accepts_trans hfirst hothers
    have htally : (w.extend w.frames (w.tally w.frames 1)
        (Record.bytes ⟨label.bytes, t.type v, t.front v ++ Record.flat inner, pad⟩)).tally
          w.frames rest.length = w.tally w.frames ((label, t) :: rest).length := by
      simp only [Writer.tally, Writer.extend, List.length_cons]
      split <;> omega
    rw [Record.flat_cons, ← htally]
    exact hall

end AtomWire

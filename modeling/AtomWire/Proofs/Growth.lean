import AtomWire.Proofs.Resolution
import AtomWire.Proofs.Steps

/-!
# How accepted calls extend the bytes

`Writer.Grows` says that calls are accepted one after another and what they add to the
bytes. A container grows in three parts: its opening, its items, and its end, which turns
all of it into one record.
-/

namespace AtomWire

set_option autoImplicit false

/-- The bytes that an atom takes: its header, its body and the padding. -/
def atomSize (body : Nat) : Nat := headerSize + body + padding body

theorem length_record {type : TypeId} {body pad : Bytes}
    (hpad : pad.length = padding body.length) :
    (Record.bytes ⟨[], type, body, pad⟩).length = atomSize body.length := by
  simp only [Record.bytes, List.length_append, List.length_nil, length_headerBytes, hpad, atomSize,
    headerSize]
  omega

namespace Op

variable {v : Vocabulary} {frames begun outer : List Frame} {header : Nat}

theorem scalarMove_leaf (hv : v.Resolved) (hbegin : beginFrames frames = .ok begun) (x : Scalar) :
    scalarMove v frames (v.scalarType x.kind) x = .ok (.leaf (v.scalarType x.kind) x.payload) := by
  rw [scalarMove, hv.encode_scalarType, ok_bind]
  split
  · cases hbegin
  · cases hbegin
  · rfl

theorem scalarMove_lock (hv : v.Resolved) (header : Nat) (outer : List Frame) (x : Scalar) :
    scalarMove v (⟨.vector none, header⟩ :: outer) (v.scalarType x.kind) x =
      .ok (.lock header (v.scalarType x.kind) x.payload) := by
  rw [scalarMove, hv.encode_scalarType, ok_bind]
  rfl

theorem scalarMove_element {width : UInt32} (hv : v.Resolved) (header : Nat)
    (outer : List Frame) (x : Scalar) (hwidth : x.kind.width = width.toNat) :
    scalarMove v (⟨.vector (some (v.scalarType x.kind, width)), header⟩ :: outer)
      (v.scalarType x.kind) x = .ok (.element x.payload) := by
  rw [scalarMove, hv.encode_scalarType, ok_bind]
  simp [x.length_payload, hwidth]

theorem move_text (hv : v.Resolved) (frames : List Frame) (form : TextForm) (content : Bytes) :
    (text form content).move v frames = .ok (.leaf (v.id form.term) (content ++ [0])) :=
  typedMove_eq_ok_iff.mpr ⟨hv.ne_zero _, rfl⟩

theorem move_literal (hv : v.Resolved) (frames : List Frame) (content : Bytes)
    {lang datatype : TypeId} (hone : lang = 0 ∨ datatype = 0) :
    (literal content lang datatype).move v frames =
      .ok (.leaf (v.id .literal) (word32 lang ++ word32 datatype ++ content ++ [0])) := by
  apply ensure_eq_ok_iff.mpr
  exact ⟨decide_eq_true ⟨hv.ne_zero _, hone⟩, rfl⟩

theorem move_chunk (hv : v.Resolved) (frames : List Frame) (body : Bytes) :
    (chunk body).move v frames = .ok (.leaf (v.id .chunk) body) :=
  typedMove_eq_ok_iff.mpr ⟨hv.ne_zero _, rfl⟩

theorem move_atom (frames : List Frame) {type : TypeId} (htype : type ≠ 0) (body : Bytes) :
    (atom type body).move v frames = .ok (.leaf type body) :=
  typedMove_eq_ok_iff.mpr ⟨htype, rfl⟩

theorem move_pushTuple (hv : v.Resolved) (frames : List Frame) :
    pushTuple.move v frames = .ok (.enter .tuple (v.id .tuple) []) :=
  enterMove_eq_ok_iff.mpr ⟨hv.ne_zero _, rfl⟩

theorem move_pushObject (hv : v.Resolved) (frames : List Frame) (id otype : TypeId) :
    (pushObject id otype).move v frames =
      .ok (.enter (.object false) (v.id .object) (word32 id ++ word32 otype)) :=
  enterMove_eq_ok_iff.mpr ⟨hv.ne_zero _, rfl⟩

theorem move_pushSequence (hv : v.Resolved) (frames : List Frame) (unit : TimeUnit) :
    (pushSequence unit).move v frames =
      .ok (.enter (.sequence unit false) (v.id .sequence)
        (word32 (v.id unit.term) ++ word32 0)) :=
  enterMove_eq_ok_iff.mpr ⟨hv.ne_zero _, rfl⟩

theorem move_pushVector (hv : v.Resolved) (frames : List Frame) {type : TypeId} {width : UInt32}
    (htype : type ≠ 0) (hwidth : width ≠ 0) :
    (pushVector type width).move v frames =
      .ok (.enter (.vector (some (type, width))) (v.id .vector)
        (word32 type ++ word32 width)) := by
  rw [move, if_neg htype]
  apply ensure_eq_ok_iff.mpr
  exact ⟨decide_eq_true hwidth, enterMove_eq_ok_iff.mpr ⟨hv.ne_zero _, rfl⟩⟩

theorem move_pushVector_untyped (hv : v.Resolved) (frames : List Frame) (width : UInt32) :
    (pushVector 0 width).move v frames =
      .ok (.enter (.vector none) (v.id .vector) (word32 0 ++ word32 0)) := by
  rw [move, if_pos rfl]
  exact enterMove_eq_ok_iff.mpr ⟨hv.ne_zero _, rfl⟩

theorem move_element {type : TypeId} {width : UInt32} {bytes : Bytes}
    (hlen : bytes.length = width.toNat) :
    (element bytes).move v (⟨.vector (some (type, width)), header⟩ :: outer) =
      .ok (.element bytes) :=
  ensure_eq_ok_iff.mpr ⟨decide_eq_true hlen, rfl⟩

theorem move_property {key : TypeId} (hkey : key ≠ 0) (context : TypeId) :
    (property key context).move v (⟨.object false, header⟩ :: outer) =
      .ok (.label (word32 key ++ word32 context)) :=
  ensure_eq_ok_iff.mpr ⟨decide_eq_true hkey, rfl⟩

theorem move_stamp (time : Stamp) :
    (stamp time).move v (⟨.sequence time.unit false, header⟩ :: outer) =
      .ok (.label time.payload) :=
  ensure_eq_ok_iff.mpr ⟨decide_eq_true rfl, rfl⟩

end Op

namespace Writer

/-- The writer with more bytes before the cursor and the given containers open. -/
def extend (w : Writer) (frames : List Frame) (completed : Nat) (bytes : Bytes) : Writer :=
  { w.append bytes with frames, completed }

def Grows (w : Writer) (ops : List Op) (frames : List Frame) (bytes : Bytes) : Prop :=
  ∃ completed, w.Accepts ops (w.extend frames completed bytes)

variable {w : Writer} {op : Op} {ops rest : List Op} {frames begun : List Frame}
  {bytes body lead : Bytes} {type : TypeId} {completed : Nat}

theorem extend_extend (w : Writer) (frames frames' : List Frame) (completed completed' : Nat)
    (bytes more : Bytes) :
    (w.extend frames completed bytes).extend frames' completed' more =
      w.extend frames' completed' (bytes ++ more) := by
  simp [extend, append, List.drop_drop]

theorem extend_nil (w : Writer) : w.extend w.frames w.completed [] = w := by
  simp [extend, append]

theorem length_spare_extend (w : Writer) (frames : List Frame) (completed : Nat) (bytes : Bytes) :
    (w.extend frames completed bytes).spare.length = w.spare.length - bytes.length :=
  List.length_drop

theorem Grows.nil (w : Writer) : w.Grows [] w.frames [] :=
  ⟨w.completed, accepts_nil.mpr w.extend_nil.symm⟩

theorem accepts_trans {more : Bytes} {completed' : Nat}
    (h : w.Accepts ops (w.extend frames completed bytes))
    (hrest : (w.extend frames completed bytes).Accepts rest
      ((w.extend frames completed bytes).extend begun completed' more)) :
    w.Accepts (ops ++ rest) (w.extend begun completed' (bytes ++ more)) := by
  rw [extend_extend] at hrest
  exact accepts_append.mpr ⟨_, h, hrest⟩

theorem Grows.trans {more : Bytes} (h : w.Accepts ops (w.extend frames completed bytes))
    (hrest : (w.extend frames completed bytes).Grows rest begun more) :
    w.Grows (ops ++ rest) begun (bytes ++ more) := by
  obtain ⟨completed', hrest⟩ := hrest
  exact ⟨completed', accepts_trans h hrest⟩

/-- The finished atoms, counted after `count` more values inside the given containers. -/
def tally (w : Writer) (frames : List Frame) (count : Nat) : Nat :=
  if frames.isEmpty then w.completed + count else w.completed

theorem finishAtom_extend (w : Writer) (frames : List Frame) (bytes : Bytes) :
    ({ w with frames }.append bytes).finishAtom = w.extend frames (w.tally frames 1) bytes := by
  rw [finishAtom_eq]
  rfl

theorem accepts_leaf (hspace : w.exhausted = false)
    (hmove : op.move w.vocabulary w.frames = .ok (.leaf type body))
    (hbegin : beginFrames w.frames = .ok begun) (hbody : body.length ≤ maxBody)
    (hroom : atomSize body.length ≤ w.spare.length) :
    ∃ pad, IsPadding w.zeroPadding (padding body.length) pad ∧
      w.Accepts [op] (w.extend begun (w.tally begun 1) (Record.bytes ⟨[], type, body, pad⟩)) := by
  have hallows : w.Allows op (.leaf type body) begun := ⟨hmove, hbegin, hbody, hroom⟩
  obtain ⟨pad, hpad, heq⟩ := perform_leaf begun hallows.demand_le
  refine ⟨pad, hpad, ?_⟩
  rw [← finishAtom_extend, ← heq]
  exact accepts_of_allows hspace hallows

theorem Grows.leaf (hspace : w.exhausted = false)
    (hmove : op.move w.vocabulary w.frames = .ok (.leaf type body))
    (hbegin : beginFrames w.frames = .ok begun) (hbody : body.length ≤ maxBody)
    (hroom : atomSize body.length ≤ w.spare.length) :
    ∃ pad, IsPadding w.zeroPadding (padding body.length) pad ∧
      w.Grows [op] begun (Record.bytes ⟨[], type, body, pad⟩) := by
  obtain ⟨pad, hpad, haccepts⟩ := accepts_leaf hspace hmove hbegin hbody hroom
  exact ⟨pad, hpad, _, haccepts⟩

theorem accepts_element (hspace : w.exhausted = false)
    (hmove : op.move w.vocabulary w.frames = .ok (.element bytes))
    (hroom : bytes.length ≤ w.spare.length) :
    w.Accepts [op] (w.extend w.frames w.completed bytes) :=
  accepts_of_allows hspace ⟨hmove, rfl, Nat.zero_le _, hroom⟩

theorem Grows.element (hspace : w.exhausted = false)
    (hmove : op.move w.vocabulary w.frames = .ok (.element bytes))
    (hroom : bytes.length ≤ w.spare.length) : w.Grows [op] w.frames bytes :=
  ⟨w.completed, accepts_element hspace hmove hroom⟩

theorem accepts_label {kind : FrameKind} {header : Nat} (hspace : w.exhausted = false)
    (hmove : op.move w.vocabulary w.frames = .ok (.label bytes))
    (hframes : w.frames = ⟨kind, header⟩ :: frames) (hroom : bytes.length ≤ w.spare.length) :
    w.Accepts [op] (w.extend (⟨kind.beginLabel, header⟩ :: frames) w.completed bytes) := by
  refine accepts_of_allows hspace ⟨hmove, ?_, Nat.zero_le _, hroom⟩
  rw [hframes]
  rfl

theorem Grows.label {kind : FrameKind} {header : Nat} (hspace : w.exhausted = false)
    (hmove : op.move w.vocabulary w.frames = .ok (.label bytes))
    (hframes : w.frames = ⟨kind, header⟩ :: frames) (hroom : bytes.length ≤ w.spare.length) :
    w.Grows [op] (⟨kind.beginLabel, header⟩ :: frames) bytes :=
  ⟨w.completed, accepts_label hspace hmove hframes hroom⟩

theorem accepts_enter {kind : FrameKind} (hspace : w.exhausted = false)
    (hmove : op.move w.vocabulary w.frames = .ok (.enter kind type lead))
    (hdepth : w.depth < maxDepth) (hbegin : beginFrames w.frames = .ok begun)
    (hroom : headerSize + lead.length ≤ w.spare.length) :
    w.Accepts [op]
      (w.extend (⟨kind, w.size⟩ :: begun) w.completed (headerBytes type 0 ++ lead)) := by
  refine accepts_of_allows hspace ⟨hmove, ?_, Nat.zero_le _, hroom⟩
  unfold depth at hdepth
  simp [Move.turn, hbegin, ensure, hdepth]

/-- The first scalar in a vector without a type replaces the words that lead the body. -/
theorem accepts_lock {childType : TypeId} (hspace : w.exhausted = false)
    (hmove : op.move w.vocabulary (⟨.vector none, w.size⟩ :: begun) =
      .ok (.lock w.size childType bytes))
    (hroom : headerSize + 8 + bytes.length ≤ w.spare.length) :
    (w.extend (⟨.vector none, w.size⟩ :: begun) completed
        (headerBytes type 0 ++ (word32 0 ++ word32 0))).Accepts [op]
      (w.extend (⟨.vector (some (childType, UInt32.ofNat bytes.length)), w.size⟩ :: begun)
        completed (headerBytes type 0 ++
          (word32 childType ++ (word32 (UInt32.ofNat bytes.length) ++ bytes)))) := by
  generalize hmid : w.extend (⟨.vector none, w.size⟩ :: begun) completed
    (headerBytes type 0 ++ (word32 0 ++ word32 0)) = mid
  have hwritten : mid.written = w.written ++ (headerBytes type 0 ++ (word32 0 ++ word32 0)) := by
    rw [← hmid]
    rfl
  have hmidspace : mid.exhausted = false := by rwa [← hmid]
  have hallows : mid.Allows op (.lock w.written.length childType bytes)
      (⟨.vector (some (childType, UInt32.ofNat bytes.length)), w.size⟩ :: begun) := by
    rw [← hmid]
    refine ⟨hmove, rfl, Nat.zero_le _, ?_⟩
    simp only [demand, length_spare_extend, List.length_append, length_headerBytes, length_word32]
    unfold headerSize at hroom
    omega
  have hlast := accepts_of_allows hmidspace hallows
  rw [perform_lock hwritten, ← hmid] at hlast
  rw [← hmid]
  simpa [extend, append, List.drop_drop, ← Nat.add_assoc] using hlast

/-- The end of a container makes a record of what stands behind its opening. -/
theorem accepts_leave {kind : FrameKind} (hspace : w.exhausted = false)
    (h : w.Accepts ops
      (w.extend (⟨kind, w.size⟩ :: begun) completed (headerBytes type 0 ++ body)))
    (hawaiting : kind.awaiting = false) (hbody : body.length ≤ maxBody)
    (hroom : atomSize body.length ≤ w.spare.length) :
    ∃ pad, IsPadding w.zeroPadding (padding body.length) pad ∧
      w.Accepts (ops ++ [.pop])
        (w.extend begun (if begun.isEmpty then completed + 1 else completed)
          (Record.bytes ⟨[], type, body, pad⟩)) := by
  generalize hmid : w.extend (⟨kind, w.size⟩ :: begun) completed (headerBytes type 0 ++ body) = mid
    at h
  have hwritten : mid.written = w.written ++ (headerBytes type 0 ++ body) := by
    rw [← hmid]
    rfl
  have hsize : mid.size - (w.written.length + headerSize) = body.length :=
    size_sub_header hwritten
  have hspare : padding body.length ≤ mid.spare.length := by
    rw [← hmid, length_spare_extend, List.length_append, length_headerBytes]
    unfold atomSize headerSize at hroom
    omega
  have hallows : mid.Allows .pop (.leave w.written.length) begun := by
    refine ⟨?_, ?_, ?_, ?_⟩
    · rw [← hmid]
      simp [Op.move, Op.leaveMove, extend, hawaiting, ensure, size]
    · rw [← hmid]
      rfl
    · rwa [announced, hsize]
    · rwa [demand, hsize]
  obtain ⟨pad, hpad, heq⟩ := perform_leave begun hwritten hallows.demand_le
  have hzero : mid.zeroPadding = w.zeroPadding := by
    rw [← hmid]
    rfl
  rw [hzero] at hpad
  have hmidspace : mid.exhausted = false := by rwa [← hmid]
  refine ⟨pad, hpad, ?_⟩
  have hpop := accepts_of_allows hmidspace hallows
  have hlast : mid.perform begun (.leave w.written.length) =
      w.extend begun (if begun.isEmpty then completed + 1 else completed)
        (Record.bytes ⟨[], type, body, pad⟩) := by
    rw [heq, finishAtom_eq, ← hmid]
    simp [extend, append, Record.bytes, List.drop_drop, Nat.add_assoc]
  rw [hlast] at hpop
  exact accepts_append.mpr ⟨mid, h, hpop⟩

theorem Grows.leave {kind : FrameKind} (hspace : w.exhausted = false)
    (h : w.Accepts ops
      (w.extend (⟨kind, w.size⟩ :: begun) completed (headerBytes type 0 ++ body)))
    (hawaiting : kind.awaiting = false) (hbody : body.length ≤ maxBody)
    (hroom : atomSize body.length ≤ w.spare.length) :
    ∃ pad, IsPadding w.zeroPadding (padding body.length) pad ∧
      w.Grows (ops ++ [.pop]) begun (Record.bytes ⟨[], type, body, pad⟩) := by
  obtain ⟨pad, hpad, haccepts⟩ := accepts_leave hspace h hawaiting hbody hroom
  exact ⟨pad, hpad, _, haccepts⟩

theorem Grows.container {kind kind' : FrameKind} {content : Bytes} (hspace : w.exhausted = false)
    (hmove : op.move w.vocabulary w.frames = .ok (.enter kind type lead))
    (hdepth : w.depth < maxDepth) (hbegin : beginFrames w.frames = .ok begun)
    (hinner : (w.extend (⟨kind, w.size⟩ :: begun) w.completed (headerBytes type 0 ++ lead)).Grows
      ops (⟨kind', w.size⟩ :: begun) content)
    (hawaiting : kind'.awaiting = false) (hbody : (lead ++ content).length ≤ maxBody)
    (hroom : atomSize (lead ++ content).length ≤ w.spare.length) :
    ∃ pad, IsPadding w.zeroPadding (padding (lead ++ content).length) pad ∧
      w.Grows (op :: (ops ++ [.pop])) begun (Record.bytes ⟨[], type, lead ++ content, pad⟩) := by
  have hlead : headerSize + lead.length ≤ w.spare.length := by
    unfold atomSize at hroom
    rw [List.length_append] at hroom
    omega
  obtain ⟨completed, hitems⟩ :=
    Grows.trans (accepts_enter hspace hmove hdepth hbegin hlead) hinner
  rw [List.append_assoc] at hitems
  exact Grows.leave hspace hitems hawaiting hbody hroom

end Writer

end AtomWire

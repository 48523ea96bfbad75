import AtomWire.Proofs.Growth

/-!
# The grammar of the calls

Which calls make up a value, and which make up a list of values, of properties, of events
or of elements. `Derivation.takes` carries out a derivation from any state that expects
its symbol, and the number of bytes it writes is known beforehand.
-/

namespace AtomWire

set_option autoImplicit false

/-- What a list of calls stands for. -/
inductive Symbol where
  | value
  | values
  | properties
  | events (unit : TimeUnit)
  | elements (type : TypeId) (width : UInt32)

/-- The calls come from the symbol, with at most `levels` containers open at any point. -/
inductive Derivation (v : Vocabulary) : Symbol → (levels : Nat) → List Op → Type where
  | scalar {n : Nat} (x : Scalar) : Derivation v .value n [.scalar (v.scalarType x.kind) x]
  | text {n : Nat} (form : TextForm) (content : Bytes) :
      Derivation v .value n [.text form content]
  | literal {n : Nat} (content : Bytes) (lang datatype : TypeId) (h : lang = 0 ∨ datatype = 0) :
      Derivation v .value n [.literal content lang datatype]
  | chunk {n : Nat} (body : Bytes) : Derivation v .value n [.chunk body]
  | atom {n : Nat} (type : TypeId) (body : Bytes) (h : type ≠ 0) :
      Derivation v .value n [.atom type body]
  | tuple {n : Nat} {ops : List Op} (items : Derivation v .values n ops) :
      Derivation v .value (n + 1) (.pushTuple :: (ops ++ [.pop]))
  | object {n : Nat} {ops : List Op} (id otype : TypeId) (items : Derivation v .properties n ops) :
      Derivation v .value (n + 1) (.pushObject id otype :: (ops ++ [.pop]))
  | sequence {n : Nat} {ops : List Op} (unit : TimeUnit)
      (items : Derivation v (.events unit) n ops) :
      Derivation v .value (n + 1) (.pushSequence unit :: (ops ++ [.pop]))
  | vector {n : Nat} {ops : List Op} (type : TypeId) (width : UInt32) (htype : type ≠ 0)
      (hwidth : width ≠ 0) (items : Derivation v (.elements type width) n ops) :
      Derivation v .value (n + 1) (.pushVector type width :: (ops ++ [.pop]))
  | emptyVector {n : Nat} (width : UInt32) :
      Derivation v .value (n + 1) [.pushVector 0 width, .pop]
  | lockedVector {n : Nat} {ops : List Op} (width : UInt32) (x : Scalar)
      (items : Derivation v (.elements (v.scalarType x.kind) (UInt32.ofNat x.kind.width)) n ops) :
      Derivation v .value (n + 1)
        (.pushVector 0 width :: .scalar (v.scalarType x.kind) x :: (ops ++ [.pop]))
  | noValues {n : Nat} : Derivation v .values n []
  | addValue {n : Nat} {ops more : List Op} (items : Derivation v .values n ops)
      (last : Derivation v .value n more) : Derivation v .values n (ops ++ more)
  | noProperties {n : Nat} : Derivation v .properties n []
  | addProperty {n : Nat} {ops more : List Op} (items : Derivation v .properties n ops)
      (key context : TypeId) (hkey : key ≠ 0) (last : Derivation v .value n more) :
      Derivation v .properties n (ops ++ .property key context :: more)
  | noEvents {n : Nat} {unit : TimeUnit} : Derivation v (.events unit) n []
  | addEvent {n : Nat} {unit : TimeUnit} {ops more : List Op}
      (items : Derivation v (.events unit) n ops) (time : Stamp) (htime : time.unit = unit)
      (last : Derivation v .value n more) :
      Derivation v (.events unit) n (ops ++ .stamp time :: more)
  | noElements {n : Nat} {type : TypeId} {width : UInt32} :
      Derivation v (.elements type width) n []
  | addElement {n : Nat} {type : TypeId} {width : UInt32} {ops : List Op}
      (items : Derivation v (.elements type width) n ops) (bytes : Bytes)
      (h : bytes.length = width.toNat) :
      Derivation v (.elements type width) n (ops ++ [.element bytes])
  | addScalar {n : Nat} {type : TypeId} {width : UInt32} {ops : List Op}
      (items : Derivation v (.elements type width) n ops) (x : Scalar)
      (htype : type = v.scalarType x.kind) (hwidth : x.kind.width = width.toNat) :
      Derivation v (.elements type width) n (ops ++ [.scalar type x])

namespace Derivation

variable {v : Vocabulary}

/-- The number of bytes that the calls write. -/
def size {s : Symbol} {n : Nat} {ops : List Op} : Derivation v s n ops → Nat
  | scalar x => atomSize x.kind.width
  | text _ content => atomSize (content.length + 1)
  | literal content _ _ _ => atomSize (content.length + 9)
  | chunk body | atom _ body _ => atomSize body.length
  | tuple items => atomSize items.size
  | object _ _ items | sequence _ items | vector _ _ _ _ items => atomSize (8 + items.size)
  | emptyVector _ => atomSize 8
  | lockedVector _ x items => atomSize (8 + (x.kind.width + items.size))
  | noValues | noProperties | noEvents | noElements => 0
  | addValue items last => items.size + last.size
  | addProperty items _ _ _ last | addEvent items _ _ last => items.size + (8 + last.size)
  | addElement items bytes _ => items.size + bytes.length
  | addScalar items x _ _ => items.size + x.kind.width

/-- Every body has a size that a header can hold. -/
def Fits {s : Symbol} {n : Nat} {ops : List Op} : Derivation v s n ops → Prop
  | scalar x => x.kind.width ≤ maxBody
  | text _ content => content.length + 1 ≤ maxBody
  | literal content _ _ _ => content.length + 9 ≤ maxBody
  | chunk body | atom _ body _ => body.length ≤ maxBody
  | tuple items => items.size ≤ maxBody ∧ items.Fits
  | object _ _ items | sequence _ items | vector _ _ _ _ items =>
    8 + items.size ≤ maxBody ∧ items.Fits
  | emptyVector _ => 8 ≤ maxBody
  | lockedVector _ x items => 8 + (x.kind.width + items.size) ≤ maxBody ∧ items.Fits
  | noValues | noProperties | noEvents | noElements => True
  | addValue items last | addProperty items _ _ _ last | addEvent items _ _ last =>
    items.Fits ∧ last.Fits
  | addElement items _ _ | addScalar items _ _ _ => items.Fits

end Derivation

/-- The open containers expect the symbol and are the given ones afterwards. -/
def Symbol.Expected (frames after : List Frame) : Symbol → Prop
  | value => beginFrames frames = .ok after
  | values => beginFrames frames = .ok frames ∧ after = frames
  | properties => (∃ header outer, frames = ⟨.object false, header⟩ :: outer) ∧ after = frames
  | events unit =>
    (∃ header outer, frames = ⟨.sequence unit false, header⟩ :: outer) ∧ after = frames
  | elements type width =>
    (∃ header outer, frames = ⟨.vector (some (type, width)), header⟩ :: outer) ∧ after = frames

namespace Writer

/-- The calls are accepted and write `size` bytes. -/
def Takes (w : Writer) (ops : List Op) (frames : List Frame) (size : Nat) : Prop :=
  ∃ bytes, bytes.length = size ∧ w.Grows ops frames bytes

/-- `w'` is further than `w` by `size` bytes and has the given containers open. -/
structure Continues (w : Writer) (frames : List Frame) (size : Nat) (w' : Writer) : Prop where
  vocabulary : w'.vocabulary = w.vocabulary
  exhausted : w'.exhausted = w.exhausted
  frames : w'.frames = frames
  spare : w'.spare.length = w.spare.length - size

variable {w : Writer} {op : Op} {ops rest : List Op} {frames begun : List Frame} {type : TypeId}
  {body lead : Bytes} {size more : Nat}

theorem extend_continues (w : Writer) (frames : List Frame) (completed : Nat) (bytes : Bytes) :
    w.Continues frames bytes.length (w.extend frames completed bytes) :=
  ⟨rfl, rfl, rfl, w.length_spare_extend frames completed bytes⟩

theorem Takes.nil (w : Writer) : w.Takes [] w.frames 0 := ⟨[], rfl, Grows.nil w⟩

theorem Takes.trans (h : w.Takes ops frames size)
    (hrest : ∀ w', w.Continues frames size w' → w'.Takes rest begun more) :
    w.Takes (ops ++ rest) begun (size + more) := by
  obtain ⟨bytes, rfl, completed, haccepts⟩ := h
  obtain ⟨others, rfl, hgrows⟩ := hrest _ (w.extend_continues frames completed bytes)
  exact ⟨bytes ++ others, List.length_append, Grows.trans haccepts hgrows⟩

theorem Takes.leaf (hspace : w.exhausted = false)
    (hmove : op.move w.vocabulary w.frames = .ok (.leaf type body))
    (hbegin : beginFrames w.frames = .ok begun) (hsize : body.length = size)
    (hbody : size ≤ maxBody) (hroom : atomSize size ≤ w.spare.length) :
    w.Takes [op] begun (atomSize size) := by
  subst hsize
  obtain ⟨pad, hpad, hgrows⟩ := Grows.leaf hspace hmove hbegin hbody hroom
  exact ⟨_, length_record hpad.1, hgrows⟩

theorem Takes.element {bytes : Bytes} (hspace : w.exhausted = false)
    (hmove : op.move w.vocabulary w.frames = .ok (.element bytes)) (hsize : bytes.length = size)
    (hroom : size ≤ w.spare.length) : w.Takes [op] w.frames size := by
  subst hsize
  exact ⟨bytes, rfl, Grows.element hspace hmove hroom⟩

theorem Takes.label {kind : FrameKind} {header : Nat} {bytes : Bytes}
    (hspace : w.exhausted = false) (hmove : op.move w.vocabulary w.frames = .ok (.label bytes))
    (hframes : w.frames = ⟨kind, header⟩ :: frames) (hsize : bytes.length = size)
    (hroom : size ≤ w.spare.length) :
    w.Takes [op] (⟨kind.beginLabel, header⟩ :: frames) size := by
  subst hsize
  exact ⟨bytes, rfl, Grows.label hspace hmove hframes hroom⟩

theorem Takes.container {kind : FrameKind} (hspace : w.exhausted = false)
    (hmove : op.move w.vocabulary w.frames = .ok (.enter kind type lead))
    (hdepth : w.depth < maxDepth) (hbegin : beginFrames w.frames = .ok begun)
    (hinner : ∀ w', w.Continues (⟨kind, w.size⟩ :: begun) (headerSize + lead.length) w' →
      w'.Takes ops (⟨kind, w.size⟩ :: begun) more)
    (hawaiting : kind.awaiting = false) (hsize : lead.length + more = size)
    (hbody : size ≤ maxBody) (hroom : atomSize size ≤ w.spare.length) :
    w.Takes (op :: (ops ++ [.pop])) begun (atomSize size) := by
  have hopened := w.extend_continues (⟨kind, w.size⟩ :: begun) w.completed
    (headerBytes type 0 ++ lead)
  rw [List.length_append, length_headerBytes] at hopened
  obtain ⟨content, rfl, hgrows⟩ := hinner _ hopened
  rw [← List.length_append] at hsize
  subst hsize
  obtain ⟨pad, hpad, hgrows⟩ :=
    Grows.container hspace hmove hdepth hbegin hgrows hawaiting hbody hroom
  exact ⟨_, length_record hpad.1, hgrows⟩

theorem Takes.lockedVector {lock : Op} {childType : TypeId} {bytes : Bytes}
    (hspace : w.exhausted = false)
    (hmove : op.move w.vocabulary w.frames =
      .ok (.enter (.vector none) type (word32 0 ++ word32 0)))
    (hlock : lock.move w.vocabulary (⟨.vector none, w.size⟩ :: begun) =
      .ok (.lock w.size childType bytes))
    (hdepth : w.depth < maxDepth) (hbegin : beginFrames w.frames = .ok begun)
    (hinner : ∀ w', w.Continues
        (⟨.vector (some (childType, UInt32.ofNat bytes.length)), w.size⟩ :: begun)
        (headerSize + (8 + bytes.length)) w' →
      w'.Takes ops
        (⟨.vector (some (childType, UInt32.ofNat bytes.length)), w.size⟩ :: begun) more)
    (hsize : 8 + (bytes.length + more) = size)
    (hbody : size ≤ maxBody) (hroom : atomSize size ≤ w.spare.length) :
    w.Takes (op :: lock :: (ops ++ [.pop])) begun (atomSize size) := by
  have hfirst : headerSize + 8 + bytes.length ≤ w.spare.length := by
    unfold atomSize at hroom
    omega
  have hopen := accepts_enter hspace hmove hdepth hbegin
    (by simp only [List.length_append, length_word32]; omega)
  have hlocked := accepts_append.mpr ⟨_, hopen, accepts_lock hspace hlock hfirst⟩
  have hopened := w.extend_continues
    (⟨.vector (some (childType, UInt32.ofNat bytes.length)), w.size⟩ :: begun) w.completed
    (headerBytes type 0 ++
      (word32 childType ++ (word32 (UInt32.ofNat bytes.length) ++ bytes)))
  simp only [List.length_append, length_headerBytes, length_word32, ← Nat.add_assoc]
    at hopened hinner
  obtain ⟨content, rfl, hgrows⟩ := hinner _ hopened
  obtain ⟨completed, hitems⟩ := Grows.trans hlocked hgrows
  rw [List.append_assoc] at hitems
  have hlen : ((word32 childType ++ (word32 (UInt32.ofNat bytes.length) ++ bytes)) ++
      content).length = size := by
    simp only [List.length_append, length_word32]
    omega
  rw [← hlen] at hbody hroom ⊢
  obtain ⟨pad, hpad, hgrows⟩ := Grows.leave hspace hitems rfl hbody hroom
  exact ⟨_, length_record hpad.1, hgrows⟩

end Writer

/-- A writer that expects the symbol and has room for `size` bytes and `n` containers. -/
structure Symbol.Ready (s : Symbol) (v : Vocabulary) (n size : Nat) (w : Writer)
    (after : List Frame) : Prop where
  vocabulary : w.vocabulary = v
  space : w.exhausted = false
  expected : s.Expected w.frames after
  depth : w.depth + n ≤ maxDepth
  room : size ≤ w.spare.length

theorem Symbol.Ready.shrink {s : Symbol} {v : Vocabulary} {n size size' : Nat} {w : Writer}
    {after : List Frame} (h : s.Ready v n size w after) (hle : size' ≤ size) :
    s.Ready v n size' w after :=
  { h with room := Nat.le_trans hle h.room }

theorem Symbol.Ready.after {s s' : Symbol} {v : Vocabulary} {n size size' count : Nat}
    {w w' : Writer} {frames after after' : List Frame} (h : s.Ready v n size w after)
    (hw : w.Continues frames count w') (hexpected : s'.Expected frames after')
    (hlen : frames.length = w.frames.length) (hroom : count + size' ≤ size) :
    s'.Ready v n size' w' after' := by
  refine ⟨hw.vocabulary.trans h.vocabulary, hw.exhausted.trans h.space, ?_, ?_, ?_⟩
  · rwa [hw.frames]
  · have hdepth := h.depth
    unfold Writer.depth at *
    rwa [hw.frames, hlen]
  · have hspare := h.room
    rw [hw.spare]
    omega

theorem Symbol.Ready.inside {s : Symbol} {v : Vocabulary} {n size size' count : Nat}
    {w w' : Writer} {frame : Frame} {begun after : List Frame}
    (h : Symbol.value.Ready v (n + 1) (atomSize size) w begun)
    (hw : w.Continues (frame :: begun) (headerSize + count) w')
    (hexpected : s.Expected (frame :: begun) after) (hroom : count + size' ≤ size) :
    s.Ready v n size' w' after := by
  have hlen := length_beginFrames h.expected
  refine ⟨hw.vocabulary.trans h.vocabulary, hw.exhausted.trans h.space, ?_, ?_, ?_⟩
  · rwa [hw.frames]
  · have hdepth := h.depth
    unfold Writer.depth at *
    rw [hw.frames, List.length_cons]
    omega
  · have hspare := h.room
    unfold atomSize at hspare
    rw [hw.spare]
    omega

theorem Symbol.Ready.depth_lt {v : Vocabulary} {n size : Nat} {w : Writer} {begun : List Frame}
    (h : Symbol.value.Ready v (n + 1) size w begun) : w.depth < maxDepth := by
  have hdepth := h.depth
  omega

/-- A key or a stamp and the value that it waits for. -/
theorem Symbol.Ready.labelled {s : Symbol} {v : Vocabulary} {n size : Nat} {w : Writer} {op : Op}
    {rest : List Op} {bytes : Bytes} {kind : FrameKind} {header : Nat} {outer : List Frame}
    (h : s.Ready v n (8 + size) w w.frames) (hframes : w.frames = ⟨kind, header⟩ :: outer)
    (hmove : op.move w.vocabulary w.frames = .ok (.label bytes)) (hlen : bytes.length = 8)
    (hbegin : kind.beginLabel.beginValue = .ok kind)
    (hlast : ∀ w', Symbol.value.Ready v n size w' w.frames → w'.Takes rest w.frames size) :
    w.Takes (op :: rest) w.frames (8 + size) := by
  have hroom : 8 ≤ w.spare.length := Nat.le_trans (Nat.le_add_right _ _) h.room
  have hlabel := Writer.Takes.label h.space hmove hframes hlen hroom
  refine hlabel.trans fun w' hw' => hlast w' (h.after hw' ?_ ?_ (Nat.le_refl _))
  · simp [Expected, beginFrames, hbegin, hframes]
  · simp [hframes]

namespace Derivation

variable {v : Vocabulary}

/-- A derivation is carried out by every writer that is ready for it. -/
theorem takes (hv : v.Resolved) {s : Symbol} {n : Nat} {ops : List Op} (d : Derivation v s n ops)
    {w : Writer} {after : List Frame} (h : s.Ready v n d.size w after) (hfits : d.Fits) :
    w.Takes ops after d.size := by
  -- The writer is left open, since the parts of a derivation start from different states.
  induction d generalizing w after with
  | scalar x =>
    have hmove : (Op.scalar (v.scalarType x.kind) x).move w.vocabulary w.frames =
        .ok (.leaf (v.scalarType x.kind) x.payload) := by
      rw [h.vocabulary]
      exact Op.scalarMove_leaf hv h.expected x
    exact .leaf h.space hmove h.expected x.length_payload hfits h.room
  | text form content =>
    have hmove := Op.move_text hv w.frames form content
    rw [← h.vocabulary] at hmove
    exact .leaf h.space hmove h.expected List.length_append hfits h.room
  | literal content lang datatype hone =>
    have hmove := Op.move_literal hv w.frames content hone
    rw [← h.vocabulary] at hmove
    refine .leaf h.space hmove h.expected ?_ hfits h.room
    simp only [List.length_append, length_word32, List.length_singleton]
    omega
  | chunk body =>
    have hmove := Op.move_chunk hv w.frames body
    rw [← h.vocabulary] at hmove
    exact .leaf h.space hmove h.expected rfl hfits h.room
  | atom type body htype =>
    exact .leaf h.space (Op.move_atom w.frames htype body) h.expected rfl hfits h.room
  | tuple items ih =>
    have hmove := Op.move_pushTuple hv w.frames
    rw [← h.vocabulary] at hmove
    refine .container h.space hmove h.depth_lt h.expected ?_ rfl (Nat.zero_add _) hfits.1 h.room
    intro w' hw'
    exact ih (h.inside hw' ⟨rfl, rfl⟩ (by simp)) hfits.2
  | object id otype items ih =>
    have hmove := Op.move_pushObject hv w.frames id otype
    rw [← h.vocabulary] at hmove
    refine .container h.space hmove h.depth_lt h.expected ?_ rfl rfl hfits.1 h.room
    intro w' hw'
    exact ih (h.inside hw' ⟨⟨_, _, rfl⟩, rfl⟩ (by simp)) hfits.2
  | sequence unit items ih =>
    have hmove := Op.move_pushSequence hv w.frames unit
    rw [← h.vocabulary] at hmove
    refine .container h.space hmove h.depth_lt h.expected ?_ rfl rfl hfits.1 h.room
    intro w' hw'
    exact ih (h.inside hw' ⟨⟨_, _, rfl⟩, rfl⟩ (by simp)) hfits.2
  | vector type width htype hwidth items ih =>
    have hmove := Op.move_pushVector hv w.frames htype hwidth
    rw [← h.vocabulary] at hmove
    refine .container h.space hmove h.depth_lt h.expected ?_ rfl rfl hfits.1 h.room
    intro w' hw'
    exact ih (h.inside hw' ⟨⟨_, _, rfl⟩, rfl⟩ (by simp)) hfits.2
  | emptyVector width =>
    have hmove := Op.move_pushVector_untyped hv w.frames width
    rw [← h.vocabulary] at hmove
    have hinner : ∀ w', w.Continues (⟨.vector none, w.size⟩ :: after) (headerSize + 8) w' →
        w'.Takes [] (⟨.vector none, w.size⟩ :: after) 0 := by
      intro w' hw'
      rw [← hw'.frames]
      exact .nil w'
    exact .container h.space hmove h.depth_lt h.expected hinner rfl rfl hfits h.room
  | lockedVector width x items ih =>
    have hmove := Op.move_pushVector_untyped hv w.frames width
    rw [← h.vocabulary] at hmove
    have hlock : (Op.scalar (v.scalarType x.kind) x).move w.vocabulary
        (⟨.vector none, w.size⟩ :: after) = .ok (.lock w.size (v.scalarType x.kind) x.payload) := by
      rw [h.vocabulary]
      exact Op.scalarMove_lock hv w.size after x
    refine .lockedVector h.space hmove hlock h.depth_lt h.expected ?_
      (by rw [x.length_payload]) hfits.1 h.room
    intro w' hw'
    rw [x.length_payload] at hw' ⊢
    exact ih (h.inside hw' ⟨⟨_, _, rfl⟩, rfl⟩ (by omega)) hfits.2
  | noValues =>
    rw [h.expected.2]
    exact .nil w
  | noProperties | noEvents | noElements =>
    rw [h.expected.2]
    exact .nil w
  | addValue items last ihItems ihLast =>
    have hbegin := h.expected.1
    obtain rfl := h.expected.2
    have hitems := ihItems (h.shrink (Nat.le_add_right _ _)) hfits.1
    apply hitems.trans
    intro w' hw'
    exact ihLast (h.after hw' hbegin rfl (Nat.le_refl _)) hfits.2
  | addProperty items key context hkey last ihItems ihLast =>
    obtain ⟨header, outer, hframes⟩ := h.expected.1
    obtain rfl := h.expected.2
    have hitems := ihItems (h.shrink (Nat.le_add_right _ _)) hfits.1
    apply hitems.trans
    intro w' hw'
    have hnow := hw'.frames.trans hframes
    have hmove : (Op.property key context).move w'.vocabulary w'.frames =
        .ok (.label (word32 key ++ word32 context)) := by
      rw [hnow]
      exact Op.move_property hkey context
    have hnext := h.after hw' h.expected rfl (Nat.le_refl _)
    rw [← hw'.frames] at hnext ⊢
    apply hnext.labelled hnow hmove (by simp) rfl
    intro w'' hw''
    exact ihLast hw'' hfits.2
  | addEvent items time htime last ihItems ihLast =>
    obtain ⟨header, outer, hframes⟩ := h.expected.1
    obtain rfl := h.expected.2
    have hitems := ihItems (h.shrink (Nat.le_add_right _ _)) hfits.1
    apply hitems.trans
    intro w' hw'
    have hnow := hw'.frames.trans hframes
    have hmove : (Op.stamp time).move w'.vocabulary w'.frames = .ok (.label time.payload) := by
      rw [hnow, ← htime]
      exact Op.move_stamp time
    have hnext := h.after hw' h.expected rfl (Nat.le_refl _)
    rw [← hw'.frames] at hnext ⊢
    apply hnext.labelled hnow hmove (by simp) rfl
    intro w'' hw''
    exact ihLast hw'' hfits.2
  | addElement items bytes hlen ih =>
    obtain ⟨header, outer, hframes⟩ := h.expected.1
    obtain rfl := h.expected.2
    have hitems := ih (h.shrink (Nat.le_add_right _ _)) hfits
    apply hitems.trans
    intro w' hw'
    have hnext := h.after hw' h.expected rfl (Nat.le_refl _)
    have hmove : (Op.element bytes).move w'.vocabulary w'.frames = .ok (.element bytes) := by
      rw [hw'.frames, hframes]
      exact Op.move_element hlen
    rw [← hw'.frames]
    exact .element hnext.space hmove rfl hnext.room
  | @addScalar n type width ops items x htype hwidth ih =>
    obtain ⟨header, outer, hframes⟩ := h.expected.1
    obtain rfl := h.expected.2
    have hitems := ih (h.shrink (Nat.le_add_right _ _)) hfits
    apply hitems.trans
    intro w' hw'
    have hnext := h.after hw' h.expected rfl (Nat.le_refl _)
    have hmove : (Op.scalar type x).move w'.vocabulary w'.frames = .ok (.element x.payload) := by
      rw [hw'.frames, hframes, hnext.vocabulary, htype]
      exact Op.scalarMove_element hv header outer x hwidth
    rw [← hw'.frames]
    exact .element hnext.space hmove x.length_payload hnext.room

end Derivation

end AtomWire

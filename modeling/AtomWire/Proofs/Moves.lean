import AtomWire.Writer.Op

/-!
# The moves behind the calls

A call is first checked against the vocabulary and the open containers, which turns it
into a move; only then is room claimed, and only then does anything change.
`Writer.attempt_eq` says so for every call, and all that is proved about runs of a writer
starts from it.
-/

namespace AtomWire

set_option autoImplicit false

section Outcomes

variable {ε α β : Type}

@[simp] theorem ok_bind (a : α) (f : α → Except ε β) : (Except.ok a >>= f) = f a := rfl

@[simp] theorem error_bind (e : ε) (f : α → Except ε β) :
    ((Except.error e : Except ε α) >>= f) = .error e := rfl

@[simp] theorem pure_eq_ok (a : α) : (pure a : Except ε α) = .ok a := rfl

@[simp] theorem map_ok (f : α → β) (a : α) : (Except.ok a : Except ε α).map f = .ok (f a) := rfl

@[simp] theorem map_error (f : α → β) (e : ε) :
    (Except.error e : Except ε α).map f = .error e := rfl

theorem bind_eq_ok_iff {x : Except ε α} {f : α → Except ε β} {b : β} :
    x >>= f = .ok b ↔ ∃ a, x = .ok a ∧ f a = .ok b := by
  cases x <;> simp

theorem map_bind_except {γ : Type} (x : Except ε α) (f : α → Except ε β) (g : β → γ) :
    (x >>= f).map g = x >>= fun a => (f a).map g := by
  cases x <;> rfl

theorem ensure_eq_ok_iff {condition : Bool} {e : WireError} {f : Unit → Except WireError α}
    {a : α} : (ensure condition e >>= f) = .ok a ↔ condition = true ∧ f () = .ok a := by
  cases condition <;> simp [ensure]

end Outcomes

/-- What a call amounts to once its checks have passed. -/
inductive Move where
  | skip (count : Nat)
  /-- A whole atom. -/
  | leaf (type : TypeId) (body : Bytes)
  | element (bytes : Bytes)
  /-- The first element of the vector at `header`, which gives the vector its type. -/
  | lock (header : Nat) (type : TypeId) (bytes : Bytes)
  /-- A key or a stamp. -/
  | label (bytes : Bytes)
  | enter (kind : FrameKind) (type : TypeId) (lead : Bytes)
  /-- The end of the container at `header`. -/
  | leave (header : Nat)
  | restart (buffer : Option Bytes)

/-- The frames after the start of a value in the innermost one. -/
def beginFrames : List Frame → Except WireError (List Frame)
  | [] => .ok []
  | frame :: outer => do
    let kind ← frame.kind.beginValue
    return { frame with kind } :: outer

theorem length_beginFrames {frames begun : List Frame} (h : beginFrames frames = .ok begun) :
    begun.length = frames.length := by
  cases frames with
  | nil =>
    cases h
    rfl
  | cons frame outer =>
    obtain ⟨kind, _, hbegun⟩ := bind_eq_ok_iff.mp h
    cases hbegun
    rfl

theorem isEmpty_beginFrames {frames begun : List Frame} (h : beginFrames frames = .ok begun) :
    begun.isEmpty = frames.isEmpty := by
  have hlen := length_beginFrames h
  cases frames <;> cases begun <;> simp_all

/-- The kind of a frame after a key or a stamp in it. -/
def FrameKind.beginLabel : FrameKind → FrameKind
  | object _ => object true
  | sequence unit _ => sequence unit true
  | kind => kind

namespace Op

def scalarMove (v : Vocabulary) (frames : List Frame) (type : TypeId) (value : Scalar) :
    Except WireError Move := do
  let bytes ← v.encode type value
  match frames with
  | ⟨.vector none, header⟩ :: _ => return .lock header type bytes
  | ⟨.vector (some (childType, width)), _⟩ :: _ => do
    ensure (childType = type ∧ width.toNat = bytes.length) .frameMismatch
    return .element bytes
  | _ => return .leaf type bytes

def typedMove (type : TypeId) (body : Bytes) : Except WireError Move := do
  ensure (type ≠ 0) .typeMismatch
  return .leaf type body

def enterMove (v : Vocabulary) (kind : FrameKind) (term : Term) (lead : Bytes) :
    Except WireError Move := do
  ensure (v.id term ≠ 0) .typeMismatch
  return .enter kind (v.id term) lead

def leaveMove (frames : List Frame) : Except WireError Move :=
  match frames with
  | [] => .error .frameUnderflow
  | frame :: _ => do
    ensure (!frame.kind.awaiting) .frameMismatch
    return .leave frame.header

/-- The move that a call asks for, if the vocabulary and the open containers allow it. -/
def move (v : Vocabulary) (frames : List Frame) : Op → Except WireError Move
  | .reserve count => .ok (.skip count)
  | .scalar type x => scalarMove v frames type x
  | .value x => scalarMove v frames (v.scalarType x.kind) x
  | .text form content => typedMove (v.id form.term) (content ++ [0])
  | .literal content lang datatype => do
    ensure (v.id .literal ≠ 0 ∧ (lang = 0 ∨ datatype = 0)) .typeMismatch
    return .leaf (v.id .literal) (word32 lang ++ word32 datatype ++ content ++ [0])
  | .chunk body => typedMove (v.id .chunk) body
  | .atom type body => typedMove type body
  | .pushVector childType width =>
    if childType = 0 then enterMove v (.vector none) .vector (word32 0 ++ word32 0)
    else do
      ensure (width ≠ 0) .frameMismatch
      enterMove v (.vector (some (childType, width))) .vector (word32 childType ++ word32 width)
  | .element bytes =>
    match frames with
    | ⟨.vector (some (_, width)), _⟩ :: _ => do
      ensure (bytes.length = width.toNat) .frameMismatch
      return .element bytes
    | _ => .error .frameMismatch
  | .pushTuple => enterMove v .tuple .tuple []
  | .pushObject id otype => enterMove v (.object false) .object (word32 id ++ word32 otype)
  | .property key context =>
    match frames with
    | ⟨.object false, _⟩ :: _ => do
      ensure (key ≠ 0) .typeMismatch
      return .label (word32 key ++ word32 context)
    | _ => .error .frameMismatch
  | .pushSequence unit =>
    enterMove v (.sequence unit false) .sequence (word32 (v.id unit.term) ++ word32 0)
  | .stamp time =>
    match frames with
    | ⟨.sequence unit false, _⟩ :: _ => do
      ensure (time.unit = unit) .typeMismatch
      return .label time.payload
    | _ => .error .frameMismatch
  | .pop => leaveMove frames
  | .popHandle handle =>
    match frames with
    | [] => .error .frameUnderflow
    | frame :: _ => do
      ensure (handle.depth = frames.length ∧ handle.offset = frame.header) .frameMismatch
      leaveMove frames
  | .reset buffer => .ok (.restart buffer)

end Op

/-- The open containers after a move made with `size` bytes written. -/
def Move.turn (size : Nat) (frames : List Frame) : Move → Except WireError (List Frame)
  | skip _ | element _ => .ok frames
  | leaf _ _ => beginFrames frames
  | lock header type bytes =>
    .ok (⟨.vector (some (type, UInt32.ofNat bytes.length)), header⟩ :: frames.tail)
  | label _ => .ok (frames.modifyHead fun frame => { frame with kind := frame.kind.beginLabel })
  | enter kind _ _ => do
    ensure (frames.length < maxDepth) .frameOverflow
    let begun ← beginFrames frames
    return ⟨kind, size⟩ :: begun
  | leave _ => .ok frames.tail
  | restart _ => .ok []

namespace Writer

/-- The size of the body that a move puts into a header. -/
def announced (w : Writer) : Move → Nat
  | .leaf _ body => body.length
  | .leave header => w.size - (header + headerSize)
  | _ => 0

/-- The room that a move takes. -/
def demand (w : Writer) : Move → Nat
  | .skip count => count
  | .leaf _ body => headerSize + body.length + padding body.length
  | .element bytes | .lock _ _ bytes | .label bytes => bytes.length
  | .enter _ _ lead => headerSize + lead.length
  | .leave header => padding (w.size - (header + headerSize))
  | .restart _ => 0

def reply (w : Writer) : Move → Reply
  | .skip _ => .offset w.size
  | .enter _ _ _ => .handle ⟨w.depth + 1, w.size⟩
  | _ => .done

/-- The writer after a move that leaves the given containers open. -/
def perform (w : Writer) (frames : List Frame) : Move → Writer
  | .skip count => w.append (w.spare.take count)
  | .leaf type body =>
    (({ w with frames }.append (headerBytes type body.length ++ body)).pad
      (padding body.length)).finishAtom
  | .element bytes => w.append bytes
  | .lock header type bytes =>
    { (w.patch (header + headerSize) (word32 type ++ word32 (UInt32.ofNat bytes.length))).append
        bytes with frames }
  | .label bytes => { w.append bytes with frames }
  | .enter _ type lead => { w.append (headerBytes type 0 ++ lead) with frames }
  | .leave header =>
    let bodySize := w.size - (header + headerSize)
    { (w.pad (padding bodySize)).patch (header + 4) (word32 (UInt32.ofNat bodySize)) with
      frames }.finishAtom
  | .restart buffer => w.reset (buffer.getD w.buffer)

/-- Claims the room for a move and makes it. -/
def carryOut (w : Writer) (move : Move) : Except WireError (Reply × Writer) := do
  let frames ← move.turn w.size w.frames
  ensure (w.announced move ≤ maxBody) .outOfSpace
  w.claim (w.demand move)
  return (w.reply move, w.perform frames move)

theorem beginValue_eq (w : Writer) :
    w.beginValue = (beginFrames w.frames).map fun frames => { w with frames } := by
  cases w with
  | mk vocabulary zeroPadding written spare frames completed exhausted =>
    cases frames with
    | nil => rfl
    | cons frame outer =>
      cases hkind : frame.kind.beginValue <;> simp [beginValue, beginFrames, hkind]

theorem putAtom_eq (w : Writer) (type : TypeId) (body : Bytes) :
    (w.putAtom type body).map (Reply.done, ·) = w.carryOut (.leaf type body) := by
  simp only [putAtom, beginValue_eq, carryOut, Move.turn]
  cases beginFrames w.frames with
  | error e => rfl
  | ok frames =>
    simp only [map_ok, ok_bind, map_bind_except]
    rfl

theorem putTyped_eq (w : Writer) (type : TypeId) (body : Bytes) :
    (w.putTyped type body).map (Reply.done, ·) = Op.typedMove type body >>= w.carryOut := by
  simp only [putTyped, Op.typedMove, map_bind_except, bind_assoc, putAtom_eq, pure_eq_ok, ok_bind]

theorem push_eq (w : Writer) (kind : FrameKind) (term : Term) (lead : Bytes) :
    ((w.push kind term lead).map fun r => (Reply.handle r.1, r.2)) =
      Op.enterMove w.vocabulary kind term lead >>= w.carryOut := by
  simp only [push, Op.enterMove, map_bind_except, bind_assoc, pure_eq_ok, ok_bind, carryOut,
    Move.turn, beginValue_eq, depth]
  congr 1
  funext _
  congr 1
  funext _
  cases hbegin : beginFrames w.frames with
  | error e => rfl
  | ok frames =>
    simp only [map_ok, ok_bind, reply, depth, length_beginFrames hbegin]
    rfl

theorem pop_eq (w : Writer) :
    w.pop.map (Reply.done, ·) = Op.leaveMove w.frames >>= w.carryOut := by
  unfold pop
  cases hframes : w.frames with
  | nil => rfl
  | cons frame outer =>
    simp only [Op.leaveMove, map_bind_except, bind_assoc, pure_eq_ok, ok_bind, carryOut, Move.turn,
      hframes]
    rfl

theorem putScalar_eq (w : Writer) (type : TypeId) (value : Scalar) :
    (w.putScalar type value).map (Reply.done, ·) =
      Op.scalarMove w.vocabulary w.frames type value >>= w.carryOut := by
  simp only [putScalar, Op.scalarMove, map_bind_except, bind_assoc]
  congr 1
  funext bytes
  cases hframes : w.frames with
  | nil => exact putAtom_eq w type bytes
  | cons frame outer =>
    obtain ⟨kind, header⟩ := frame
    cases kind with
    | vector lock =>
      cases lock with
      | none =>
        simp only [map_bind_except, ok_bind, pure_eq_ok, carryOut, Move.turn, hframes]
        rfl
      | some locked =>
        simp only [map_bind_except, bind_assoc, ok_bind, pure_eq_ok, carryOut, Move.turn]
        rfl
    | tuple => exact putAtom_eq w type bytes
    | object awaiting => exact putAtom_eq w type bytes
    | sequence unit awaiting => exact putAtom_eq w type bytes

theorem putElement_eq (w : Writer) (bytes : Bytes) :
    (w.putElement bytes).map (Reply.done, ·) =
      Op.move w.vocabulary w.frames (.element bytes) >>= w.carryOut := by
  simp only [putElement, Op.move]
  cases hframes : w.frames with
  | nil => rfl
  | cons frame outer =>
    obtain ⟨kind, header⟩ := frame
    cases kind with
    | vector lock =>
      cases lock with
      | none => rfl
      | some locked =>
        simp only [map_bind_except, bind_assoc, ok_bind, pure_eq_ok, carryOut, Move.turn]
        rfl
    | tuple => rfl
    | object awaiting => rfl
    | sequence unit awaiting => rfl

theorem putProperty_eq (w : Writer) (key context : TypeId) :
    (w.putProperty key context).map (Reply.done, ·) =
      Op.move w.vocabulary w.frames (.property key context) >>= w.carryOut := by
  simp only [putProperty, Op.move]
  cases hframes : w.frames with
  | nil => rfl
  | cons frame outer =>
    obtain ⟨kind, header⟩ := frame
    cases kind with
    | object awaiting =>
      cases awaiting with
      | true => rfl
      | false =>
        simp only [map_bind_except, bind_assoc, ok_bind, pure_eq_ok, carryOut, Move.turn, hframes]
        rfl
    | vector lock => rfl
    | tuple => rfl
    | sequence unit awaiting => rfl

theorem putStamp_eq (w : Writer) (stamp : Stamp) :
    (w.putStamp stamp).map (Reply.done, ·) =
      Op.move w.vocabulary w.frames (.stamp stamp) >>= w.carryOut := by
  simp only [putStamp, Op.move]
  cases hframes : w.frames with
  | nil => rfl
  | cons frame outer =>
    obtain ⟨kind, header⟩ := frame
    cases kind with
    | sequence unit awaiting =>
      cases awaiting with
      | true => rfl
      | false =>
        simp only [map_bind_except, bind_assoc, ok_bind, pure_eq_ok, carryOut, Move.turn, hframes,
          demand, Stamp.length_payload]
        rfl
    | vector lock => rfl
    | tuple => rfl
    | object awaiting => rfl

theorem popHandle_eq (w : Writer) (handle : Handle) :
    (w.popHandle handle).map (Reply.done, ·) =
      Op.move w.vocabulary w.frames (.popHandle handle) >>= w.carryOut := by
  simp only [popHandle, Op.move]
  cases hframes : w.frames with
  | nil => rfl
  | cons frame outer => simp only [map_bind_except, bind_assoc, pop_eq, depth, hframes]

/-- Every call is checked as a whole, then claims its room once, and only then acts. -/
theorem attempt_eq (w : Writer) (op : Op) :
    w.attempt op = op.move w.vocabulary w.frames >>= w.carryOut := by
  cases op with
  | reserve count =>
    simp only [attempt, reserve, map_bind_except]
    rfl
  | scalar type value => exact putScalar_eq w type value
  | value value => exact putScalar_eq w _ value
  | text form text => exact putTyped_eq w _ _
  | literal text lang datatype =>
    simp only [attempt, Op.move, bind_assoc, putAtom_eq, pure_eq_ok, ok_bind]
  | chunk body => exact putTyped_eq w _ body
  | atom type body => exact putTyped_eq w type body
  | pushVector childType width =>
    simp only [attempt, pushVector, Op.move]
    split
    · exact push_eq w _ _ _
    · simp only [map_bind_except, bind_assoc, push_eq]
  | element bytes => exact putElement_eq w bytes
  | pushTuple => exact push_eq w _ _ _
  | pushObject id otype => exact push_eq w _ _ _
  | property key context => exact putProperty_eq w key context
  | pushSequence unit => exact push_eq w _ _ _
  | stamp stamp => exact putStamp_eq w stamp
  | pop => exact pop_eq w
  | popHandle handle => exact popHandle_eq w handle
  | reset buffer => rfl

end Writer

end AtomWire

import AtomWire.Proofs.Records

/-!
# Steps and runs of a writer

What a successful call tells about the writer before and after it: the move it makes, the
containers that allow this move, and the bytes that come of it. A failed call changes
nothing but the mark that space has run out.
-/

namespace AtomWire

set_option autoImplicit false

/-- What the vocabulary and the open containers must be for a move. -/
def Move.Sound (v : Vocabulary) (frames : List Frame) : Move → Prop
  | skip _ | restart _ => True
  | leaf type _ => type ≠ 0
  | element bytes => ∃ type width header outer,
    frames = ⟨.vector (some (type, width)), header⟩ :: outer ∧ bytes.length = width.toNat
  | lock header type bytes => type ≠ 0 ∧ (bytes.length = 4 ∨ bytes.length = 8) ∧
    ∃ outer, frames = ⟨.vector none, header⟩ :: outer
  | label bytes => bytes.length = 8 ∧ ∃ kind header outer,
    frames = ⟨kind, header⟩ :: outer ∧
      (kind = .object false ∨ ∃ unit, kind = .sequence unit false)
  | enter kind type lead => type ≠ 0 ∧
    ((kind = .vector none ∧ type = v.id .vector ∧ lead = word32 0 ++ word32 0) ∨
      (∃ childType width, (childType ≠ 0 ∧ width ≠ 0) ∧ kind = .vector (some (childType, width)) ∧
        type = v.id .vector ∧ lead = word32 childType ++ word32 width) ∨
      (kind = .tuple ∧ type = v.id .tuple ∧ lead = []) ∨
      (kind = .object false ∧ type = v.id .object ∧ lead.length = 8) ∨
      (∃ unit, kind = .sequence unit false ∧ type = v.id .sequence ∧ lead.length = 8))
  | leave header => ∃ kind outer, frames = ⟨kind, header⟩ :: outer ∧ kind.awaiting = false

namespace Op

variable {v : Vocabulary} {frames : List Frame} {made : Move}

theorem encode_eq_ok_iff {type : TypeId} {x : Scalar} {bytes : Bytes} :
    v.encode type x = .ok bytes ↔ v.scalarKind? type = some x.kind ∧ bytes = x.payload := by
  unfold Vocabulary.encode
  split <;> simp_all [eq_comm]

theorem ne_zero_of_scalarKind? {type : TypeId} {kind : ScalarKind}
    (h : v.scalarKind? type = some kind) : type ≠ 0 := by
  intro hzero
  simp [Vocabulary.scalarKind?, hzero] at h

theorem width_eq_or (kind : ScalarKind) : kind.width = 4 ∨ kind.width = 8 := by
  cases kind <;> simp [ScalarKind.width]

theorem typedMove_eq_ok_iff {type : TypeId} {body : Bytes} :
    typedMove type body = .ok made ↔ type ≠ 0 ∧ made = .leaf type body := by
  simp only [typedMove, ensure_eq_ok_iff, decide_eq_true_eq, pure_eq_ok, Except.ok.injEq,
    @eq_comm _ made]

theorem enterMove_eq_ok_iff {kind : FrameKind} {term : Term} {lead : Bytes} :
    enterMove v kind term lead = .ok made ↔
      v.id term ≠ 0 ∧ made = .enter kind (v.id term) lead := by
  simp only [enterMove, ensure_eq_ok_iff, decide_eq_true_eq, pure_eq_ok, Except.ok.injEq,
    @eq_comm _ made]

theorem scalarMove_sound {type : TypeId} {x : Scalar} (h : scalarMove v frames type x = .ok made) :
    made.Sound v frames := by
  obtain ⟨bytes, hbytes, hmade⟩ := bind_eq_ok_iff.mp h
  clear h
  obtain ⟨hkind, rfl⟩ := encode_eq_ok_iff.mp hbytes
  have htype := ne_zero_of_scalarKind? hkind
  split at hmade
  · rename_i header outer
    cases hmade
    refine ⟨htype, ?_, outer, rfl⟩
    rw [Scalar.length_payload]
    exact width_eq_or x.kind
  · rename_i childType width header outer
    obtain ⟨hfit, hmade⟩ := ensure_eq_ok_iff.mp hmade
    simp only [decide_eq_true_eq] at hfit
    cases hmade
    exact ⟨childType, width, header, outer, rfl, hfit.2.symm⟩
  · cases hmade
    exact htype

theorem leaveMove_eq_ok (h : leaveMove frames = .ok made) : ∃ header, made = .leave header := by
  cases frames with
  | nil => cases h
  | cons frame outer =>
    obtain ⟨_, hmade⟩ := ensure_eq_ok_iff.mp h
    cases hmade
    exact ⟨frame.header, rfl⟩

theorem leaveMove_sound (h : leaveMove frames = .ok made) : made.Sound v frames := by
  cases frames with
  | nil => cases h
  | cons frame outer =>
    obtain ⟨hawaiting, h⟩ := ensure_eq_ok_iff.mp h
    cases h
    exact ⟨frame.kind, outer, rfl, by simpa using hawaiting⟩

theorem move_sound {op : Op} (h : op.move v frames = .ok made) : made.Sound v frames := by
  cases op with
  | reserve count | reset buffer =>
    cases h
    trivial
  | scalar type x | value x => exact scalarMove_sound h
  | text form content | chunk body | atom type body =>
    obtain ⟨htype, rfl⟩ := typedMove_eq_ok_iff.mp h
    exact htype
  | literal content lang datatype =>
    obtain ⟨htype, h⟩ := ensure_eq_ok_iff.mp h
    simp only [decide_eq_true_eq] at htype
    cases h
    exact htype.1
  | pushVector childType width =>
    simp only [move] at h
    split at h
    · obtain ⟨htype, rfl⟩ := enterMove_eq_ok_iff.mp h
      exact ⟨htype, Or.inl ⟨rfl, rfl, rfl⟩⟩
    · rename_i hchild
      obtain ⟨hwidth, h⟩ := ensure_eq_ok_iff.mp h
      obtain ⟨htype, rfl⟩ := enterMove_eq_ok_iff.mp h
      simp only [decide_eq_true_eq] at hwidth
      exact ⟨htype, Or.inr (Or.inl ⟨childType, width, ⟨hchild, hwidth⟩, rfl, rfl, rfl⟩)⟩
  | element bytes =>
    simp only [move] at h
    split at h
    · rename_i type width header outer
      obtain ⟨hlen, h⟩ := ensure_eq_ok_iff.mp h
      simp only [decide_eq_true_eq] at hlen
      cases h
      exact ⟨type, width, header, outer, rfl, hlen⟩
    · cases h
  | pushTuple =>
    obtain ⟨htype, rfl⟩ := enterMove_eq_ok_iff.mp h
    exact ⟨htype, Or.inr (Or.inr (Or.inl ⟨rfl, rfl, rfl⟩))⟩
  | pushObject id otype =>
    obtain ⟨htype, rfl⟩ := enterMove_eq_ok_iff.mp h
    exact ⟨htype, Or.inr (Or.inr (Or.inr (Or.inl ⟨rfl, rfl, by simp⟩)))⟩
  | property key context =>
    simp only [move] at h
    split at h
    · rename_i header outer
      obtain ⟨_, h⟩ := ensure_eq_ok_iff.mp h
      cases h
      exact ⟨by simp, _, header, outer, rfl, Or.inl rfl⟩
    · cases h
  | pushSequence unit =>
    obtain ⟨htype, rfl⟩ := enterMove_eq_ok_iff.mp h
    exact ⟨htype, Or.inr (Or.inr (Or.inr (Or.inr ⟨unit, rfl, rfl, by simp⟩)))⟩
  | stamp time =>
    simp only [move] at h
    split at h
    · rename_i unit header outer
      obtain ⟨_, h⟩ := ensure_eq_ok_iff.mp h
      cases h
      exact ⟨by simp, _, header, outer, rfl, Or.inr ⟨unit, rfl⟩⟩
    · cases h
  | pop => exact leaveMove_sound h
  | popHandle handle =>
    simp only [move] at h
    split at h
    · cases h
    · obtain ⟨_, h⟩ := ensure_eq_ok_iff.mp h
      exact leaveMove_sound h

end Op

namespace Writer

variable {w w' : Writer} {op : Op} {move : Move} {frames : List Frame}

/-- The call makes the move, the containers and the room allow it, and `frames` are the
containers that are open afterwards. -/
structure Allows (w : Writer) (op : Op) (move : Move) (frames : List Frame) : Prop where
  move_eq : op.move w.vocabulary w.frames = .ok move
  turn_eq : move.turn w.size w.frames = .ok frames
  announced_le : w.announced move ≤ maxBody
  demand_le : w.demand move ≤ w.spare.length

theorem Allows.sound (h : w.Allows op move frames) : move.Sound w.vocabulary w.frames :=
  Op.move_sound h.move_eq

theorem carryOut_eq_ok_iff {answer : Reply × Writer} :
    w.carryOut move = .ok answer ↔ ∃ frames, move.turn w.size w.frames = .ok frames ∧
      w.announced move ≤ maxBody ∧ w.demand move ≤ w.spare.length ∧
      answer = (w.reply move, w.perform frames move) := by
  rw [carryOut, bind_eq_ok_iff]
  simp only [claim, ensure_eq_ok_iff, decide_eq_true_eq, pure_eq_ok, Except.ok.injEq,
    @eq_comm _ _ answer]

theorem attempt_eq_ok_iff {answer : Reply × Writer} :
    w.attempt op = .ok answer ↔ ∃ move frames, w.Allows op move frames ∧
      answer = (w.reply move, w.perform frames move) := by
  rw [attempt_eq, bind_eq_ok_iff]
  constructor
  · rintro ⟨move, hmove, hcarry⟩
    obtain ⟨frames, hturn, hbody, hroom, hanswer⟩ := carryOut_eq_ok_iff.mp hcarry
    exact ⟨move, frames, ⟨hmove, hturn, hbody, hroom⟩, hanswer⟩
  · rintro ⟨move, frames, h, hanswer⟩
    exact ⟨move, h.move_eq,
      carryOut_eq_ok_iff.mpr ⟨frames, h.turn_eq, h.announced_le, h.demand_le, hanswer⟩⟩

theorem step_ok {reply : Reply} (h : w.step op = (.ok reply, w')) :
    ∃ move frames, w.Allows op move frames ∧ reply = w.reply move ∧
      w' = w.perform frames move := by
  unfold step at h
  split at h
  · cases h
  · cases hattempt : w.attempt op with
    | error e => cases e <;> rw [hattempt] at h <;> cases h
    | ok answer =>
      obtain ⟨move, frames, hallows, rfl⟩ := attempt_eq_ok_iff.mp hattempt
      rw [hattempt] at h
      cases h
      exact ⟨move, frames, hallows, rfl, rfl⟩

theorem step_of_attempt_ok {reply : Reply} (hspace : w.exhausted = false)
    (h : w.attempt op = .ok (reply, w')) : w.step op = (.ok reply, w') := by
  simp [step, hspace, h]

theorem step_of_attempt_outOfSpace (hspace : w.exhausted = false)
    (h : w.attempt op = .error .outOfSpace) :
    w.step op = (.error .outOfSpace, { w with exhausted := true }) := by
  simp [step, hspace, h]

theorem step_of_attempt_error {e : WireError} (hspace : w.exhausted = false)
    (he : e ≠ .outOfSpace) (h : w.attempt op = .error e) : w.step op = (.error e, w) := by
  cases e <;> simp_all [step]

theorem step_of_allows (hspace : w.exhausted = false) (h : w.Allows op move frames) :
    w.step op = (.ok (w.reply move), w.perform frames move) :=
  step_of_attempt_ok hspace (attempt_eq_ok_iff.mpr ⟨move, frames, h, rfl⟩)

theorem step_exhausted (h : w.exhausted = true) (hreset : op.isReset = false) :
    w.step op = (.error .outOfSpace, w) := by
  simp [step, h, hreset]

/-- A failed call leaves the writer as it was, up to the mark that space has run out. -/
theorem step_error_cases {e : WireError} (h : w.step op = (.error e, w')) :
    (e ≠ .outOfSpace ∧ w.exhausted = false ∧ w' = w) ∨
      (e = .outOfSpace ∧ w' = { w with exhausted := true }) := by
  unfold step at h
  split at h
  · rename_i hfull
    have hexhausted : w.exhausted = true := by simp_all
    cases h
    refine Or.inr ⟨rfl, ?_⟩
    rw [← hexhausted]
  · rename_i hspace
    cases hattempt : w.attempt op with
    | error e =>
      have hreset : op.isReset = false := by
        cases op with
        | reset buffer => cases hattempt
        | _ => rfl
      have hexhausted : w.exhausted = false := by simpa [hreset] using hspace
      rw [hattempt] at h
      cases e with
      | outOfSpace =>
        cases h
        exact Or.inr ⟨rfl, rfl⟩
      | _ =>
        cases h
        exact Or.inl ⟨nofun, hexhausted, rfl⟩
    | ok answer =>
      rw [hattempt] at h
      cases h

theorem step_error {e : WireError} (h : w.step op = (.error e, w')) :
    ∃ exhausted, w' = { w with exhausted } := by
  rcases step_error_cases h with ⟨_, _, rfl⟩ | ⟨_, rfl⟩
  · exact ⟨w'.exhausted, rfl⟩
  · exact ⟨true, rfl⟩

/-- All the calls succeed, one after another, and lead to `w'`. -/
def Accepts (w : Writer) (ops : List Op) (w' : Writer) : Prop :=
  (∀ reply ∈ (w.run ops).1, reply.isOk = true) ∧ (w.run ops).2 = w'

theorem accepts_nil : w.Accepts [] w' ↔ w = w' := by simp [Accepts, run]

theorem accepts_cons {rest : List Op} :
    w.Accepts (op :: rest) w' ↔ ∃ reply next, w.step op = (.ok reply, next) ∧
      next.Accepts rest w' := by
  unfold Accepts
  cases hstep : w.step op with
  | mk answer next =>
    cases answer with
    | error e => simp [run, hstep, Except.isOk, Except.toBool]
    | ok reply =>
      have hrun : w.run (op :: rest) = (.ok reply :: (next.run rest).1, (next.run rest).2) := by
        simp [run, hstep]
      simp [hrun, Except.isOk, Except.toBool]

theorem accepts_append {ops rest : List Op} :
    w.Accepts (ops ++ rest) w' ↔ ∃ mid, w.Accepts ops mid ∧ mid.Accepts rest w' := by
  induction ops generalizing w with
  | nil => simp [accepts_nil]
  | cons op ops ih =>
    simp only [List.cons_append, accepts_cons, ih]
    constructor
    · rintro ⟨reply, next, hstep, mid, hmid, hrest⟩
      exact ⟨mid, ⟨reply, next, hstep, hmid⟩, hrest⟩
    · rintro ⟨mid, ⟨reply, next, hstep, hmid⟩, hrest⟩
      exact ⟨reply, next, hstep, mid, hmid, hrest⟩

theorem accepts_of_allows (hspace : w.exhausted = false) (h : w.Allows op move frames) :
    w.Accepts [op] (w.perform frames move) :=
  accepts_cons.mpr ⟨_, _, step_of_allows hspace h, accepts_nil.mpr rfl⟩

end Writer

theorem overwrite_middle {before old patch after : Bytes} (h : patch.length = old.length) :
    overwrite (before ++ (old ++ after)) before.length patch = before ++ (patch ++ after) := by
  have hdrop : (before ++ (old ++ after)).drop (before.length + patch.length) = after := by
    rw [h, ← List.append_assoc, List.drop_left' (by simp)]
  rw [overwrite, List.take_left, hdrop, List.append_assoc]

/-- `count` bytes of padding, all of them zero where zeros are asked for. -/
def IsPadding (zero : Bool) (count : Nat) (pad : Bytes) : Prop :=
  pad.length = count ∧ (zero = true → pad = List.replicate count 0)

namespace Writer

variable {w : Writer} {frames : List Frame}

theorem finishAtom_eq (w : Writer) :
    w.finishAtom =
      { w with completed := if w.frames.isEmpty then w.completed + 1 else w.completed } := by
  unfold finishAtom
  split <;> rfl

/-- What a writer was made with and keeps for good. -/
def setup (w : Writer) : Vocabulary × Bool := (w.vocabulary, w.zeroPadding)

theorem perform_setup (w : Writer) (frames : List Frame) (move : Move) :
    (w.perform frames move).setup = w.setup := by
  cases move with
  | leaf type body | leave header =>
    rw [perform, finishAtom_eq]
    rfl
  | _ => rfl

theorem step_setup (w : Writer) (op : Op) : (w.step op).2.setup = w.setup := by
  cases hstep : w.step op with
  | mk answer next =>
    cases answer with
    | error e =>
      obtain ⟨exhausted, rfl⟩ := step_error hstep
      rfl
    | ok reply =>
      obtain ⟨move, frames, _, _, rfl⟩ := step_ok hstep
      exact perform_setup w frames move

theorem run_setup (w : Writer) (ops : List Op) : (w.run ops).2.setup = w.setup := by
  induction ops generalizing w with
  | nil => rfl
  | cons op rest ih => exact (ih _).trans (step_setup w op)

theorem perform_vocabulary (w : Writer) (frames : List Frame) (move : Move) :
    (w.perform frames move).vocabulary = w.vocabulary :=
  congrArg Prod.fst (perform_setup w frames move)

theorem run_vocabulary (w : Writer) (ops : List Op) :
    (w.run ops).2.vocabulary = w.vocabulary :=
  congrArg Prod.fst (run_setup w ops)

theorem run_zeroPadding (w : Writer) (ops : List Op) :
    (w.run ops).2.zeroPadding = w.zeroPadding :=
  congrArg Prod.snd (run_setup w ops)

theorem pad_eq {count : Nat} (h : count ≤ w.spare.length) :
    ∃ pad, IsPadding w.zeroPadding count pad ∧ w.pad count = w.append pad := by
  refine ⟨_, ?_, rfl⟩
  cases hzero : w.zeroPadding with
  | false => exact ⟨by simpa using h, by simp⟩
  | true => exact ⟨by simp, by simp⟩

theorem append_append (w : Writer) (x y : Bytes) : (w.append x).append y = w.append (x ++ y) := by
  simp [append, List.drop_drop]

theorem perform_leaf {type : TypeId} {body : Bytes} (frames : List Frame)
    (hroom : w.demand (.leaf type body) ≤ w.spare.length) :
    ∃ pad, IsPadding w.zeroPadding (padding body.length) pad ∧
      w.perform frames (.leaf type body) =
        ({ w with frames }.append (Record.bytes ⟨[], type, body, pad⟩)).finishAtom := by
  have hspare : padding body.length ≤
      ({ w with frames }.append (headerBytes type body.length ++ body)).spare.length := by
    simp only [demand, headerSize] at hroom
    simp only [append, List.length_drop, List.length_append, length_headerBytes]
    omega
  obtain ⟨pad, hpad, heq⟩ := pad_eq hspare
  refine ⟨pad, hpad, ?_⟩
  rw [perform, heq, append_append, Record.bytes]
  simp

theorem size_sub_header {outer content : Bytes} {type : TypeId}
    (hwritten : w.written = outer ++ (headerBytes type 0 ++ content)) :
    w.size - (outer.length + headerSize) = content.length := by
  simp only [size, hwritten, List.length_append, length_headerBytes, headerSize]
  omega

/-- Closing a container turns what was written since its opening into one record. -/
theorem perform_leave {outer content : Bytes} {type : TypeId} (frames : List Frame)
    (hwritten : w.written = outer ++ (headerBytes type 0 ++ content))
    (hroom : w.demand (.leave outer.length) ≤ w.spare.length) :
    ∃ pad, IsPadding w.zeroPadding (padding content.length) pad ∧
      w.perform frames (.leave outer.length) =
        { w with
          written := outer ++ Record.bytes ⟨[], type, content, pad⟩
          spare := w.spare.drop pad.length
          frames }.finishAtom := by
  have hsize := size_sub_header hwritten
  simp only [demand, hsize] at hroom
  obtain ⟨pad, hpad, heq⟩ := pad_eq hroom
  refine ⟨pad, hpad, ?_⟩
  -- The size field is the second word of the header, which was written as zero.
  have hpatch : overwrite (w.written ++ pad) (outer.length + 4)
      (word32 (UInt32.ofNat content.length)) =
        outer ++ Record.bytes ⟨[], type, content, pad⟩ := by
    have hsplit : w.written ++ pad = (outer ++ word32 type) ++
        (word32 (UInt32.ofNat 0) ++ (content ++ pad)) := by
      simp [hwritten, headerBytes]
    have hlen : outer.length + 4 = (outer ++ word32 type).length := by simp
    rw [hsplit, hlen, overwrite_middle (by simp)]
    simp [Record.bytes, headerBytes]
  simp only [perform, hsize, heq, patch, append, hpatch]

/-- The first element of a vector without a type fills in the words that lead its body. -/
theorem perform_lock {outer bytes : Bytes} {type childType : TypeId}
    (hwritten : w.written = outer ++ (headerBytes type 0 ++ (word32 0 ++ word32 0))) :
    w.perform frames (.lock outer.length childType bytes) =
      { w with
        written := outer ++ (headerBytes type 0 ++
          (word32 childType ++ (word32 (UInt32.ofNat bytes.length) ++ bytes)))
        spare := w.spare.drop bytes.length
        frames } := by
  have hpatch : overwrite w.written (outer.length + headerSize)
      (word32 childType ++ word32 (UInt32.ofNat bytes.length)) = outer ++ (headerBytes type 0 ++
        (word32 childType ++ word32 (UInt32.ofNat bytes.length))) := by
    have hsplit : w.written = (outer ++ headerBytes type 0) ++ ((word32 0 ++ word32 0) ++ []) := by
      simp [hwritten]
    have hlen : outer.length + headerSize = (outer ++ headerBytes type 0).length := by
      simp [headerSize]
    rw [hsplit, hlen, overwrite_middle (by simp)]
    simp
  simp only [perform, patch, hpatch, append]
  simp

end Writer

end AtomWire

import AtomWire.Proofs.Stores
import AtomWire.Writer.Command

/-!
# Commands end as the calls they carry out

A command in place checks, may use up what waits for a value, takes room and stores, in
this order. Each part is compared with the part of `Writer.attempt` that computes the same,
so that a command ends with the same answer and, unless space runs out, the same writer.
From call to call a writer kept in place thus shows what the computed one shows.
-/

namespace AtomWire

set_option autoImplicit false

/-- The open containers are as before, or what waited for a value in the innermost one is
used up. -/
def Begun (before after : List Frame) : Prop := after = before ∨ beginFrames before = .ok after

theorem Begun.length_eq {before after : List Frame} (h : Begun before after) :
    after.length = before.length := by
  rcases h with rfl | hbegin
  · rfl
  · exact length_beginFrames hbegin

/-- The result of a command in place bears out the outcome of the call: a success is the
same, a failure is the same and leaves the writer alone. Out of space may have used up
what waits for a value in the innermost container. -/
def Writer.EndsAs (w : Writer) (outcome : Except WireError (Reply × Writer)) :
    EStateM.Result WireError Writer Reply → Prop
  | .ok reply w' => outcome = .ok (reply, w')
  | .error e w' => outcome = .error e ∧ (e ≠ .outOfSpace → w' = w) ∧
    (e = .outOfSpace → ∃ frames, Begun w.frames frames ∧
      w' = { w with frames, exhausted := true })

theorem FrameKind.beginValue_eq_error {kind : FrameKind} {e : WireError}
    (h : kind.beginValue = .error e) : e = .frameMismatch := by
  unfold beginValue at h
  split at h <;> cases h <;> rfl

namespace Command

open EStateM

variable {α : Type} {w : Writer} {frames : List Frame} {command : Command Reply}
  {outcome : Except WireError (Reply × Writer)} {count : Nat}

theorem run_store (offset : Nat) (bytes : Bytes) :
    (store offset bytes).run w = .ok () (w.patch offset bytes) := rfl

theorem run_setFrames : (setFrames frames).run w = .ok () { w with frames } := rfl

theorem run_guardSpace (h : w.exhausted = false) : guardSpace.run w = .ok () w := by
  simp [guardSpace, h, ensure, check]

theorem run_reserve (h : w.exhausted = false) (hroom : count ≤ w.spare.length) :
    (reserve count).run w = .ok w.size (w.append (w.spare.take count)) := by
  simp only [reserve, run_bind, run_guardSpace h, run_get, if_pos hroom]
  rfl

theorem run_reserve_exhaust (h : w.exhausted = false) (hroom : ¬ count ≤ w.spare.length) :
    (reserve count).run w = .error .outOfSpace { w with exhausted := true } := by
  simp only [reserve, run_bind, run_guardSpace h, run_get, if_neg hroom]
  rfl

theorem run_fillPadding (offset count : Nat) :
    (fillPadding offset count).run w =
      .ok () (if w.zeroPadding then w.patch offset (List.replicate count 0) else w) := by
  simp only [fillPadding, run_bind, run_get]
  split <;> rfl

theorem endsAs_guardSpace (hspace : w.exhausted = false) (h : w.EndsAs outcome (command.run w)) :
    w.EndsAs outcome ((guardSpace >>= fun _ => command).run w) := by
  rwa [run_bind, run_guardSpace hspace]

theorem endsAs_get {f : Writer → Command Reply} (h : w.EndsAs outcome ((f w).run w)) :
    w.EndsAs outcome ((get >>= f).run w) := h

theorem endsAs_check {x : Except WireError α} {f : α → Command Reply}
    {g : α → Except WireError (Reply × Writer)} (hx : x ≠ .error .outOfSpace)
    (h : ∀ a, x = .ok a → w.EndsAs (g a) ((f a).run w)) :
    w.EndsAs (x >>= g) ((check x >>= f).run w) := by
  cases x with
  | ok a => exact h a rfl
  | error e => exact ⟨rfl, fun _ => rfl, fun he => absurd (congrArg Except.error he) hx⟩

theorem endsAs_ensure {condition : Bool} {e : WireError} {f : Unit → Command Reply}
    {g : Unit → Except WireError (Reply × Writer)} (he : e ≠ .outOfSpace)
    (h : condition = true → w.EndsAs (g ()) ((f ()).run w)) :
    w.EndsAs (ensure condition e >>= g) ((check (ensure condition e) >>= f).run w) := by
  apply endsAs_check
  · cases condition <;> simp [ensure, he]
  · intro _ hok
    apply h
    cases condition
    · cases hok
    · rfl

theorem endsAs_throw {e : WireError} (he : e ≠ .outOfSpace) {f : α → Command Reply} :
    w.EndsAs (.error e) ((throw e >>= f).run w) :=
  ⟨rfl, fun _ => rfl, fun h => absurd h he⟩

theorem endsAs_exhaust (hbegun : Begun w.frames frames) {f : α → Command Reply} :
    w.EndsAs (.error .outOfSpace) ((exhaust >>= f).run { w with frames }) :=
  ⟨rfl, fun h => absurd rfl h, fun _ => ⟨frames, hbegun, rfl⟩⟩

/-- The slot of a value is gone before its room is taken. What follows must still end as
from the writer before, so no check but those for space can come behind. -/
theorem endsAs_beginValue (hspace : w.exhausted = false)
    {g : List Frame → Except WireError (Reply × Writer)}
    (h : ∀ frames, beginFrames w.frames = .ok frames →
      w.EndsAs (g frames) (command.run { w with frames })) :
    w.EndsAs (beginFrames w.frames >>= g) ((beginValue >>= fun _ => command).run w) := by
  simp only [beginValue, run_bind, run_guardSpace hspace, run_get]
  cases hframes : w.frames with
  | nil =>
    have hw : { w with frames := [] } = w := by rw [← hframes]
    have hend := h [] (by rw [hframes, beginFrames])
    rw [hw] at hend
    exact hend
  | cons frame outer =>
    cases hkind : frame.kind.beginValue with
    | ok kind =>
      have hbegun : beginFrames w.frames = .ok ({ frame with kind } :: outer) := by
        simp [hframes, beginFrames, hkind]
      simpa [beginFrames, hkind, check, run_setFrames] using h _ hbegun
    | error e =>
      simp only [beginFrames, hkind, error_bind, check, run_bind]
      have he : e ≠ .outOfSpace := by
        rw [FrameKind.beginValue_eq_error hkind]
        decide
      exact ⟨rfl, fun _ => rfl, fun h => absurd h he⟩

/-- Room is looked at once, and nothing fails behind it. -/
theorem endsAs_reserve (frames : List Frame) (hspace : w.exhausted = false)
    (hbegun : Begun w.frames frames)
    {f : Nat → Command Reply} {reply : Reply} {w' : Writer}
    (h : count ≤ w.spare.length →
      (f w.size).run ({ w with frames }.append (w.spare.take count)) = .ok reply w') :
    w.EndsAs (w.claim count >>= fun _ => .ok (reply, w'))
      ((reserve count >>= f).run { w with frames }) := by
  rw [run_bind, Writer.claim]
  by_cases hroom : count ≤ w.spare.length
  · have hreserve := run_reserve (w := { w with frames }) hspace hroom
    have hrun := h hroom
    rw [hreserve, decide_eq_true hroom]
    change w.EndsAs (.ok (reply, w')) ((f w.size).run _)
    rw [hrun]
    rfl
  · have hreserve := run_reserve_exhaust (w := { w with frames }) hspace hroom
    rw [hreserve, decide_eq_false hroom]
    exact ⟨rfl, fun h => absurd rfl h, fun _ => ⟨frames, hbegun, rfl⟩⟩

/-- A size that no header can hold counts as space that has run out. -/
theorem endsAs_size (frames : List Frame) (hbegun : Begun w.frames frames) {size : Nat}
    {command : Command α} {f : α → Command Reply}
    (h : size ≤ maxBody → w.EndsAs outcome ((command >>= f).run { w with frames })) :
    w.EndsAs (ensure (size ≤ maxBody) .outOfSpace >>= fun _ => outcome)
      (((if size ≤ maxBody then command else exhaust) >>= f).run { w with frames }) := by
  by_cases hsize : size ≤ maxBody
  · rw [if_pos hsize, decide_eq_true hsize]
    exact h hsize
  · rw [if_neg hsize, decide_eq_false hsize]
    exact endsAs_exhaust hbegun

/-- A call that one kind of container takes. With any other container innermost, or none,
both sides refuse it. -/
theorem endsAs_innermost (taken : Prop) {move : Except WireError Move} {command : Command Unit}
    {f : Unit → Command Reply}
    (hrefused : ¬ taken → move = .error .frameMismatch ∧ command = throw .frameMismatch)
    (h : taken → w.EndsAs (move >>= w.carryOut) ((command >>= f).run w)) :
    w.EndsAs (move >>= w.carryOut) ((command >>= f).run w) := by
  by_cases htaken : taken
  · exact h htaken
  · obtain ⟨rfl, rfl⟩ := hrefused htaken
    exact endsAs_throw (by decide)

section Moves

variable (hspace : w.exhausted = false)
include hspace

theorem endsAs_putAtom (type : TypeId) (body : Bytes) :
    w.EndsAs (w.carryOut (.leaf type body)) ((putAtom type body).done.run w) := by
  simp only [done, putAtom, bind_assoc, openAtom]
  apply endsAs_beginValue hspace
  intro frames hbegin
  apply endsAs_size frames (Or.inr hbegin)
  intro _
  simp only [bind_assoc]
  apply endsAs_reserve frames hspace (Or.inr hbegin)
  intro hroom
  have hlength := length_headerBytes type body.length
  have hstore := Writer.store_atom { w with frames } (headerBytes type body.length) body
    (padding body.length) (by rwa [hlength])
  rw [hlength, ← Nat.add_assoc] at hstore
  simp only [run_bind, run_store, run_fillPadding, run_pure, run_modify]
  exact congrArg (fun w => Result.ok Reply.done (Writer.finishAtom w)) hstore

theorem endsAs_putBytes (bytes : Bytes) :
    w.EndsAs (w.carryOut (.element bytes)) ((putBytes bytes).done.run w) := by
  simp only [done, putBytes, bind_assoc]
  apply endsAs_reserve w.frames hspace (Or.inl rfl)
  intro hroom
  simp only [run_bind, run_store, run_pure]
  exact congrArg (Result.ok Reply.done) (Writer.patch_take_all hroom)

/-- A key or a stamp; the container waits for a value afterwards. -/
theorem endsAs_putLabel {bytes : Bytes} {after : List Frame}
    (hframes : Move.turn w.size w.frames (.label bytes) = .ok after) :
    w.EndsAs (w.carryOut (.label bytes))
      (EStateM.run (do putBytes bytes; setFrames after; return .done) w) := by
  simp only [putBytes, bind_assoc, Writer.carryOut, hframes]
  apply endsAs_reserve w.frames hspace (Or.inl rfl)
  intro hroom
  simp only [run_bind, run_store, run_setFrames, run_pure]
  have hstore : _ = w.append bytes := Writer.patch_take_all hroom
  exact congrArg (fun w => Result.ok Reply.done { w with frames := after }) hstore

/-- The first element of a vector without a type. -/
theorem endsAs_lock {header : Nat} {outer : List Frame} {type : TypeId} {bytes : Bytes}
    (hframes : w.frames = ⟨.vector none, header⟩ :: outer)
    (hfront : header + headerSize + 8 ≤ w.size) :
    let width := UInt32.ofNat bytes.length
    w.EndsAs (w.carryOut (.lock header type bytes)) (EStateM.run (do
      let start ← reserve bytes.length
      setFrames (⟨.vector (some (type, width)), header⟩ :: outer)
      store (header + headerSize) (word32 type ++ word32 width)
      store start bytes
      return .done) w) := by
  intro width
  simp only [Writer.carryOut, Move.turn, hframes, List.tail_cons]
  apply endsAs_reserve w.frames hspace (Or.inl rfl)
  intro hroom
  -- The words of the type go in front of the room that was just taken.
  have hwords : header + headerSize + (word32 type ++ word32 width).length ≤ w.size := by
    simpa using hfront
  have hstore := Writer.patch_behind hwords hroom
  simp only [run_bind, run_store, run_setFrames, run_pure]
  exact congrArg (fun w => Result.ok Reply.done
    { w with frames := ⟨.vector (some (type, width)), header⟩ :: outer }) hstore

theorem endsAs_push {kind : FrameKind} {term : Term} {lead : Bytes} :
    w.EndsAs (Op.enterMove w.vocabulary kind term lead >>= w.carryOut)
      ((push kind term lead).opened.run w) := by
  simp only [opened, push, bind_assoc, Op.enterMove, pure_eq_ok, ok_bind]
  apply endsAs_guardSpace hspace
  apply endsAs_get
  apply endsAs_ensure (by decide)
  intro _
  simp only [Writer.carryOut, Move.turn, bind_assoc, pure_eq_ok, ok_bind]
  apply endsAs_ensure (by decide)
  intro _
  apply endsAs_beginValue hspace
  intro frames hbegin
  have hlen := length_beginFrames hbegin
  apply endsAs_reserve frames hspace (Or.inr hbegin)
  intro hroom
  have hlength := length_headerBytes (w.vocabulary.id term) 0
  have hstore := Writer.patch_take_two { w with frames } (headerBytes (w.vocabulary.id term) 0)
    lead (by rwa [hlength])
  rw [hlength] at hstore
  simp only [run_bind, run_store, run_pure, run_modify, run_get, Writer.reply, Writer.depth, ← hlen]
  exact congrArg (fun w' : Writer => Result.ok (Reply.handle ⟨w'.frames.length + 1, w.size⟩)
    { w' with frames := ⟨kind, w.size⟩ :: w'.frames }) hstore

theorem endsAs_pop :
    w.EndsAs (Op.leaveMove w.frames >>= w.carryOut) (pop.done.run w) := by
  simp only [done, pop, bind_assoc]
  apply endsAs_guardSpace hspace
  apply endsAs_get
  cases hframes : w.frames with
  | nil => exact endsAs_throw (by decide)
  | cons frame outer =>
    simp only [Op.leaveMove, bind_assoc, pure_eq_ok, ok_bind]
    apply endsAs_ensure (by decide)
    intro _
    simp only [Writer.carryOut, Move.turn, hframes, pure_eq_ok, ok_bind]
    apply endsAs_size w.frames (Or.inl rfl)
    intro _
    simp only [bind_assoc]
    apply endsAs_reserve w.frames hspace (Or.inl rfl)
    intro hroom
    simp only [run_bind, run_store, run_fillPadding, run_setFrames, run_pure, run_modify]
    let bodySize := w.size - (frame.header + headerSize)
    exact congrArg (fun w' : Writer => Result.ok Reply.done
      { w'.patch (frame.header + 4) (word32 (UInt32.ofNat bodySize)) with
        frames := outer }.finishAtom) (Writer.fill_take hroom)

theorem endsAs_putTyped (type : TypeId) (body : Bytes) :
    w.EndsAs (Op.typedMove type body >>= w.carryOut) ((putTyped type body).done.run w) := by
  simp only [done, putTyped, bind_assoc, Op.typedMove, pure_eq_ok, ok_bind]
  apply endsAs_guardSpace hspace
  apply endsAs_ensure (by decide)
  intro _
  exact endsAs_putAtom hspace type body

theorem endsAs_putScalar (hroot : w.Rooted) (type : TypeId) (x : Scalar) :
    w.EndsAs (Op.scalarMove w.vocabulary w.frames type x >>= w.carryOut)
      ((putScalar type x).done.run w) := by
  simp only [done, putScalar, bind_assoc, Op.scalarMove]
  apply endsAs_guardSpace hspace
  apply endsAs_get
  apply endsAs_check
  · unfold Vocabulary.encode
    split <;> nofun
  intro bytes _
  cases hframes : w.frames with
  | nil => exact endsAs_putAtom hspace type bytes
  | cons frame outer =>
    obtain ⟨kind, header⟩ := frame
    cases kind with
    | vector lock =>
      cases lock with
      | none =>
        simp only [bind_assoc, pure_eq_ok, ok_bind]
        exact endsAs_lock hspace hframes (hroot.head hframes)
      | some locked =>
        simp only [bind_assoc, pure_eq_ok, ok_bind]
        apply endsAs_ensure (by decide)
        intro _
        exact endsAs_putBytes hspace bytes
    | tuple => exact endsAs_putAtom hspace type bytes
    | object awaiting => exact endsAs_putAtom hspace type bytes
    | sequence unit awaiting => exact endsAs_putAtom hspace type bytes

theorem endsAs_putElement (bytes : Bytes) :
    w.EndsAs (Op.move w.vocabulary w.frames (.element bytes) >>= w.carryOut)
      ((putElement bytes).done.run w) := by
  simp only [done, putElement, bind_assoc, Op.move]
  apply endsAs_guardSpace hspace
  apply endsAs_get
  refine endsAs_innermost
    (∃ type width header outer, w.frames = ⟨.vector (some (type, width)), header⟩ :: outer) ?_ ?_
  · intro hother
    constructor <;> split <;> simp_all
  · rintro ⟨type, width, header, outer, hframes⟩
    simp only [hframes, bind_assoc, pure_eq_ok, ok_bind]
    apply endsAs_ensure (by decide)
    intro _
    exact endsAs_putBytes hspace bytes

theorem endsAs_putProperty (key context : TypeId) :
    w.EndsAs (Op.move w.vocabulary w.frames (.property key context) >>= w.carryOut)
      ((putProperty key context).done.run w) := by
  simp only [done, putProperty, bind_assoc, Op.move]
  apply endsAs_guardSpace hspace
  apply endsAs_get
  refine endsAs_innermost (∃ header outer, w.frames = ⟨.object false, header⟩ :: outer) ?_ ?_
  · intro hother
    constructor <;> split <;> simp_all
  · rintro ⟨header, outer, hframes⟩
    simp only [hframes, bind_assoc, pure_eq_ok, ok_bind]
    apply endsAs_ensure (by decide)
    intro _
    apply endsAs_putLabel hspace
    rw [hframes]
    rfl

theorem endsAs_putStamp (time : Stamp) :
    w.EndsAs (Op.move w.vocabulary w.frames (.stamp time) >>= w.carryOut)
      ((putStamp time).done.run w) := by
  simp only [done, putStamp, bind_assoc, Op.move]
  apply endsAs_guardSpace hspace
  apply endsAs_get
  refine endsAs_innermost (∃ unit header outer, w.frames = ⟨.sequence unit false, header⟩ :: outer)
    ?_ ?_
  · intro hother
    constructor <;> split <;> simp_all
  · rintro ⟨unit, header, outer, hframes⟩
    simp only [hframes, bind_assoc, pure_eq_ok, ok_bind]
    apply endsAs_ensure (by decide)
    intro _
    apply endsAs_putLabel hspace
    rw [hframes]
    rfl

theorem endsAs_popHandle (handle : Handle) :
    w.EndsAs (Op.move w.vocabulary w.frames (.popHandle handle) >>= w.carryOut)
      ((popHandle handle).done.run w) := by
  simp only [done, popHandle, bind_assoc, Op.move]
  apply endsAs_guardSpace hspace
  apply endsAs_get
  have hpop := endsAs_pop hspace
  rw [Writer.depth]
  cases hframes : w.frames with
  | nil => exact endsAs_throw (by decide)
  | cons frame outer =>
    simp only [bind_assoc]
    apply endsAs_ensure (by decide)
    intro _
    rw [hframes] at hpop
    exact hpop

/-- Every call in place ends as `Writer.attempt` says. -/
theorem endsAs_command (hroot : w.Rooted) (op : Op) :
    w.EndsAs (w.attempt op) (op.command.run w) := by
  rw [Writer.attempt_eq]
  cases op with
  | reserve count =>
    apply endsAs_reserve w.frames hspace (Or.inl rfl)
    intro _
    rfl
  | scalar type x => exact endsAs_putScalar hspace hroot type x
  | value x => exact endsAs_get (endsAs_putScalar hspace hroot _ x)
  | text form content => exact endsAs_get (endsAs_putTyped hspace _ _)
  | literal content lang datatype =>
    simp only [Op.command, done, putLiteral, bind_assoc, Op.move, pure_eq_ok, ok_bind]
    apply endsAs_guardSpace hspace
    apply endsAs_get
    apply endsAs_ensure (by decide)
    intro _
    exact endsAs_putAtom hspace _ _
  | chunk body => exact endsAs_get (endsAs_putTyped hspace _ body)
  | atom type body => exact endsAs_putTyped hspace type body
  | pushVector childType width =>
    simp only [Op.command, opened, Command.pushVector, bind_assoc, Op.move]
    apply endsAs_guardSpace hspace
    split
    · exact endsAs_push hspace
    · simp only [bind_assoc]
      apply endsAs_ensure (by decide)
      intro _
      exact endsAs_push hspace
  | element bytes => exact endsAs_putElement hspace bytes
  | pushTuple => exact endsAs_push hspace
  | pushObject id otype => exact endsAs_push hspace
  | property key context => exact endsAs_putProperty hspace key context
  | pushSequence unit =>
    simp only [Op.command, opened, Command.pushSequence, bind_assoc]
    exact endsAs_get (endsAs_push hspace)
  | stamp time => exact endsAs_putStamp hspace time
  | pop => exact endsAs_pop hspace
  | popHandle handle => exact endsAs_popHandle hspace handle
  | reset buffer => rfl

end Moves

theorem run_guardSpace_exhausted (h : w.exhausted = true) :
    guardSpace.run w = .error .outOfSpace w := by
  simp [guardSpace, h, ensure, check]

theorem run_command_exhausted (h : w.exhausted = true) {op : Op} (hreset : op.isReset = false) :
    op.command.run w = .error .outOfSpace w := by
  have hguard := run_guardSpace_exhausted h
  cases op with
  | reset buffer => cases hreset
  | _ =>
    simp only [Op.command, done, opened, Command.reserve, putScalar, putTyped, putLiteral,
      putElement, push, Command.pushVector, Command.pushSequence, putProperty, putStamp,
      Command.pop, Command.popHandle, run_bind, run_get, hguard]

end Command

namespace Writer

variable {w real ideal : Writer} {op : Op}

theorem execute_exhausted (h : w.exhausted = true) (hreset : op.isReset = false) :
    w.execute op = (.error .outOfSpace, w) := by
  rw [execute, Command.run_command_exhausted h hreset]

/-- The writer kept in place shows what the computed one shows. Once space has run out, it
may have used up what waited for a value. -/
structure Mirrors (real ideal : Writer) : Prop where
  eq : real = { ideal with frames := real.frames }
  begun : Begun ideal.frames real.frames
  frames : ideal.exhausted = false → real.frames = ideal.frames

namespace Mirrors

theorem refl (w : Writer) : w.Mirrors w := ⟨rfl, Or.inl rfl, fun _ => rfl⟩

theorem depth (h : real.Mirrors ideal) : real.depth = ideal.depth := h.begun.length_eq

theorem eq_of_space (h : real.Mirrors ideal) (hspace : ideal.exhausted = false) :
    real = ideal := by
  rw [h.eq, h.frames hspace]

theorem exhausted (h : real.Mirrors ideal) : real.exhausted = ideal.exhausted := by rw [h.eq]

theorem written (h : real.Mirrors ideal) : real.written = ideal.written := by rw [h.eq]

theorem buffer (h : real.Mirrors ideal) : real.buffer = ideal.buffer := by
  rw [h.eq]
  rfl

theorem completed (h : real.Mirrors ideal) : real.completed = ideal.completed := by rw [h.eq]

theorem size (h : real.Mirrors ideal) : real.size = ideal.size := congrArg List.length h.written

theorem isComplete (h : real.Mirrors ideal) : real.isComplete = ideal.isComplete := by
  have hempty : real.frames.isEmpty = ideal.frames.isEmpty := by
    rw [Bool.eq_iff_iff, List.isEmpty_iff_length_eq_zero, List.isEmpty_iff_length_eq_zero]
    exact Eq.congr_left h.depth
  rw [Writer.isComplete, Writer.isComplete, hempty, h.exhausted, h.completed]

theorem of_space (hspace : w.exhausted = false) (hroot : w.Rooted) (op : Op) :
    (w.execute op).1 = (w.step op).1 ∧ (w.execute op).2.Mirrors (w.step op).2 := by
  have hends := Command.endsAs_command hspace hroot op
  unfold Writer.execute
  cases hrun : op.command.run w with
  | ok reply next =>
    rw [hrun] at hends
    rw [step_of_attempt_ok hspace hends]
    exact ⟨rfl, refl next⟩
  | error e next =>
    rw [hrun] at hends
    obtain ⟨hattempt, hkept, hfull⟩ := hends
    by_cases he : e = .outOfSpace
    · subst he
      obtain ⟨frames, hbegun, rfl⟩ := hfull rfl
      rw [step_of_attempt_outOfSpace hspace hattempt]
      exact ⟨rfl, rfl, hbegun, nofun⟩
    · rw [step_of_attempt_error hspace he hattempt, hkept he]
      exact ⟨rfl, refl w⟩

/-- A step in place mirrors the computed step. -/
theorem execute (h : real.Mirrors ideal) (hroot : ideal.Rooted) (op : Op) :
    (real.execute op).1 = (ideal.step op).1 ∧ (real.execute op).2.Mirrors (ideal.step op).2 := by
  cases hspace : ideal.exhausted with
  | false =>
    rw [h.eq_of_space hspace]
    exact of_space hspace hroot op
  | true =>
    cases hreset : op.isReset with
    | false =>
      rw [execute_exhausted (h.exhausted.trans hspace) hreset, step_exhausted hspace hreset]
      exact ⟨rfl, h⟩
    | true =>
      -- A reset does not look at the open containers.
      cases op with
      | reset buffer =>
        have hsame : real.execute (.reset buffer) = ideal.step (.reset buffer) := by
          rw [h.eq, step, Op.isReset, Bool.not_true, Bool.and_false]
          rfl
        rw [hsame]
        exact ⟨rfl, refl _⟩
      | _ => cases hreset

/-- A run in place mirrors the computed run. -/
theorem executeAll (h : real.Mirrors ideal) (hroot : ideal.Rooted) (ops : List Op) :
    (real.executeAll ops).1 = (ideal.run ops).1 ∧
      (real.executeAll ops).2.Mirrors (ideal.run ops).2 := by
  induction ops generalizing real ideal with
  | nil => exact ⟨rfl, h⟩
  | cons op rest ih =>
    obtain ⟨hanswer, hnext⟩ := h.execute hroot op
    obtain ⟨hanswers, hend⟩ := ih hnext (hroot.step op)
    rw [Writer.executeAll, run, hanswer, hanswers]
    exact ⟨rfl, hend⟩

end Mirrors

end Writer

end AtomWire

import AtomWire.Proofs.Commands
import AtomWire.Writer.Slots

/-!
# Slots out of use are never read

The slots in use, the top one first, are the list of open containers that the commands in
place work on. Every call on the slots does to this list what the command does, so what was
left in the other slots shows nowhere: it is cleared before the slot is in use again.
-/

namespace AtomWire

set_option autoImplicit false

/-- Nothing waits for a value but in objects and sequences. -/
def Slot.Tidy (s : Slot) : Prop := s.frameKind.awaiting = s.awaiting

theorem take_succ_set {α : Type} {l : List α} {n : Nat} (x : α) (h : n < l.length) :
    (l.set n x).take (n + 1) = l.take n ++ [x] := by
  have hlen : n < (l.set n x).length := by rwa [List.length_set]
  rw [List.take_succ_eq_append_getElem hlen, List.getElem_set_self,
    List.take_set_of_le (Nat.le_refl n)]

namespace SlotStack

variable (s : SlotStack)

theorem length_inUse : s.inUse.length = s.depth := by
  have hle := s.depth_le
  simp [inUse, hle]

theorem length_frames : s.frames.length = s.depth := by
  rw [frames, List.length_map, length_inUse]

theorem top?_eq : s.top? = s.inUse.head? := by
  have hle := s.depth_le
  rw [inUse, List.head?_reverse, List.getLast?_eq_getElem?, top?]
  by_cases hzero : s.depth = 0
  · simp [hzero]
  · have hlt : s.depth - 1 < s.depth := by omega
    simp [hzero, hle, hlt]

/-- Whatever stood in the slot is gone when it comes into use. -/
theorem inUse_push {kind : SlotKind} {header : Nat} (h : s.depth < maxDepth) :
    (s.push kind header).inUse = { kind, header } :: s.inUse := by
  have hlen : s.depth < s.slots.toList.length := by rwa [Vector.length_toList]
  simp only [push, dif_pos h, inUse, Vector.toList_set, take_succ_set _ hlen, List.reverse_append,
    List.reverse_singleton, List.singleton_append]

theorem inUse_modifyTop (f : Slot → Slot) : (s.modifyTop f).inUse = s.inUse.modifyHead f := by
  obtain ⟨slots, depth, hle⟩ := s
  cases depth with
  | zero => rfl
  | succ below =>
    have hlen : below < slots.toList.length := by rwa [Vector.length_toList]
    have htop : (SlotStack.mk slots (below + 1) hle).top? = some slots.toList[below] := by
      simp [top?]
    simp only [modifyTop, htop, inUse, Vector.toList_setIfInBounds, Nat.add_sub_cancel,
      take_succ_set _ hlen, List.take_succ_eq_append_getElem hlen, List.reverse_append,
      List.reverse_singleton, List.singleton_append, List.modifyHead_cons]

theorem inUse_pop : s.pop.inUse = s.inUse.tail := by
  have hle := s.depth_le
  rw [inUse, inUse, List.tail_reverse, List.dropLast_eq_take, List.take_take, List.length_take,
    Vector.length_toList, Nat.min_eq_left hle, Nat.min_eq_left (Nat.sub_le _ _), pop]

/-- Slots out of use play no part. -/
theorem inUse_congr {s s' : SlotStack} (hdepth : s'.depth = s.depth)
    (h : ∀ i < s.depth, s'.slots[i]? = s.slots[i]?) : s'.inUse = s.inUse := by
  have htake : s'.slots.toList.take s.depth = s.slots.toList.take s.depth := by
    apply List.ext_getElem?
    intro i
    by_cases hlt : i < s.depth
    · simpa [List.getElem?_take, hlt] using h i hlt
    · simp [hlt]
  rw [inUse, inUse, hdepth, htake]

end SlotStack

namespace SlotWriter

def Tidy (w : SlotWriter) : Prop := ∀ slot ∈ w.stack.inUse, slot.Tidy

/-- The calls on the slots end as the command does on the list, and what they return fits the
writer they leave. -/
def Mimics {α : Type} (w : SlotWriter) (slotted : SlotCommand α) (command : Command α)
    (fits : α → SlotWriter → Prop) : Prop :=
  match slotted.run w with
  | .ok a w' => command.run w.view = .ok a w'.view ∧ w'.Tidy ∧ fits a w'
  | .error e w' => command.run w.view = .error e w'.view ∧ w'.Tidy

end SlotWriter

/-- The command neither looks at the open containers nor changes them. -/
def Command.Blind {α : Type} (command : Command α) : Prop :=
  ∀ (w : Writer) (frames : List Frame), command.run { w with frames } =
    match command.run w with
    | .ok a w' => .ok a { w' with frames }
    | .error e w' => .error e { w' with frames }

namespace Command.Blind

variable {α β : Type}

theorem bind {command : Command α} {f : α → Command β} (h : command.Blind)
    (hf : ∀ a, (f a).Blind) : (command >>= f).Blind := by
  intro w frames
  rw [EStateM.run_bind, EStateM.run_bind, h w frames]
  cases command.run w with
  | ok a w' => exact hf a w' frames
  | error e w' => rfl

theorem pure (a : α) : (Pure.pure a : Command α).Blind := fun _ _ => rfl

theorem throw (e : WireError) : (MonadExcept.throw e : Command α).Blind := fun _ _ => rfl

theorem check (x : Except WireError α) : (Command.check x).Blind := by
  cases x with
  | ok a => exact pure a
  | error e => exact throw e

theorem modify {f : Writer → Writer} (h : ∀ w frames, f { w with frames } = { f w with frames }) :
    (modify f : Command Unit).Blind := fun w frames => congrArg (EStateM.Result.ok ()) (h w frames)

theorem exhaust : (Command.exhaust : Command α).Blind := (modify fun _ _ => rfl).bind fun _ => throw _

theorem store (offset : Nat) (bytes : Bytes) : (Command.store offset bytes).Blind :=
  modify fun _ _ => rfl

theorem guardSpace : Command.guardSpace.Blind := fun w frames => check _ w frames

theorem ite {condition : Prop} [Decidable condition] {first second : Command α}
    (h : first.Blind) (h' : second.Blind) : (if condition then first else second).Blind := by
  split
  · exact h
  · exact h'

theorem reserve (count : Nat) : (Command.reserve count).Blind := by
  refine guardSpace.bind fun _ => ?_
  intro w frames
  by_cases hroom : count ≤ w.spare.length
  · simp only [EStateM.run_bind, EStateM.run_get, if_pos hroom]
    rfl
  · simp only [EStateM.run_bind, EStateM.run_get, if_neg hroom]
    rfl

theorem fillPadding (offset count : Nat) : (Command.fillPadding offset count).Blind := by
  intro w frames
  simp only [run_fillPadding]
  split <;> rfl

theorem putBytes (bytes : Bytes) : (Command.putBytes bytes).Blind :=
  (reserve bytes.length).bind fun start => store start bytes

theorem openAtom (type : TypeId) (bodySize : Nat) : (Command.openAtom type bodySize).Blind := by
  refine ite ((reserve _).bind fun start => ?_) exhaust
  exact (store start _).bind fun _ => (fillPadding _ _).bind fun _ => pure _

end Command.Blind

namespace Command

/-- A container may be opened as one of another kind and changed afterwards. -/
theorem push_eq (kind first : FrameKind) (term : Term) (lead : Bytes) :
    push kind term lead = do
      let handle ← push first term lead
      modify fun w => { w with frames := w.frames.modifyHead ({ · with kind }) }
      return handle := by
  simp only [push, bind_assoc]
  rfl

theorem pushVector_eq (childType : TypeId) (width : UInt32) :
    pushVector childType width = (do
      guardSpace
      check (ensure (childType = 0 ∨ width ≠ 0) .frameMismatch)
      let width := if childType = 0 then 0 else width
      push ({ kind := .vector, childType, width } : Slot).frameKind .vector
        (word32 childType ++ word32 width)) := by
  by_cases hzero : childType = 0
  · subst hzero
    rfl
  · simp only [pushVector, Slot.frameKind, hzero, if_false, false_or]

end Command

namespace SlotWriter

variable {α β : Type} {w : SlotWriter} {fits : α → SlotWriter → Prop}

theorem Mimics.bind {slotted : SlotCommand α} {command : Command α} {f' : α → SlotCommand β}
    {f : α → Command β} {fits' : β → SlotWriter → Prop} (h : w.Mimics slotted command fits)
    (hf : ∀ a w', w'.Tidy → fits a w' → w'.Mimics (f' a) (f a) fits') :
    w.Mimics (slotted >>= f') (command >>= f) fits' := by
  unfold Mimics at h ⊢
  rw [EStateM.run_bind, EStateM.run_bind]
  cases hrun : slotted.run w with
  | ok a w' =>
    rw [hrun] at h
    rw [h.1]
    exact hf a w' h.2.1 h.2.2
  | error e w' =>
    rw [hrun] at h
    rw [h.1]
    exact ⟨rfl, h.2⟩

theorem Mimics.imp {slotted : SlotCommand α} {command : Command α}
    {fits' : α → SlotWriter → Prop} (h : w.Mimics slotted command fits)
    (himp : ∀ a w', fits a w' → fits' a w') : w.Mimics slotted command fits' := by
  unfold Mimics at h ⊢
  split at h
  · exact ⟨h.1, h.2.1, himp _ _ h.2.2⟩
  · exact h

/-- An answer that is made of what the call returns is the same on both sides. -/
theorem Mimics.answer {slotted : SlotCommand α} {command : Command α} {reply : α → Reply}
    (h : w.Mimics slotted command fits) :
    w.Mimics (slotted >>= fun a => pure (reply a)) (command >>= fun a => pure (reply a))
      fun _ _ => True :=
  h.bind fun _ _ htidy _ => ⟨rfl, htidy, trivial⟩

theorem Mimics.of_run {slotted : SlotCommand α} {command command' : Command α}
    (h : w.Mimics slotted command fits) (hrun : command'.run w.view = command.run w.view) :
    w.Mimics slotted command' fits := by
  unfold Mimics at h ⊢
  rwa [hrun]

theorem mimics_pure (htidy : w.Tidy) {a : α} (h : fits a w) : w.Mimics (pure a) (pure a) fits :=
  ⟨rfl, htidy, h⟩

theorem mimics_throw (htidy : w.Tidy) {e : WireError} :
    w.Mimics (throw e : SlotCommand α) (throw e) fits := ⟨rfl, htidy⟩

theorem mimics_get_bind {f' : SlotWriter → SlotCommand α} {f : Writer → Command α}
    (h : w.Mimics (f' w) (f w.view) fits) : w.Mimics (get >>= f') (get >>= f) fits := h

theorem run_onBase (command : Command α) : (SlotCommand.onBase command).run w =
    match command.run w.base with
    | .ok a base => .ok a { w with base }
    | .error e base => .error e { w with base } := rfl

/-- What does not look at the open containers is the same on both sides. -/
theorem mimics_onBase {command : Command α} (hblind : command.Blind) (htidy : w.Tidy) :
    w.Mimics (SlotCommand.onBase command) command fun _ w' => w'.stack = w.stack := by
  have hview : command.run w.view = _ := hblind w.base w.stack.frames
  unfold Mimics
  rw [run_onBase, hview]
  cases command.run w.base with
  | ok a base => exact ⟨rfl, htidy, rfl⟩
  | error e base => exact ⟨rfl, htidy⟩

/-- The same, with more to come. The slots are what they were. -/
theorem mimics_onBase_bind {command : Command α} {f' : α → SlotCommand β} {f : α → Command β}
    {fits : β → SlotWriter → Prop} (hblind : command.Blind) (htidy : w.Tidy)
    (h : ∀ a base, { w with base }.Tidy → { w with base }.Mimics (f' a) (f a) fits) :
    w.Mimics (SlotCommand.onBase command >>= f') (command >>= f) fits := by
  refine (mimics_onBase hblind htidy).bind fun a w' htidy' hfits => ?_
  obtain ⟨base, stack⟩ := w'
  obtain rfl : stack = w.stack := hfits
  exact h a base htidy'

theorem mimics_check_bind {x : Except WireError α} {f' : α → SlotCommand β} {f : α → Command β}
    {fits : β → SlotWriter → Prop} (htidy : w.Tidy)
    (h : ∀ a, x = .ok a → w.Mimics (f' a) (f a) fits) :
    w.Mimics (SlotCommand.onBase (Command.check x) >>= f') (Command.check x >>= f) fits := by
  cases x with
  | ok a => exact h a rfl
  | error e => exact ⟨rfl, htidy⟩

section Slots

variable {slot : Slot} {rest : List Slot}

theorem top?_of_nil (h : w.stack.inUse = []) : w.stack.top? = none := by
  rw [SlotStack.top?_eq, h, List.head?_nil]

theorem top?_of_cons (h : w.stack.inUse = slot :: rest) : w.stack.top? = some slot := by
  rw [SlotStack.top?_eq, h, List.head?_cons]

theorem frames_of_nil (h : w.stack.inUse = []) : w.view.frames = [] :=
  congrArg (List.map Slot.frame) h

theorem frames_of_cons (h : w.stack.inUse = slot :: rest) :
    w.view.frames = slot.frame :: rest.map Slot.frame := congrArg (List.map Slot.frame) h

theorem depth_view (w : SlotWriter) : w.view.depth = w.stack.depth := w.stack.length_frames

theorem tidy_of_cons (htidy : w.Tidy) (h : w.stack.inUse = slot :: rest) : slot.Tidy :=
  htidy slot (by rw [h]; exact List.mem_cons_self)

theorem run_topIf_of_nil {takes : Slot → Bool} (h : w.stack.inUse = []) :
    (SlotCommand.topIf takes).run w = .error .frameMismatch w := by
  simp only [SlotCommand.topIf, EStateM.run_bind, EStateM.run_get, top?_of_nil h]
  rfl

theorem run_topIf_of_cons {takes : Slot → Bool} (h : w.stack.inUse = slot :: rest) :
    (SlotCommand.topIf takes).run w =
      if takes slot then .ok slot w else .error .frameMismatch w := by
  simp only [SlotCommand.topIf, EStateM.run_bind, EStateM.run_get, top?_of_cons h]
  split <;> rfl

/-- A call that goes into the top slot, or is refused on both sides. -/
theorem mimics_topIf_bind {takes : Slot → Bool} {f' : Slot → SlotCommand α}
    {f : Writer → Command α} (htidy : w.Tidy)
    (hnone : w.view.frames = [] → f w.view = throw .frameMismatch)
    (hrefused : ∀ slot rest, w.view.frames = slot.frame :: rest → takes slot = false →
      f w.view = throw .frameMismatch)
    (h : ∀ slot rest, w.stack.inUse = slot :: rest → takes slot = true →
      w.Mimics (f' slot) (f w.view) fits) :
    w.Mimics (SlotCommand.topIf takes >>= f') (get >>= f) fits := by
  suffices hf : w.Mimics (SlotCommand.topIf takes >>= f') (f w.view) fits from hf
  unfold Mimics
  cases hslots : w.stack.inUse with
  | nil =>
    rw [EStateM.run_bind, run_topIf_of_nil hslots, hnone (frames_of_nil hslots)]
    exact ⟨rfl, htidy⟩
  | cons slot rest =>
    rw [EStateM.run_bind, run_topIf_of_cons hslots]
    cases htakes : takes slot with
    | true => exact h slot rest hslots htakes
    | false =>
      rw [hrefused slot _ (frames_of_cons hslots) htakes]
      exact ⟨rfl, htidy⟩

theorem mimics_onStack {f : SlotStack → SlotStack} {inUse : List Slot}
    (hslots : (f w.stack).inUse = inUse) (htidy : ∀ slot ∈ inUse, slot.Tidy) :
    w.Mimics (SlotCommand.onStack f) (Command.setFrames (inUse.map Slot.frame))
      fun _ w' => w'.stack.inUse = inUse := by
  have hframes : (f w.stack).frames = inUse.map Slot.frame := congrArg (List.map Slot.frame) hslots
  rw [← hslots] at htidy
  refine ⟨?_, htidy, hslots⟩
  rw [Command.run_setFrames, ← hframes]
  rfl

theorem mimics_modifyTop (f : Slot → Slot) (htidy : w.Tidy) (h : w.stack.inUse = slot :: rest)
    (hf : (f slot).Tidy) :
    w.Mimics (SlotCommand.onStack (.modifyTop f))
      (Command.setFrames ((f slot).frame :: rest.map Slot.frame))
      fun _ w' => w'.stack.inUse = f slot :: rest := by
  have hslots : (w.stack.modifyTop f).inUse = f slot :: rest := by
    rw [SlotStack.inUse_modifyTop, h, List.modifyHead_cons]
  rw [Tidy, h] at htidy
  exact mimics_onStack hslots (List.forall_mem_cons.mpr ⟨hf, (List.forall_mem_cons.mp htidy).2⟩)

theorem mimics_enter (kind : SlotKind) (header : Nat) (htidy : w.Tidy)
    (hroom : w.stack.depth < maxDepth) :
    w.Mimics (SlotCommand.onStack (.push kind header))
      (modify fun w => { w with frames := ⟨({ kind } : Slot).frameKind, header⟩ :: w.frames })
      fun _ w' => w'.stack.inUse = { kind, header } :: w.stack.inUse := by
  have hcleared : ({ kind, header } : Slot).Tidy := by cases kind <;> rfl
  exact (mimics_onStack (w.stack.inUse_push hroom)
    (List.forall_mem_cons.mpr ⟨hcleared, htidy⟩)).of_run rfl

theorem mimics_leave (htidy : w.Tidy) (h : w.stack.inUse = slot :: rest) :
    w.Mimics (SlotCommand.onStack .pop) (Command.setFrames (rest.map Slot.frame))
      fun _ w' => w'.stack.inUse = rest := by
  have hslots : w.stack.pop.inUse = rest := by rw [SlotStack.inUse_pop, h, List.tail_cons]
  rw [Tidy, h] at htidy
  exact mimics_onStack hslots (List.forall_mem_cons.mp htidy).2

theorem mimics_setFrames {frames : List Frame} (htidy : w.Tidy) (h : w.view.frames = frames) :
    w.Mimics (pure ()) (Command.setFrames frames) fun _ w' => w' = w := by
  subst h
  exact ⟨rfl, htidy, rfl⟩

theorem mimics_finishAtom (htidy : w.Tidy) :
    w.Mimics SlotCommand.finishAtom (modify Writer.finishAtom) fun _ _ => True := by
  refine mimics_get_bind (f := fun _ => modify Writer.finishAtom) ?_
  have hframes : w.view.frames.length = w.stack.depth := w.depth_view
  by_cases hdepth : w.stack.depth = 0
  · have hnil : w.view.frames = [] := List.length_eq_zero_iff.mp (hframes.trans hdepth)
    have hfinish : w.view.finishAtom = { w.view with completed := w.view.completed + 1 } :=
      if_pos (List.isEmpty_iff.mpr hnil)
    rw [if_pos hdepth]
    exact ⟨congrArg (EStateM.Result.ok ()) hfinish, htidy, trivial⟩
  · have hne : ¬ w.view.frames.isEmpty = true := by
      rwa [List.isEmpty_iff_length_eq_zero, hframes]
    have hfinish : w.view.finishAtom = w.view := if_neg hne
    rw [if_neg hdepth]
    exact ⟨congrArg (EStateM.Result.ok ()) hfinish, htidy, trivial⟩

theorem depth_of_inUse {w' : SlotWriter} {other : Slot} (h : w.stack.inUse = slot :: rest)
    (h' : w'.stack.inUse = other :: rest) : w'.stack.depth = w.stack.depth := by
  rw [← SlotStack.length_inUse, ← SlotStack.length_inUse, h, h', List.length_cons,
    List.length_cons]

theorem mimics_beginValue (htidy : w.Tidy) :
    w.Mimics SlotCommand.beginValue Command.beginValue fun _ w' =>
      w'.stack.depth = w.stack.depth := by
  refine mimics_onBase_bind .guardSpace htidy fun _ base htidy => mimics_get_bind ?_
  cases hslots : w.stack.inUse with
  | nil =>
    rw [top?_of_nil hslots, frames_of_nil (w := { w with base }) hslots]
    exact mimics_pure htidy rfl
  | cons slot rest =>
    have hframes := frames_of_cons (w := { w with base }) hslots
    rw [top?_of_cons hslots, hframes]
    obtain ⟨kind, awaiting, unit, childType, width, header⟩ := slot
    have hdepth {other : Slot} (w' : SlotWriter) (h : w'.stack.inUse = other :: rest) :=
      depth_of_inUse hslots h
    cases kind with
    | tuple =>
      exact (mimics_setFrames (w := { w with base }) htidy hframes).imp
        fun _ w' hsame => by rw [hsame]
    | vector => exact mimics_throw htidy
    | object | sequence =>
      cases awaiting with
      | false => exact mimics_throw htidy
      | true =>
        exact (mimics_modifyTop (w := { w with base }) ({ · with awaiting := false }) htidy hslots
          rfl).imp fun _ => hdepth

end Slots

section Commands

variable (htidy : w.Tidy)
include htidy

theorem mimics_putAtom (type : TypeId) (body : Bytes) :
    w.Mimics (SlotCommand.putAtom type body) (Command.putAtom type body) fun _ _ => True := by
  refine (mimics_beginValue htidy).bind fun _ w' htidy _ => ?_
  refine mimics_onBase_bind (.openAtom type body.length) htidy fun start base htidy => ?_
  refine mimics_onBase_bind (.store start body) htidy fun _ base htidy => ?_
  exact mimics_finishAtom htidy

theorem mimics_putTyped (type : TypeId) (body : Bytes) :
    w.Mimics (SlotCommand.putTyped type body) (Command.putTyped type body) fun _ _ => True := by
  refine mimics_onBase_bind .guardSpace htidy fun _ base htidy => ?_
  refine mimics_check_bind htidy fun _ _ => ?_
  exact mimics_putAtom htidy type body

theorem mimics_putLiteral (text : Bytes) (lang datatype : TypeId) :
    w.Mimics (SlotCommand.putLiteral text lang datatype) (Command.putLiteral text lang datatype)
      fun _ _ => True := by
  refine mimics_onBase_bind .guardSpace htidy fun _ base htidy => mimics_get_bind ?_
  refine mimics_check_bind htidy fun _ _ => ?_
  exact mimics_putAtom htidy _ _

/-- The vector gets a type that is not absent, which makes it a typed one on both sides. -/
theorem mimics_lock {slot : Slot} {rest : List Slot} {type : TypeId} {bytes : Bytes}
    (hslots : w.stack.inUse = slot :: rest) (hkind : slot.kind = .vector)
    (hzero : slot.childType = 0) (htype : type ≠ 0) :
    let width := UInt32.ofNat bytes.length
    w.Mimics (SlotCommand.appendElement slot type bytes) (do
      let start ← Command.reserve bytes.length
      Command.setFrames (⟨.vector (some (type, width)), slot.header⟩ :: rest.map Slot.frame)
      Command.store (slot.header + headerSize) (word32 type ++ word32 width)
      Command.store start bytes) fun _ _ => True := by
  intro width
  let locked : Slot := { slot with childType := type, width }
  have hframe : locked.frame = ⟨.vector (some (type, width)), slot.header⟩ := by
    simp [locked, Slot.frame, Slot.frameKind, hkind, htype]
  have hlocked : locked.Tidy := by
    have hslot := tidy_of_cons htidy hslots
    simpa [locked, Slot.Tidy, Slot.frameKind, hkind, FrameKind.awaiting] using hslot
  rw [SlotCommand.appendElement, if_pos hzero, ← hframe]
  refine mimics_onBase_bind (.reserve bytes.length) htidy fun start base htidy => ?_
  refine (mimics_modifyTop (w := { w with base }) _ htidy hslots hlocked).bind
    fun _ w' htidy _ => ?_
  refine mimics_onBase_bind (.store _ _) htidy fun _ base htidy => ?_
  exact (mimics_onBase (.store start bytes) htidy).imp fun _ _ _ => trivial

theorem mimics_putScalar (type : TypeId) (x : Scalar) :
    w.Mimics (SlotCommand.putScalar type x) (Command.putScalar type x) fun _ _ => True := by
  refine mimics_onBase_bind .guardSpace htidy fun _ base htidy => mimics_get_bind ?_
  refine mimics_check_bind htidy fun bytes hbytes => ?_
  have htype : type ≠ 0 := Op.ne_zero_of_scalarKind? (Op.encode_eq_ok_iff.mp hbytes).1
  cases hslots : w.stack.inUse with
  | nil =>
    rw [top?_of_nil hslots, frames_of_nil (w := { w with base }) hslots]
    exact mimics_putAtom htidy type bytes
  | cons slot rest =>
    rw [top?_of_cons hslots, frames_of_cons (w := { w with base }) hslots]
    cases hkind : slot.kind with
    | vector =>
      by_cases hzero : slot.childType = 0
      · have hframe : slot.frame = ⟨.vector none, slot.header⟩ := by
          simp [Slot.frame, Slot.frameKind, hkind, hzero]
        rw [hframe]
        simp only [hkind, if_pos]
        exact mimics_lock (w := { w with base }) htidy hslots hkind hzero htype
      · have hframe : slot.frame =
            ⟨.vector (some (slot.childType, slot.width)), slot.header⟩ := by
          simp [Slot.frame, Slot.frameKind, hkind, hzero]
        rw [hframe]
        simp only [hkind, if_pos, SlotCommand.appendElement, if_neg hzero]
        refine mimics_check_bind htidy fun _ _ => ?_
        exact (mimics_onBase (.putBytes bytes) htidy).imp fun _ _ _ => trivial
    | tuple | object | sequence =>
      obtain ⟨kind, awaiting, unit, childType, width, header⟩ := slot
      subst hkind
      exact mimics_putAtom htidy type bytes

theorem mimics_putElement (bytes : Bytes) :
    w.Mimics (SlotCommand.putElement bytes) (Command.putElement bytes) fun _ _ => True := by
  refine mimics_onBase_bind .guardSpace htidy fun _ base htidy => ?_
  refine mimics_topIf_bind htidy ?_ ?_ ?_
  · intro hframes
    rw [hframes]
  · intro slot rest hframes hrefused
    rw [hframes]
    obtain ⟨kind, awaiting, unit, childType, width, header⟩ := slot
    cases kind with
    | vector =>
      by_cases hzero : childType = 0
      · simp [Slot.frame, Slot.frameKind, hzero]
      · have hlen : ¬ bytes.length = width.toNat := by simpa [hzero] using hrefused
        simp only [Slot.frame, Slot.frameKind, if_neg hzero, ensure, hlen]
        rfl
    | tuple | object | sequence => rfl
  · intro slot rest hslots htakes
    simp only [decide_eq_true_eq] at htakes
    obtain ⟨hkind, hzero, hlen⟩ := htakes
    rw [frames_of_cons (w := { w with base }) hslots]
    simp only [Slot.frame, Slot.frameKind, hkind, if_neg hzero, ensure, hlen]
    exact (mimics_onBase (.putBytes bytes) htidy).imp fun _ _ _ => trivial

/-- What makes a container wait for a value: the bytes of a key or of a stamp. -/
theorem mimics_await {slot : Slot} {rest : List Slot} {bytes : Bytes} {kind : FrameKind}
    (hslots : w.stack.inUse = slot :: rest)
    (hkind : Slot.frameKind { slot with awaiting := true } = kind)
    (hawaiting : kind.awaiting = true) :
    w.Mimics (do
      SlotCommand.onBase (Command.putBytes bytes)
      SlotCommand.onStack (.modifyTop ({ · with awaiting := true })))
      (do
        Command.putBytes bytes
        Command.setFrames (⟨kind, slot.header⟩ :: rest.map Slot.frame)) fun _ _ => True := by
  subst hkind
  refine mimics_onBase_bind (.putBytes bytes) htidy fun _ base htidy => ?_
  exact (mimics_modifyTop (w := { w with base }) ({ · with awaiting := true }) htidy hslots
    hawaiting).imp fun _ _ _ => trivial

theorem mimics_putProperty (key context : TypeId) :
    w.Mimics (SlotCommand.putProperty key context) (Command.putProperty key context)
      fun _ _ => True := by
  refine mimics_onBase_bind .guardSpace htidy fun _ base htidy => ?_
  refine mimics_topIf_bind htidy ?_ ?_ ?_
  · intro hframes
    rw [hframes]
  · intro slot rest hframes hrefused
    rw [hframes]
    obtain ⟨kind, awaiting, unit, childType, width, header⟩ := slot
    cases kind with
    | object =>
      have hawaiting : awaiting = true := by simpa using hrefused
      rw [hawaiting]
      rfl
    | tuple | vector | sequence => rfl
  · intro slot rest hslots htakes
    rw [frames_of_cons (w := { w with base }) hslots]
    obtain ⟨kind, awaiting, unit, childType, width, header⟩ := slot
    obtain ⟨rfl, rfl⟩ : kind = .object ∧ awaiting = false := by simpa using htakes
    refine mimics_check_bind htidy fun _ _ => ?_
    exact mimics_await (w := { w with base }) htidy hslots rfl rfl

theorem mimics_putStamp (stamp : Stamp) :
    w.Mimics (SlotCommand.putStamp stamp) (Command.putStamp stamp) fun _ _ => True := by
  refine mimics_onBase_bind .guardSpace htidy fun _ base htidy => ?_
  refine mimics_topIf_bind htidy ?_ ?_ ?_
  · intro hframes
    rw [hframes]
  · intro slot rest hframes hrefused
    rw [hframes]
    obtain ⟨kind, awaiting, unit, childType, width, header⟩ := slot
    cases kind with
    | sequence =>
      have hawaiting : awaiting = true := by simpa using hrefused
      rw [hawaiting]
      rfl
    | tuple | vector | object => rfl
  · intro slot rest hslots htakes
    rw [frames_of_cons (w := { w with base }) hslots]
    obtain ⟨kind, awaiting, unit, childType, width, header⟩ := slot
    obtain ⟨rfl, rfl⟩ : kind = .sequence ∧ awaiting = false := by simpa using htakes
    refine mimics_check_bind htidy fun _ _ => ?_
    exact mimics_await (w := { w with base }) htidy hslots rfl rfl

/-- A container is opened as one of a cleared slot. -/
theorem mimics_push (kind : SlotKind) (term : Term) (lead : Bytes) :
    w.Mimics (SlotCommand.push kind term lead)
      (Command.push ({ kind } : Slot).frameKind term lead)
      fun _ w' => ∃ header rest, w'.stack.inUse = { kind, header } :: rest := by
  refine mimics_onBase_bind .guardSpace htidy fun _ base htidy => mimics_get_bind ?_
  refine mimics_check_bind htidy fun _ _ => ?_
  rw [depth_view]
  refine mimics_check_bind htidy fun _ hroom => ?_
  refine (mimics_beginValue htidy).bind fun _ w' htidy hsame => ?_
  refine mimics_onBase_bind (.reserve _) htidy fun start base htidy => ?_
  refine mimics_onBase_bind (.store start _) htidy fun _ base htidy => ?_
  refine mimics_onBase_bind (.store _ lead) htidy fun _ base htidy => ?_
  have hlt : w'.stack.depth < maxDepth := by
    rw [hsame]
    simpa [ensure] using hroom
  refine (mimics_enter kind start htidy hlt).bind fun _ w' htidy hslots => mimics_get_bind ?_
  rw [depth_view]
  exact mimics_pure htidy ⟨start, _, hslots⟩

/-- What a container is beyond its kind goes into its slot once it is open. -/
theorem mimics_push_modifyTop {kind : SlotKind} {term : Term} {lead : Bytes} (f : Slot → Slot)
    (hf : ∀ header, (f { kind, header }).Tidy ∧
      (f { kind, header }).frame = ⟨(f { kind }).frameKind, header⟩) :
    w.Mimics (do
      let handle ← SlotCommand.push kind term lead
      SlotCommand.onStack (.modifyTop f)
      return handle)
      (Command.push (f { kind }).frameKind term lead) fun _ _ => True := by
  rw [Command.push_eq (f { kind }).frameKind ({ kind } : Slot).frameKind]
  refine (mimics_push htidy kind term lead).bind fun handle w' htidy hopen => ?_
  obtain ⟨header, rest, hslots⟩ := hopen
  obtain ⟨hset, hframe⟩ := hf header
  have hhead : w'.view.frames.modifyHead ({ · with kind := (f { kind }).frameKind }) =
      (f { kind, header }).frame :: rest.map Slot.frame := by
    rw [frames_of_cons hslots, List.modifyHead_cons, hframe]
    rfl
  refine (mimics_modifyTop f htidy hslots hset).of_run ?_ |>.bind
    fun _ w' htidy _ => mimics_pure htidy trivial
  rw [← hhead]
  rfl

theorem mimics_pushVector (childType : TypeId) (width : UInt32) :
    w.Mimics (SlotCommand.pushVector childType width) (Command.pushVector childType width)
      fun _ _ => True := by
  rw [Command.pushVector_eq]
  refine mimics_onBase_bind .guardSpace htidy fun _ base htidy => ?_
  refine mimics_check_bind htidy fun _ _ => ?_
  exact mimics_push_modifyTop htidy _ fun _ => ⟨rfl, rfl⟩

theorem mimics_pushSequence (unit : TimeUnit) :
    w.Mimics (SlotCommand.pushSequence unit) (Command.pushSequence unit) fun _ _ => True := by
  refine mimics_get_bind ?_
  exact mimics_push_modifyTop htidy ({ · with unit }) fun _ => ⟨rfl, rfl⟩

theorem mimics_pop : w.Mimics SlotCommand.pop Command.pop fun _ _ => True := by
  refine mimics_onBase_bind .guardSpace htidy fun _ base htidy => mimics_get_bind ?_
  cases hslots : w.stack.inUse with
  | nil =>
    rw [top?_of_nil hslots, frames_of_nil (w := { w with base }) hslots]
    exact mimics_throw htidy
  | cons slot rest =>
    have hslot : slot.frame.kind.awaiting = slot.awaiting := tidy_of_cons htidy hslots
    rw [top?_of_cons hslots, frames_of_cons (w := { w with base }) hslots]
    dsimp only
    rw [hslot]
    refine mimics_check_bind htidy fun _ _ => ?_
    change Mimics _ (if base.size - (slot.header + headerSize) ≤ maxBody then _ else _)
      (if base.size - (slot.header + headerSize) ≤ maxBody then _ else _) _
    split
    · refine mimics_onBase_bind (.reserve _) htidy fun start base htidy => ?_
      refine mimics_onBase_bind (.fillPadding start _) htidy fun _ base htidy => ?_
      refine mimics_onBase_bind (.store _ _) htidy fun _ base htidy => ?_
      refine (mimics_leave htidy hslots).bind fun _ w' htidy _ => ?_
      exact mimics_finishAtom htidy
    · exact (mimics_onBase .exhaust htidy).imp fun _ _ _ => trivial

theorem mimics_popHandle (handle : Handle) :
    w.Mimics (SlotCommand.popHandle handle) (Command.popHandle handle) fun _ _ => True := by
  refine mimics_onBase_bind .guardSpace htidy fun _ base htidy => mimics_get_bind ?_
  cases hslots : w.stack.inUse with
  | nil =>
    rw [top?_of_nil hslots, frames_of_nil (w := { w with base }) hslots]
    exact mimics_throw htidy
  | cons slot rest =>
    rw [top?_of_cons hslots, frames_of_cons (w := { w with base }) hslots]
    dsimp only
    rw [depth_view]
    refine mimics_check_bind htidy fun _ _ => ?_
    exact mimics_pop htidy

theorem mimics_slotCommand (op : Op) :
    w.Mimics op.slotCommand op.command fun _ _ => True := by
  cases op with
  | reserve count =>
    exact (mimics_onBase (.reserve count) htidy).bind fun _ _ htidy _ => mimics_pure htidy trivial
  | scalar type x => exact (mimics_putScalar htidy type x).answer
  | value x => exact mimics_get_bind (mimics_putScalar htidy _ x).answer
  | text form content => exact mimics_get_bind (mimics_putTyped htidy _ _).answer
  | literal content lang datatype => exact (mimics_putLiteral htidy content lang datatype).answer
  | chunk body => exact mimics_get_bind (mimics_putTyped htidy _ body).answer
  | atom type body => exact (mimics_putTyped htidy type body).answer
  | pushVector childType width => exact (mimics_pushVector htidy childType width).answer
  | element bytes => exact (mimics_putElement htidy bytes).answer
  | pushTuple => exact (mimics_push htidy .tuple .tuple []).answer
  | pushObject id otype => exact (mimics_push htidy .object .object _).answer
  | property key context => exact (mimics_putProperty htidy key context).answer
  | pushSequence unit => exact (mimics_pushSequence htidy unit).answer
  | stamp time => exact (mimics_putStamp htidy time).answer
  | pop => exact (mimics_pop htidy).answer
  | popHandle handle => exact (mimics_popHandle htidy handle).answer
  | reset buffer => exact ⟨rfl, fun _ hnone => absurd hnone List.not_mem_nil, trivial⟩

end Commands

/-- A call on the slots is answered as in place, and leaves the same containers open. -/
theorem execute_view (htidy : w.Tidy) (op : Op) :
    w.view.execute op = ((w.execute op).1, (w.execute op).2.view) ∧ (w.execute op).2.Tidy := by
  have hmimics := mimics_slotCommand htidy op
  unfold Mimics at hmimics
  unfold execute Writer.execute
  cases hrun : op.slotCommand.run w with
  | ok reply w' =>
    rw [hrun] at hmimics
    rw [hmimics.1]
    exact ⟨rfl, hmimics.2.1⟩
  | error e w' =>
    rw [hrun] at hmimics
    rw [hmimics.1]
    exact ⟨rfl, hmimics.2⟩

theorem executeAll_view (htidy : w.Tidy) (ops : List Op) :
    w.view.executeAll ops = ((w.executeAll ops).1, (w.executeAll ops).2.view) := by
  induction ops generalizing w with
  | nil => rfl
  | cons op rest ih =>
    obtain ⟨hfirst, htidy⟩ := execute_view htidy op
    rw [Writer.executeAll, hfirst, ih htidy]
    rfl

theorem tidy_executeAll (htidy : w.Tidy) (ops : List Op) : (w.executeAll ops).2.Tidy := by
  induction ops generalizing w with
  | nil => exact htidy
  | cons op rest ih => exact ih (execute_view htidy op).2

theorem tidy_create (vocabulary : Vocabulary) (zeroPadding : Bool) (buffer : Bytes) :
    (create vocabulary zeroPadding buffer).Tidy := fun _ hnone => absurd hnone List.not_mem_nil

/-- A writer that keeps its open containers in slots is the writer in place: it answers every
list of calls alike and shows the same buffer and the same open containers behind it. -/
theorem executeAll_create (vocabulary : Vocabulary) (zeroPadding : Bool) (buffer : Bytes)
    (ops : List Op) :
    let slotted := (create vocabulary zeroPadding buffer).executeAll ops
    (Writer.create vocabulary zeroPadding buffer).executeAll ops =
      (slotted.1, slotted.2.view) :=
  executeAll_view (tidy_create vocabulary zeroPadding buffer) ops

/-- What is not seen in the view plays no part in any answer. -/
theorem executeAll_congr {w' : SlotWriter} (htidy : w.Tidy) (htidy' : w'.Tidy)
    (hview : w'.view = w.view) (ops : List Op) :
    (w'.executeAll ops).1 = (w.executeAll ops).1 ∧
      (w'.executeAll ops).2.view = (w.executeAll ops).2.view := by
  have hrun := executeAll_view htidy' ops
  rw [hview, executeAll_view htidy ops] at hrun
  obtain ⟨hanswers, hviews⟩ := Prod.mk.inj hrun
  exact ⟨hanswers.symm, hviews.symm⟩

/-- What the slots out of use hold is never read: were it anything else, every list of calls
would be answered alike and show the same writer behind it. -/
theorem executeAll_stale (vocabulary : Vocabulary) (zeroPadding : Bool) (buffer : Bytes)
    (earlier later : List Op) (slots : Vector Slot maxDepth) :
    let w := ((create vocabulary zeroPadding buffer).executeAll earlier).2
    let other : SlotWriter := ⟨w.base, slots, w.stack.depth, w.stack.depth_le⟩
    (∀ i < w.stack.depth, slots[i]? = w.stack.slots[i]?) →
      (other.executeAll later).1 = (w.executeAll later).1 ∧
        (other.executeAll later).2.view = (w.executeAll later).2.view := by
  intro w other hsame
  have htidy : w.Tidy := tidy_executeAll (tidy_create vocabulary zeroPadding buffer) earlier
  have hslots : other.stack.inUse = w.stack.inUse := SlotStack.inUse_congr rfl hsame
  have hview : other.view = w.view := by
    rw [view, view, SlotStack.frames, SlotStack.frames, hslots]
  have htidy' : other.Tidy := by rwa [Tidy, hslots]
  exact executeAll_congr htidy htidy' hview later

/-- A writer started anew answers as a fresh one, although none of its slots is cleared. -/
theorem executeAll_reset (w : SlotWriter) (buffer : Option Bytes) (ops : List Op) :
    let renewed := (w.execute (.reset buffer)).2
    let fresh := create w.base.vocabulary w.base.zeroPadding (buffer.getD w.base.buffer)
    renewed.stack.slots = w.stack.slots ∧
      (renewed.executeAll ops).1 = (fresh.executeAll ops).1 ∧
      (renewed.executeAll ops).2.view = (fresh.executeAll ops).2.view := by
  intro renewed fresh
  have htidy : renewed.Tidy := fun _ hnone => absurd hnone List.not_mem_nil
  exact ⟨rfl, executeAll_congr (tidy_create _ _ _) htidy rfl ops⟩

end SlotWriter

end AtomWire

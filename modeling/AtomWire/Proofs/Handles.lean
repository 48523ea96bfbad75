import Mathlib.Data.List.Forall2
import AtomWire.Proofs.Capacity

/-!
# A handle closes its own container

A handle says at which depth its container was opened and where the header is, and nothing
marks it as used. Containers that are open together differ in depth. Containers opened one
after the other may share the depth, but the cursor never moves back and every header takes
room, so they differ in the header. Hence a handle fits no container but its own.
-/

namespace AtomWire

set_option autoImplicit false

section Stacks

variable {α β : Type}

/-- A stack with an entry for every open container, after a call. Only a call that opens a
container is answered by a handle. -/
def Op.restack (op : Op) (entry : Handle → α) (stack : List α) : Except WireError Reply → List α
  | .ok (.handle handle) => entry handle :: stack
  | .ok _ =>
    match op.role with
    | .closing => stack.tail
    | .fresh => []
    | _ => stack
  | .error _ => stack

/-- The calls whose containers are open after some more calls, the innermost one first. Calls
are told apart by their numbers, which go on from `number`. -/
def openersFrom : Nat → List Nat → List Op → List (Except WireError Reply) → List Nat
  | number, openers, op :: ops, answer :: answers =>
    openersFrom (number + 1) (op.restack (fun _ => number) openers answer) ops answers
  | _, openers, _, _ => openers

/-- The numbers of the calls whose containers are open after all the calls. -/
def openers (ops : List Op) (answers : List (Except WireError Reply)) : List Nat :=
  openersFrom 0 [] ops answers

theorem openersFrom_append {ops : List Op} {answers : List (Except WireError Reply)}
    (hlen : ops.length = answers.length) (number : Nat) (openers : List Nat) (rest : List Op)
    (others : List (Except WireError Reply)) :
    openersFrom number openers (ops ++ rest) (answers ++ others) =
      openersFrom (number + ops.length) (openersFrom number openers ops answers) rest others := by
  induction ops generalizing answers number openers with
  | nil =>
    rw [List.length_nil, eq_comm, List.length_eq_zero_iff] at hlen
    rw [hlen]
    rfl
  | cons op ops ih =>
    cases answers with
    | nil => cases hlen
    | cons answer answers =>
      have hnext := ih (Nat.succ.inj hlen) (number + 1)
        (op.restack (fun _ => number) openers answer)
      rw [Nat.add_assoc, Nat.add_comm 1] at hnext
      exact hnext

theorem forall₂_restack {R : α → β → Prop} {xs : List α} {ys : List β} {f : Handle → α}
    {g : Handle → β} {answer : Except WireError Reply} (op : Op) (h : List.Forall₂ R xs ys)
    (hnew : ∀ handle, answer = .ok (.handle handle) → R (f handle) (g handle)) :
    List.Forall₂ R (op.restack f xs answer) (op.restack g ys answer) := by
  have hrest : List.Forall₂ R
      (match op.role with | .closing => xs.tail | .fresh => [] | _ => xs)
      (match op.role with | .closing => ys.tail | .fresh => [] | _ => ys) := by
    cases op.role with
    | closing =>
      rw [← List.drop_one, ← List.drop_one]
      exact List.forall₂_drop 1 h
    | fresh => exact .nil
    | _ => exact h
  cases answer with
  | error e => exact h
  | ok reply =>
    cases reply with
    | handle handle => exact .cons (hnew handle rfl) h
    | done => exact hrest
    | offset offset => exact hrest

end Stacks

/-- The handles of the open containers. -/
def handlesOf : List Frame → List Handle
  | [] => []
  | frame :: outer => ⟨outer.length + 1, frame.header⟩ :: handlesOf outer

theorem length_handlesOf (frames : List Frame) : (handlesOf frames).length = frames.length := by
  induction frames with
  | nil => rfl
  | cons frame outer ih => rw [handlesOf, List.length_cons, ih, List.length_cons]

theorem depth_le_of_mem_handlesOf {frames : List Frame} {handle : Handle}
    (h : handle ∈ handlesOf frames) : handle.depth ≤ frames.length := by
  induction frames with
  | nil => cases h
  | cons frame outer ih =>
    rcases List.mem_cons.mp h with rfl | hin
    · exact Nat.le_refl _
    · exact Nat.le_succ_of_le (ih hin)

theorem handlesOf_beginFrames {frames begun : List Frame} (h : beginFrames frames = .ok begun) :
    handlesOf begun = handlesOf frames := by
  cases frames with
  | nil =>
    cases h
    rfl
  | cons frame outer =>
    obtain ⟨kind, _, hbegun⟩ := bind_eq_ok_iff.mp h
    cases hbegun
    rfl

namespace Writer

variable {w real ideal : Writer} {op : Op} {ops : List Op} {handle : Handle}

def handles (w : Writer) : List Handle := handlesOf w.frames

theorem length_handles (w : Writer) : w.handles.length = w.depth := length_handlesOf w.frames

/-- What a move does to the open containers shows in their handles. -/
theorem handlesOf_turn {move : Move} {frames : List Frame}
    (hsound : move.Sound w.vocabulary w.frames)
    (hturn : move.turn w.size w.frames = .ok frames) (hrole : op.role = move.role) :
    handlesOf frames = op.restack id w.handles (.ok (w.reply move)) := by
  unfold handles
  cases move with
  | skip count | element bytes =>
    cases hturn
    simp only [Op.restack, hrole, reply, Move.role]
  | leaf type body =>
    rw [handlesOf_beginFrames hturn]
    simp only [Op.restack, hrole, reply, Move.role]
  | lock header type bytes =>
    obtain ⟨_, _, outer, hframes⟩ := hsound
    cases hturn
    simp only [Op.restack, hrole, reply, Move.role, hframes]
    rfl
  | label bytes =>
    obtain ⟨_, kind, header, outer, hframes, _⟩ := hsound
    cases hturn
    simp only [Op.restack, hrole, reply, Move.role, hframes]
    rfl
  | enter kind type lead =>
    obtain ⟨_, hturn⟩ := ensure_eq_ok_iff.mp hturn
    obtain ⟨begun, hbegin, hframes⟩ := bind_eq_ok_iff.mp hturn
    cases hframes
    rw [handlesOf, handlesOf_beginFrames hbegin, length_beginFrames hbegin]
    rfl
  | leave header =>
    obtain ⟨kind, outer, hframes, _⟩ := hsound
    cases hturn
    simp only [Op.restack, hrole, reply, Move.role, hframes]
    rfl
  | restart buffer =>
    cases hturn
    simp only [Op.restack, hrole, reply, Move.role]
    rfl

theorem handles_step (w : Writer) (op : Op) :
    (w.step op).2.handles = op.restack id w.handles (w.step op).1 := by
  cases hstep : w.step op with
  | mk answer next =>
    cases answer with
    | error e =>
      obtain ⟨exhausted, rfl⟩ := step_error hstep
      rfl
    | ok reply =>
      obtain ⟨move, frames, hallows, rfl, rfl⟩ := step_ok hstep
      rw [handles, perform_frames hallows.turn_eq]
      exact handlesOf_turn hallows.sound hallows.turn_eq (Op.role_eq hallows.move_eq)

/-- A new handle leads to the cursor, and the header moves the cursor on. -/
theorem handle_of_step {next : Writer} (hroot : w.Rooted)
    (h : w.step op = (.ok (.handle handle), next)) :
    handle = ⟨w.depth + 1, w.size⟩ ∧ w.size < next.size := by
  obtain ⟨move, frames, hallows, hreply, rfl⟩ := step_ok h
  cases move with
  | enter kind type lead =>
    have hreset : op.isReset = false := by
      have hrole := Op.role_eq hallows.move_eq
      cases op with
      | reset buffer => cases hrole
      | _ => rfl
    refine ⟨Reply.handle.inj hreply, ?_⟩
    rw [size_of_allows hroot hreset hallows, demand, headerSize]
    omega
  | _ => cases hreply

theorem Mirrors.handles (h : real.Mirrors ideal) : real.handles = ideal.handles := by
  rcases h.begun with hsame | hbegin
  · rw [Writer.handles, Writer.handles, hsame]
  · exact handlesOf_beginFrames hbegin

namespace InUse

theorem handles_execute (h : w.InUse) (op : Op) :
    (w.execute op).2.handles = op.restack id w.handles (w.execute op).1 := by
  obtain ⟨ideal, hmirrors, hroot⟩ := h
  obtain ⟨hsame, hnext⟩ := hmirrors.execute hroot op
  rw [hnext.handles, hmirrors.handles, hsame]
  exact handles_step ideal op

theorem handle_of_execute (h : w.InUse) (hanswer : (w.execute op).1 = .ok (.handle handle)) :
    handle = ⟨w.depth + 1, w.size⟩ ∧ w.size < (w.execute op).2.size := by
  obtain ⟨ideal, hmirrors, hroot⟩ := h
  obtain ⟨hsame, hnext⟩ := hmirrors.execute hroot op
  rw [hmirrors.depth, hmirrors.size, hnext.size]
  apply handle_of_step hroot
  rw [← hanswer, hsame]

theorem size_le_execute (h : w.InUse) (hreset : op.isReset = false) :
    w.size ≤ (w.execute op).2.size := by
  obtain ⟨ideal, hmirrors, hroot⟩ := h
  rw [hmirrors.size, (hmirrors.execute hroot op).2.size]
  exact size_le_step hroot hreset

/-- Every handle that is given before the next reset leads to the cursor or ahead of it. -/
theorem size_le_offset (h : w.InUse) (hreset : ∀ op ∈ ops, op.isReset = false) {k : Nat}
    (hanswer : (w.executeAll ops).1[k]? = some (.ok (.handle handle))) :
    w.size ≤ handle.offset := by
  induction ops generalizing w k with
  | nil => cases hanswer
  | cons op rest ih =>
    rw [List.forall_mem_cons] at hreset
    cases k with
    | zero =>
      obtain ⟨rfl, _⟩ := h.handle_of_execute (Option.some.inj hanswer)
      exact Nat.le_refl _
    | succ k => exact Nat.le_trans (h.size_le_execute hreset.1) (ih (h.execute op) hreset.2 hanswer)

/-- What relates every opener to the handle that it is given relates the openers of the open
containers to the handles of these containers. -/
theorem forall₂_openersFrom {R : Nat → Handle → Prop} {openers : List Nat} {number : Nat}
    (h : w.InUse) (hopen : List.Forall₂ R openers w.handles) (ops : List Op)
    (hnew : ∀ k handle, (w.executeAll ops).1[k]? = some (.ok (.handle handle)) →
      R (number + k) handle) :
    List.Forall₂ R (openersFrom number openers ops (w.executeAll ops).1)
      (w.executeAll ops).2.handles := by
  induction ops generalizing w openers number with
  | nil => exact hopen
  | cons op rest ih =>
    apply ih (h.execute op)
    · rw [h.handles_execute op]
      apply forall₂_restack op hopen
      intro handle hanswer
      exact hnew 0 handle (congrArg some hanswer)
    · intro k handle hanswer
      rw [Nat.add_assoc, Nat.add_comm 1]
      exact hnew (k + 1) handle hanswer

end InUse

theorem length_executeAll (w : Writer) (ops : List Op) :
    (w.executeAll ops).1.length = ops.length := by
  induction ops generalizing w with
  | nil => rfl
  | cons op rest ih => exact congrArg (· + 1) (ih (w.execute op).2)

theorem forall₂_openers_lt (v : Vocabulary) (zeroPadding : Bool) (buffer : Bytes)
    (ops : List Op) :
    let run := (create v zeroPadding buffer).executeAll ops
    List.Forall₂ (fun opener _ => opener < ops.length) (openers ops run.1) run.2.handles := by
  refine (InUse.created v zeroPadding buffer []).forall₂_openersFrom .nil ops ?_
  intro k handle hanswer
  obtain ⟨hk, _⟩ := List.getElem?_eq_some_iff.mp hanswer
  rw [executeAll, length_executeAll] at hk
  omega

/-- Closing by a handle compares the handle with that of the innermost container. -/
theorem execute_popHandle (hspace : w.exhausted = false) (handle : Handle) :
    w.execute (.popHandle handle) =
      match w.handles with
      | [] => (.error .frameUnderflow, w)
      | top :: _ =>
        if handle = top then w.execute .pop else (.error .frameMismatch, w) := by
  have hguard := Command.run_guardSpace hspace
  rw [handles]
  cases hframes : w.frames with
  | nil =>
    simp only [execute, Op.command, Command.done, Command.popHandle, EStateM.run_bind, hguard,
      EStateM.run_get, hframes, handlesOf]
    rfl
  | cons frame outer =>
    obtain ⟨place, offset⟩ := handle
    simp only [execute, Op.command, Command.done, Command.popHandle, EStateM.run_bind, hguard,
      EStateM.run_get, hframes, handlesOf, depth, List.length_cons, Handle.mk.injEq]
    by_cases htop : place = outer.length + 1 ∧ offset = frame.header
    · rw [if_pos htop, decide_eq_true htop]
      rfl
    · rw [if_neg htop, decide_eq_false htop]
      rfl

/-- A container that is opened differs from all that are open, by its number and by its depth. -/
theorem InUse.forall₂_opened {opened : List Nat} {number : Nat} (h : w.InUse)
    (hbefore : List.Forall₂ (fun opener _ => opener < number) opened w.handles)
    (hanswer : (w.execute op).1 = .ok (.handle handle)) :
    List.Forall₂ (fun opener other => opener = number ↔ other = handle)
      (op.restack (fun _ => number) opened (w.execute op).1) (w.execute op).2.handles := by
  have hall : ∀ other ∈ w.handles, other ≠ handle := by
    rintro other hin rfl
    have hdepth : other.depth ≤ w.depth := depth_le_of_mem_handlesOf hin
    rw [(h.handle_of_execute hanswer).1] at hdepth
    exact Nat.not_succ_le_self _ hdepth
  have hboth := (List.forall₂_and_left w.handles opened).mpr ⟨hall, hbefore.flip⟩
  rw [h.handles_execute op]
  apply forall₂_restack op
  · exact hboth.flip.imp fun opener other hpair =>
      iff_of_false (Nat.ne_of_lt hpair.2) hpair.1
  · intro other hother
    cases hanswer.symm.trans hother
    exact iff_of_true rfl rfl

/-- After the opening of a container and more calls without a reset: of the openers the one of
this container alone has its handle, and nothing else was given it. -/
theorem InUse.forall₂_own {opened : List Nat} {number : Nat} (h : w.InUse)
    (hbefore : List.Forall₂ (fun opener _ => opener < number) opened w.handles)
    (hanswer : (w.execute op).1 = .ok (.handle handle))
    (hkept : ∀ later ∈ ops, later.isReset = false) :
    let opening := w.execute op
    let run := opening.2.executeAll ops
    .ok (.handle handle) ∉ run.1 ∧
      List.Forall₂ (fun opener other => opener = number ↔ other = handle)
        (openersFrom (number + 1) (op.restack (fun _ => number) opened opening.1) ops run.1)
        run.2.handles := by
  intro opening run
  have hnext : opening.2.InUse := h.execute op
  -- The header of the container lies behind the cursor, and later ones do not.
  have hlater : ∀ k : Nat, run.1[k]? ≠ some (.ok (.handle handle)) := by
    intro k hsame
    have hoffset := hnext.size_le_offset hkept hsame
    obtain ⟨rfl, hsize⟩ := h.handle_of_execute hanswer
    exact Nat.not_le_of_lt hsize hoffset
  refine ⟨fun hin => ?_, hnext.forall₂_openersFrom (h.forall₂_opened hbefore hanswer) ops ?_⟩
  · obtain ⟨k, hk⟩ := List.mem_iff_getElem?.mp hin
    exact hlater k hk
  · intro k other hother
    refine iff_of_false (by omega) ?_
    rintro rfl
    exact hlater k hother

/-- Closing by a handle, told by the opener that the handle belongs to. -/
theorem execute_popHandle_own {opened : List Nat} {number : Nat} (hspace : w.exhausted = false)
    (hown : List.Forall₂ (fun opener other => opener = number ↔ other = handle) opened w.handles) :
    w.execute (.popHandle handle) =
      if opened.head? = some number then w.execute .pop
      else (.error (if w.depth = 0 then .frameUnderflow else .frameMismatch), w) := by
  rw [execute_popHandle hspace, ← length_handles]
  generalize w.handles = handles at hown ⊢
  cases hown with
  | nil => rfl
  | cons htop _ => simp [htop, eq_comm (a := handle)]

end Writer

/-- For a run in which a call opens a container and no reset follows: a handle is given to one
container only, and closing by it, while there is space, does what closing does if this very
container is the innermost one, and otherwise nothing, also when other containers have taken
its place. -/
theorem handle_closes_own (v : Vocabulary) (zeroPadding : Bool) (buffer : Bytes)
    (before : List Op) (op : Op) (rest : List Op) (handle : Handle)
    (hkept : ∀ later ∈ rest, later.isReset = false) :
    let start := (Writer.create v zeroPadding buffer).executeAll before
    let opening := start.2.execute op
    let run := (Writer.create v zeroPadding buffer).executeAll (before ++ op :: rest)
    let number := before.length
    let opened := openers (before ++ op :: rest) run.1
    let w := run.2
    let closing := w.execute (.popHandle handle)
    opening.1 = .ok (.handle handle) →
      .ok (.handle handle) ∉ (opening.2.executeAll rest).1 ∧ opened.length = w.depth ∧
      (w.exhausted = true → closing = (.error .outOfSpace, w)) ∧
      (w.exhausted = false →
        (∀ reply, closing.1 = .ok reply → opened.head? = some number) ∧
        (opened.head? = some number → closing = w.execute .pop) ∧
        (number ∈ opened → opened.head? ≠ some number → closing = (.error .frameMismatch, w)) ∧
        (number ∉ opened → w.depth = 0 → closing = (.error .frameUnderflow, w)) ∧
        (number ∉ opened → w.depth ≠ 0 → closing = (.error .frameMismatch, w))) := by
  intro start opening run number opened w closing hanswer
  have huse : start.2.InUse := Writer.InUse.created v zeroPadding buffer before
  have hbefore := Writer.forall₂_openers_lt v zeroPadding buffer before
  obtain ⟨hunique, hown⟩ := huse.forall₂_own hbefore hanswer hkept
  have hopened : opened = openersFrom (number + 1)
      (op.restack (fun _ => number) (openers before start.1) opening.1) rest
      (opening.2.executeAll rest).1 := by
    simp only [opened, run, Writer.executeAll_append]
    rw [openers, openersFrom_append (Writer.length_executeAll _ before).symm, Nat.zero_add]
    rfl
  have hw : w = (opening.2.executeAll rest).2 := by
    simp only [w, run, Writer.executeAll_append]
    rfl
  rw [← hopened, ← hw] at hown
  refine ⟨hunique, ?_, fun hfull => Writer.execute_exhausted hfull rfl, fun hspace => ?_⟩
  · rw [hown.length_eq, w.length_handles]
  have hclosing : closing = _ := Writer.execute_popHandle_own hspace hown
  have hdepth : number ∈ opened → w.depth ≠ 0 := by
    intro hin
    rw [← w.length_handles, ← hown.length_eq]
    exact Nat.ne_of_gt (List.length_pos_of_mem hin)
  have hother : opened.head? ≠ some number →
      closing = (.error (if w.depth = 0 then .frameUnderflow else .frameMismatch), w) := by
    intro hhead
    rw [hclosing, if_neg hhead]
  have hgone : number ∉ opened → opened.head? ≠ some number := by
    intro hout hhead
    exact hout (List.mem_of_head? hhead)
  refine ⟨?_, ?_, ?_, ?_, ?_⟩
  · intro reply hreply
    by_contra hhead
    rw [hother hhead] at hreply
    cases hreply
  · intro hhead
    rw [hclosing, if_pos hhead]
  · intro hin hhead
    rw [hother hhead, if_neg (hdepth hin)]
  · intro hout hzero
    rw [hother (hgone hout), if_pos hzero]
  · intro hout hsome
    rw [hother (hgone hout), if_neg hsome]

/-- A container is opened after a reset and a refused call: its handle closes it at once, not
while another is open in it, not when another is open in its place, and not when none is. -/
theorem handle_closes_own_tuple :
    let v := (Vocabulary.unresolved.set .tuple 1).set .object 2
    let start := Writer.create v false (List.replicate 96 7)
    let before : List Op := [.pushObject 3 0, .reset none, .reserve 8, .pushTuple, .property 9 0]
    let handle : Handle := ⟨2, 16⟩
    let after (rest : List Op) := (start.executeAll (before ++ .pushTuple :: rest)).2
    ((start.executeAll before).2.execute .pushTuple).1 = .ok (.handle handle) ∧
      (after []).execute (.popHandle handle) = (after []).execute .pop ∧
      (after [.pushTuple]).execute (.popHandle handle) =
        (.error .frameMismatch, after [.pushTuple]) ∧
      (after [.pop, .pushTuple]).execute (.popHandle handle) =
        (.error .frameMismatch, after [.pop, .pushTuple]) ∧
      (after [.pop, .pop]).execute (.popHandle handle) =
        (.error .frameUnderflow, after [.pop, .pop]) := by
  intro v start before handle after
  have hanswer : ((start.executeAll before).2.execute .pushTuple).1 = .ok (.handle handle) := by
    decide +kernel
  have hown (rest : List Op) (hkept : ∀ later ∈ rest, later.isReset = false) :=
    handle_closes_own v false (List.replicate 96 7) before .pushTuple rest handle hkept hanswer
  obtain ⟨_, _, _, hinnermost⟩ := hown [] (by decide)
  obtain ⟨_, _, _, houter⟩ := hown [.pushTuple] (by decide)
  obtain ⟨_, _, _, hreplaced⟩ := hown [.pop, .pushTuple] (by decide)
  obtain ⟨_, _, _, hnone⟩ := hown [.pop, .pop] (by decide)
  exact ⟨hanswer, (hinnermost (by decide +kernel)).2.1 (by decide +kernel),
    (houter (by decide +kernel)).2.2.1 (by decide +kernel) (by decide +kernel),
    (hreplaced (by decide +kernel)).2.2.2.2 (by decide +kernel) (by decide +kernel),
    (hnone (by decide +kernel)).2.2.2.1 (by decide +kernel) (by decide +kernel)⟩

end AtomWire

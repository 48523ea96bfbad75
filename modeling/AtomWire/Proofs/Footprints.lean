import AtomWire.Proofs.FrameStack

/-!
# Where a writer writes

A call writes between the old cursor and the new one. Behind the old cursor it fills in the
size of a container that it closes, or the type and width of a vector that gets its first
element, and nothing else. What lies ahead of the cursor keeps its bytes. The fronts of the
open containers, which are all that can still be filled in, lie apart from every finished
atom (`Writer.Sealed`), so that a finished atom keeps its bytes as well.
-/

namespace AtomWire

set_option autoImplicit false

theorem getElem?_overwrite {bytes patch : Bytes} {start : Nat}
    (h : start + patch.length ≤ bytes.length) (pos : Nat) :
    (overwrite bytes start patch)[pos]? =
      if start ≤ pos ∧ pos < start + patch.length then patch[pos - start]? else bytes[pos]? := by
  have htake : (bytes.take start).length = start := by
    rw [List.length_take]
    omega
  rw [overwrite, List.append_assoc, List.getElem?_append, htake]
  by_cases hbefore : pos < start
  · rw [if_pos hbefore, if_neg (by omega), List.getElem?_take_of_lt hbefore]
  · rw [if_neg hbefore, List.getElem?_append]
    by_cases hin : pos < start + patch.length
    · rw [if_pos (by omega), if_pos (by omega)]
    · rw [if_neg (by omega), if_neg (by omega), List.getElem?_drop]
      congr 1
      omega

theorem slice_overwrite {bytes patch : Bytes} {start : Nat}
    (h : start + patch.length ≤ bytes.length) :
    slice (overwrite bytes start patch) start patch.length = patch := by
  have htake : (bytes.take start).length = start := by
    rw [List.length_take]
    omega
  rw [slice, overwrite, List.append_assoc, List.drop_left' htake, List.take_left]

/-- The bytes behind the cursor that a move fills in, and what it puts there. -/
def Move.backfill (size : Nat) : Move → Option (Nat × Bytes)
  | lock header type bytes =>
    some (header + headerSize, word32 type ++ word32 (UInt32.ofNat bytes.length))
  | leave header => some (header + 4, word32 (UInt32.ofNat (size - (header + headerSize))))
  | _ => none

namespace Writer

variable {w : Writer} {op : Op} {move : Move} {frames : List Frame} {pos : Nat}

/-- What is written, with the bytes of a move filled in. -/
def backfilled (w : Writer) (move : Move) : Bytes :=
  match move.backfill w.size with
  | none => w.written
  | some (start, bytes) => overwrite w.written start bytes

theorem backfill_end {start : Nat} {bytes : Bytes}
    (h : move.backfill w.size = some (start, bytes)) : start + bytes.length = move.patchEnd := by
  cases move with
  | lock header type content =>
    cases h
    simp [Move.patchEnd]
  | leave header =>
    cases h
    rw [length_word32]
    rfl
  | _ => cases h

theorem length_backfilled (h : move.patchEnd ≤ w.size) :
    (w.backfilled move).length = w.size := by
  unfold backfilled
  split
  · rfl
  · rename_i hfill
    exact length_overwrite ((backfill_end hfill).trans_le h)

/-- A move fills in its bytes behind the cursor and moves the cursor over `tail`. -/
theorem perform_parts (frames : List Frame) (hroom : w.demand move ≤ w.spare.length)
    (hpatch : move.patchEnd ≤ w.size) (hmove : ∀ buffer, move ≠ .restart buffer) :
    ∃ tail, tail.length = w.demand move ∧
      (w.perform frames move).written = w.backfilled move ++ tail ∧
      (w.perform frames move).spare = w.spare.drop (w.demand move) := by
  cases move with
  | skip count =>
    have htake : (w.spare.take count).length = count := by simpa [demand] using hroom
    refine ⟨w.spare.take count, htake, rfl, ?_⟩
    rw [perform, append, htake]
    rfl
  | leaf type body =>
    obtain ⟨pad, hpad, heq⟩ := perform_leaf frames hroom
    have hlen : (Record.bytes ⟨[], type, body, pad⟩).length = w.demand (.leaf type body) :=
      length_record hpad.1
    rw [heq, finishAtom_eq, ← hlen]
    exact ⟨_, rfl, rfl, rfl⟩
  | element bytes | label bytes => exact ⟨bytes, rfl, rfl, rfl⟩
  | lock header type bytes => exact ⟨bytes, rfl, rfl, rfl⟩
  | enter kind type lead =>
    have hlen : (headerBytes type 0 ++ lead).length = w.demand (.enter kind type lead) := by
      rw [List.length_append, length_headerBytes]
      rfl
    rw [← hlen]
    exact ⟨_, rfl, rfl, rfl⟩
  | leave header =>
    obtain ⟨pad, hpad, heq⟩ := pad_eq hroom
    have hfield : header + 4 +
        (word32 (UInt32.ofNat (w.size - (header + headerSize)))).length ≤ w.written.length := by
      simp only [Move.patchEnd, headerSize, size] at hpatch
      rw [length_word32]
      omega
    refine ⟨pad, hpad.1, ?_, ?_⟩
    · simp only [demand] at heq
      simp only [perform, heq, finishAtom_eq, patch, append]
      exact overwrite_append hfield
    · simp only [demand] at heq hpad ⊢
      simp only [perform, heq, finishAtom_eq, patch, append, hpad.1]
  | restart buffer => exact absurd rfl (hmove buffer)

theorem getElem?_perform_above (hroom : w.demand move ≤ w.spare.length)
    (hpatch : move.patchEnd ≤ w.size) (hmove : ∀ buffer, move ≠ .restart buffer)
    (hpos : w.size + w.demand move ≤ pos) :
    (w.perform frames move).buffer[pos]? = w.buffer[pos]? := by
  obtain ⟨tail, htail, hwritten, hspare⟩ := perform_parts frames hroom hpatch hmove
  have hlen : (w.backfilled move ++ tail).length = w.size + w.demand move := by
    rw [List.length_append, length_backfilled hpatch, htail]
  have hsize : w.written.length ≤ pos := Nat.le_trans (Nat.le_add_right _ _) hpos
  rw [buffer, buffer, hwritten, hspare, List.getElem?_append_right (by omega),
    List.getElem?_append_right hsize, hlen, List.getElem?_drop]
  congr 1
  unfold size at hpos ⊢
  omega

theorem getElem?_perform_below (hroom : w.demand move ≤ w.spare.length)
    (hpatch : move.patchEnd ≤ w.size) (hmove : ∀ buffer, move ≠ .restart buffer)
    (hpos : pos < w.size) :
    (w.perform frames move).buffer[pos]? = (w.backfilled move)[pos]? := by
  obtain ⟨tail, _, hwritten, _⟩ := perform_parts frames hroom hpatch hmove
  rw [buffer, hwritten, List.append_assoc, List.getElem?_append_left]
  rwa [length_backfilled hpatch]

theorem getElem?_backfilled (hpatch : move.patchEnd ≤ w.size)
    (hout : ∀ start bytes, move.backfill w.size = some (start, bytes) →
      ¬ (start ≤ pos ∧ pos < start + bytes.length)) :
    (w.backfilled move)[pos]? = w.written[pos]? := by
  unfold backfilled
  split
  · rfl
  · rename_i hfill
    rw [getElem?_overwrite ((backfill_end hfill).trans_le hpatch), if_neg (hout _ _ hfill)]

/-- Only the front of the innermost container is ever filled in. -/
theorem backfill_in_front {v : Vocabulary} {start : Nat} {bytes : Bytes}
    (hsound : move.Sound v w.frames) (h : move.backfill w.size = some (start, bytes)) :
    ∃ frame ∈ w.frames.head?, frame.header ≤ start ∧ start + bytes.length ≤ frame.footing := by
  have hend := backfill_end h
  cases move with
  | lock header type content =>
    obtain ⟨_, _, outer, hframes⟩ := hsound
    cases h
    exact ⟨⟨.vector none, header⟩, by simp [hframes], Nat.le_add_right _ _, hend.le⟩
  | leave header =>
    obtain ⟨kind, outer, hframes, _⟩ := hsound
    cases h
    exact ⟨⟨kind, header⟩, by simp [hframes], Nat.le_add_right _ _,
      hend.trans_le (Nat.le_add_right _ _)⟩
  | _ => cases h

theorem getElem?_buffer (hpos : pos < w.size) : w.buffer[pos]? = w.written[pos]? :=
  List.getElem?_append_left hpos

theorem slice_perform {start : Nat} {bytes : Bytes} (hroom : w.demand move ≤ w.spare.length)
    (hpatch : move.patchEnd ≤ w.size) (hmove : ∀ buffer, move ≠ .restart buffer)
    (h : move.backfill w.size = some (start, bytes)) :
    slice (w.perform frames move).buffer start bytes.length = bytes := by
  have hend : start + bytes.length ≤ w.written.length := (backfill_end h).trans_le hpatch
  have hsame : slice (w.perform frames move).buffer start bytes.length =
      slice (w.backfilled move) start bytes.length := by
    apply slice_congr
    intro pos _ hpos
    exact getElem?_perform_below hroom hpatch hmove (Nat.lt_of_lt_of_le hpos hend)
  rw [hsame, backfilled, h]
  exact slice_overwrite hend

/-- What stands ahead of the cursor after a call stood there before it. -/
theorem getElem?_step_above (hroot : w.Rooted) (hreset : op.isReset = false)
    (hpos : (w.step op).2.size ≤ pos) : (w.step op).2.buffer[pos]? = w.buffer[pos]? := by
  cases hstep : w.step op with
  | mk answer next =>
    cases answer with
    | error e =>
      obtain ⟨exhausted, rfl⟩ := step_error hstep
      rfl
    | ok reply =>
      obtain ⟨move, frames, hallows, _, rfl⟩ := step_ok hstep
      rw [hstep, size_of_allows hroot hreset hallows] at hpos
      exact getElem?_perform_above hallows.demand_le (hroot.patchEnd_le hallows.sound)
        (hallows.ne_restart hreset) hpos

theorem getElem?_run_above {ops : List Op} (hroot : w.Rooted)
    (hreset : ∀ op ∈ ops, op.isReset = false) (hpos : (w.run ops).2.size ≤ pos) :
    (w.run ops).2.buffer[pos]? = w.buffer[pos]? := by
  induction ops generalizing w with
  | nil => rfl
  | cons op rest ih =>
    rw [List.forall_mem_cons] at hreset
    have hnext := hroot.step op
    -- The cursor never moves back, so the position is ahead of the cursor all along.
    have hsize : (w.step op).2.size ≤ pos := Nat.le_trans (size_le_run hnext hreset.2) hpos
    rw [run, ih hnext hreset.2 hpos, getElem?_step_above hroot hreset.1 hsize]

end Writer

/-- The position after the padding of an atom. -/
def Extent.stop (e : Extent) : Nat := e.header + headerSize + e.body + padding e.body

/-- The header of an open container, and where its content starts. -/
def Frame.front (frame : Frame) : Nat × Nat := (frame.header, frame.footing)

theorem front_beginFrames {frames begun : List Frame} (h : beginFrames frames = .ok begun) :
    begun.map Frame.front = frames.map Frame.front := by
  cases frames with
  | nil =>
    cases h
    rfl
  | cons frame outer =>
    obtain ⟨kind, hkind, hbegun⟩ := bind_eq_ok_iff.mp h
    cases hbegun
    simp [Frame.front, Frame.footing, FrameKind.frontSize_beginValue hkind]

namespace Writer

variable {w : Writer} {op : Op} {move : Move} {frames : List Frame} {atoms : List Extent}
  {pos : Nat}

/-- The fronts of the open containers lie in each other's contents, and every finished atom
lies behind the cursor, before such a front or in the content behind it. -/
structure Sealed (w : Writer) (atoms : List Extent) : Prop where
  rising : (w.frames.map Frame.front).Pairwise fun inner outer => outer.2 ≤ inner.1
  below : ∀ e ∈ atoms, e.stop ≤ w.size
  apart : ∀ e ∈ atoms, ∀ front ∈ w.frames.map Frame.front,
    e.stop ≤ front.1 ∨ front.2 ≤ e.header

theorem Rooted.front_le (h : w.Rooted) :
    ∀ front ∈ w.frames.map Frame.front, front.2 ≤ w.size := by
  intro front hfront
  obtain ⟨frame, hframe, rfl⟩ := List.mem_map.mp hfront
  exact h _ (List.mem_map_of_mem hframe)

/-- Only a reset forgets a finished atom. -/
theorem mem_noteAtom {e : Extent} (hreset : op.isReset = false) (he : e ∈ atoms) :
    e ∈ w.noteAtom atoms op := by
  unfold noteAtom
  split
  · rename_i move _ hmove
    cases move with
    | leaf type body | leave header => exact List.mem_cons_of_mem _ he
    | restart buffer => simp [Op.isReset_of_restart hmove] at hreset
    | _ => exact he
  · exact he

namespace Sealed

theorem of_frames_eq_nil {u : Writer} (h : u.frames = []) : u.Sealed [] := by
  refine ⟨?_, List.forall_mem_nil _, List.forall_mem_nil _⟩
  rw [h]
  exact List.Pairwise.nil

theorem create (v : Vocabulary) (zeroPadding : Bool) (buffer : Bytes) :
    (Writer.create v zeroPadding buffer).Sealed [] :=
  of_frames_eq_nil rfl

/-- The cursor moves on, and no front is new. -/
theorem grow {u : Writer} (h : w.Sealed atoms) (hsize : w.size ≤ u.size)
    (hfronts : (u.frames.map Frame.front).Sublist (w.frames.map Frame.front)) :
    u.Sealed atoms :=
  ⟨h.rising.sublist hfronts, fun e he => Nat.le_trans (h.below e he) hsize,
    fun e he front hfront => h.apart e he front (hfronts.mem hfront)⟩

/-- An atom is finished behind all fronts. -/
theorem finish {e : Extent} (h : w.Sealed atoms) (hstop : e.stop ≤ w.size)
    (hfronts : ∀ front ∈ w.frames.map Frame.front, front.2 ≤ e.header) :
    w.Sealed (e :: atoms) :=
  ⟨h.rising, List.forall_mem_cons.mpr ⟨hstop, h.below⟩,
    List.forall_mem_cons.mpr ⟨fun front hfront => Or.inr (hfronts front hfront), h.apart⟩⟩

/-- A container is opened at the cursor. -/
theorem enter {u : Writer} {frame : Frame} {begun : List Frame} (h : w.Sealed atoms)
    (hroot : w.Rooted) (hsize : w.size ≤ u.size) (hframes : u.frames = frame :: begun)
    (hheader : frame.header = w.size)
    (hbegun : begun.map Frame.front = w.frames.map Frame.front) : u.Sealed atoms := by
  have hgrown : u.frames.map Frame.front = frame.front :: w.frames.map Frame.front := by
    rw [hframes, List.map_cons, hbegun]
  refine ⟨?_, fun e he => Nat.le_trans (h.below e he) hsize, ?_⟩
  · rw [hgrown, List.pairwise_cons]
    refine ⟨?_, h.rising⟩
    intro front hfront
    rw [Frame.front, hheader]
    exact hroot.front_le front hfront
  · rw [hgrown]
    intro e he
    refine List.forall_mem_cons.mpr ⟨Or.inl ?_, h.apart e he⟩
    rw [Frame.front, hheader]
    exact h.below e he

/-- Every move keeps the finished atoms apart from what can still be filled in. -/
theorem perform (h : w.Sealed atoms) (hroot : w.Rooted) (hallows : w.Allows op move frames)
    (hmove : ∀ buffer, move ≠ .restart buffer) :
    (w.perform frames move).Sealed (w.extents atoms move) := by
  have hsound := hallows.sound
  have hturn := hallows.turn_eq
  have hframes := perform_frames hturn
  have hsize : (w.perform frames move).size = w.size + w.demand move :=
    (size_perform hallows.demand_le (hroot.patchEnd_le hsound) hmove).1
  have hle : w.size ≤ (w.perform frames move).size := by omega
  cases move with
  | skip count | element bytes =>
    cases hturn
    exact h.grow hle (List.Sublist.refl _)
  | leaf type body =>
    have hfronts : (w.perform frames (.leaf type body)).frames.map Frame.front =
        w.frames.map Frame.front := by
      rw [hframes]
      exact front_beginFrames hturn
    refine (h.grow hle (hfronts ▸ List.Sublist.refl _)).finish ?_ ?_
    · rw [hsize]
      simp only [Extent.stop, demand]
      omega
    · rw [hfronts]
      exact hroot.front_le
  | lock header type bytes =>
    obtain ⟨_, _, outer, hw⟩ := hsound
    cases hturn
    apply h.grow hle
    rw [hframes, hw]
    exact List.Sublist.refl _
  | label bytes =>
    obtain ⟨_, kind, header, outer, hw, _⟩ := hsound
    cases hturn
    apply h.grow hle
    rw [hframes, hw]
    simp [Frame.front, Frame.footing, FrameKind.frontSize_beginLabel]
  | enter kind type lead =>
    obtain ⟨_, hturn⟩ := ensure_eq_ok_iff.mp hturn
    obtain ⟨begun, hbegin, hopened⟩ := bind_eq_ok_iff.mp hturn
    cases hopened
    exact h.enter hroot hle hframes rfl (front_beginFrames hbegin)
  | leave header =>
    obtain ⟨kind, outer, hw, _⟩ := hsound
    cases hturn
    have houter : (w.perform w.frames.tail (.leave header)).frames = outer := by
      rw [hframes, hw]
      rfl
    have hhead : header + headerSize + kind.frontSize ≤ w.size := hroot.head hw
    have hrising := h.rising
    rw [hw] at hrising
    refine (h.grow hle ?_).finish ?_ ?_
    · rw [houter, hw]
      exact List.sublist_cons_self _ _
    · rw [hsize]
      simp only [Extent.stop, demand]
      omega
    · rw [houter]
      exact (List.pairwise_cons.mp hrising).1
  | restart buffer => exact absurd rfl (hmove buffer)

theorem step (h : w.Sealed atoms) (hroot : w.Rooted) (op : Op) :
    (w.step op).2.Sealed (w.noteAtom atoms op) := by
  rw [noteAtom]
  cases hstep : w.step op with
  | mk answer next =>
    cases answer with
    | error e =>
      obtain ⟨exhausted, rfl⟩ := step_error hstep
      exact ⟨h.rising, h.below, h.apart⟩
    | ok reply =>
      obtain ⟨move, frames, hallows, _, rfl⟩ := step_ok hstep
      rw [hallows.move_eq]
      by_cases hrestart : ∃ buffer, move = .restart buffer
      · obtain ⟨buffer, rfl⟩ := hrestart
        exact of_frames_eq_nil rfl
      · exact h.perform hroot hallows fun buffer heq => hrestart ⟨buffer, heq⟩

theorem run (h : w.Sealed atoms) (hroot : w.Rooted) (ops : List Op) :
    (w.run ops).2.Sealed (w.finishedAtoms atoms ops) := by
  induction ops generalizing w atoms with
  | nil => exact h
  | cons op rest ih => exact ih (h.step hroot op) (hroot.step op)

/-- A call leaves the finished atoms alone. -/
theorem getElem?_step {e : Extent} (h : w.Sealed atoms) (hroot : w.Rooted)
    (hreset : op.isReset = false) (he : e ∈ atoms) (hfirst : e.header ≤ pos)
    (hstop : pos < e.stop) : (w.step op).2.buffer[pos]? = w.buffer[pos]? := by
  cases hstep : w.step op with
  | mk answer next =>
    cases answer with
    | error e =>
      obtain ⟨exhausted, rfl⟩ := step_error hstep
      rfl
    | ok reply =>
      obtain ⟨move, frames, hallows, _, rfl⟩ := step_ok hstep
      have hpatch := hroot.patchEnd_le hallows.sound
      have hpos : pos < w.size := Nat.lt_of_lt_of_le hstop (h.below e he)
      rw [getElem?_perform_below hallows.demand_le hpatch (hallows.ne_restart hreset) hpos,
        getElem?_buffer hpos]
      apply getElem?_backfilled hpatch
      rintro start bytes hfill ⟨hstart, hend⟩
      obtain ⟨frame, hframe, hheader, hfooting⟩ := backfill_in_front hallows.sound hfill
      have hfront := List.mem_map_of_mem (f := Frame.front) (List.mem_of_mem_head? hframe)
      rcases h.apart e he frame.front hfront with hbefore | hbehind
      · exact absurd (Nat.lt_of_lt_of_le hstop (hbefore.trans hheader)) (Nat.not_lt.mpr hstart)
      · exact absurd (Nat.lt_of_lt_of_le hend hfooting) (Nat.not_lt.mpr (hbehind.trans hfirst))

theorem getElem?_run {e : Extent} {ops : List Op} (h : w.Sealed atoms) (hroot : w.Rooted)
    (hreset : ∀ op ∈ ops, op.isReset = false) (he : e ∈ atoms) (hfirst : e.header ≤ pos)
    (hstop : pos < e.stop) : (w.run ops).2.buffer[pos]? = w.buffer[pos]? := by
  induction ops generalizing w atoms with
  | nil => rfl
  | cons op rest ih =>
    rw [List.forall_mem_cons] at hreset
    have hkept : e ∈ w.noteAtom atoms op := mem_noteAtom hreset.1 he
    rw [Writer.run, ih (h.step hroot op) (hroot.step op) hreset.2 hkept,
      h.getElem?_step hroot hreset.1 he hfirst hstop]

end Sealed

end Writer

/-- The type and the scalar of a call that writes a scalar. -/
def Op.scalarArgs (v : Vocabulary) : Op → Option (TypeId × Scalar)
  | scalar type x => some (type, x)
  | value x => some (v.scalarType x.kind, x)
  | _ => none

section Causes

variable {v : Vocabulary} {frames outer : List Frame} {op : Op} {made : Move} {header : Nat}
  {type : TypeId} {x : Scalar} {bytes : Bytes}

theorem Op.move_of_scalarArgs (h : op.scalarArgs v = some (type, x)) :
    op.move v frames = scalarMove v frames type x := by
  cases op with
  | scalar type x | value x =>
    cases h
    rfl
  | _ => cases h

/-- A scalar in a vector without a type gives it one. -/
theorem Op.move_eq_lock (h : op.scalarArgs v = some (type, x))
    (hmove : op.move v (⟨.vector none, header⟩ :: outer) = .ok made) :
    made = .lock header type x.payload := by
  rw [move_of_scalarArgs h] at hmove
  obtain ⟨bytes, hbytes, hmade⟩ := bind_eq_ok_iff.mp hmove
  obtain ⟨_, rfl⟩ := encode_eq_ok_iff.mp hbytes
  cases hmade
  rfl

/-- Nothing but a scalar gives a vector its type. -/
theorem Op.exists_scalarArgs_of_lock (hmove : op.move v frames = .ok (.lock header type bytes)) :
    ∃ x, op.scalarArgs v = some (type, x) := by
  have hrole := Op.role_eq hmove
  obtain ⟨_, _, outer, rfl⟩ := Op.move_sound hmove
  cases op with
  | scalar type x | value x =>
    cases Op.move_eq_lock rfl hmove
    exact ⟨x, rfl⟩
  | text form content | chunk body | atom type body =>
    obtain ⟨_, hmade⟩ := typedMove_eq_ok_iff.mp hmove
    cases hmade
  | literal content lang datatype =>
    obtain ⟨_, hmade⟩ := ensure_eq_ok_iff.mp hmove
    cases hmade
  | element bytes => cases hmove
  | _ => cases hrole

theorem Move.eq_leave_of_role (h : made.role = .closing) : ∃ header, made = .leave header := by
  cases made with
  | leave header => exact ⟨header, rfl⟩
  | enter kind type lead => cases kind <;> cases h
  | _ => cases h

end Causes

namespace Writer

variable {w : Writer} {op : Op} {reply : Reply} {pos : Nat}

/-- Behind the old cursor a call changes the size of the container that it closes, or the
type and width of the vector that it gives them. -/
theorem changed_below {next : Writer} (hroot : w.Rooted) (hreset : op.isReset = false)
    (hstep : w.step op = (.ok reply, next)) (hpos : pos < w.size)
    (hchanged : next.buffer[pos]? ≠ w.buffer[pos]?) :
    (∃ frame ∈ w.frames.head?, op.role = .closing ∧ frame.header + 4 ≤ pos ∧
      pos < frame.header + 8) ∨
    ∃ header args, w.frames.head? = some ⟨.vector none, header⟩ ∧
      op.scalarArgs w.vocabulary = some args ∧ header + 8 ≤ pos ∧ pos < header + 16 := by
  obtain ⟨move, frames, hallows, _, rfl⟩ := step_ok hstep
  have hsound := hallows.sound
  have hpatch := hroot.patchEnd_le hsound
  rw [getElem?_perform_below hallows.demand_le hpatch (hallows.ne_restart hreset) hpos,
    getElem?_buffer hpos] at hchanged
  by_contra hnone
  apply hchanged
  apply getElem?_backfilled hpatch
  rintro start bytes hfill ⟨hstart, hend⟩
  rw [backfill_end hfill] at hend
  apply hnone
  cases move with
  | lock header type content =>
    obtain ⟨_, _, outer, hframes⟩ := hsound
    obtain ⟨x, hargs⟩ := Op.exists_scalarArgs_of_lock hallows.move_eq
    cases hfill
    exact Or.inr ⟨header, (type, x), by rw [hframes]; rfl, hargs, hstart, hend⟩
  | leave header =>
    obtain ⟨kind, outer, hframes, _⟩ := hsound
    cases hfill
    exact Or.inl ⟨⟨kind, header⟩, by rw [hframes]; rfl, Op.role_eq hallows.move_eq, hstart, hend⟩
  | _ => cases hfill

/-- A call that closes a container fills in how much was written since its header. -/
theorem slice_of_closing {next : Writer} (hroot : w.Rooted) (hrole : op.role = .closing)
    (hstep : w.step op = (.ok reply, next)) :
    ∃ frame ∈ w.frames.head?, next.frames = w.frames.tail ∧ frame.header + 8 ≤ w.size ∧
      w.size - (frame.header + 8) ≤ maxBody ∧
      slice next.buffer (frame.header + 4) 4 = leBytes 4 (w.size - (frame.header + 8)) := by
  obtain ⟨move, frames, hallows, _, rfl⟩ := step_ok hstep
  obtain ⟨header, rfl⟩ := Move.eq_leave_of_role ((Op.role_eq hallows.move_eq).symm.trans hrole)
  obtain ⟨kind, outer, hframes, _⟩ := hallows.sound
  have hpatch := hroot.patchEnd_le hallows.sound
  have hbody : w.size - (header + 8) ≤ maxBody := hallows.announced_le
  have hfield : word32 (UInt32.ofNat (w.size - (header + 8))) =
      leBytes 4 (w.size - (header + 8)) := by
    rw [word32, UInt32.toNat_ofNat_of_lt' (Nat.lt_succ_of_le hbody)]
  refine ⟨⟨kind, header⟩, by rw [hframes]; rfl, ?_, hpatch, hbody, ?_⟩
  · rw [perform_frames hallows.turn_eq]
    exact (Except.ok.inj hallows.turn_eq).symm
  · rw [← hfield, ← length_word32 (UInt32.ofNat (w.size - (header + 8)))]
    exact slice_perform hallows.demand_le hpatch (by simp) rfl

/-- A scalar that gives a vector its type fills in the type and its width. -/
theorem slice_of_lock {header : Nat} {type : TypeId} {x : Scalar} {next : Writer}
    (hroot : w.Rooted) (hframe : w.frames.head? = some ⟨.vector none, header⟩)
    (hargs : op.scalarArgs w.vocabulary = some (type, x))
    (hstep : w.step op = (.ok reply, next)) :
    next.frames = ⟨.vector (some (type, UInt32.ofNat x.kind.width)), header⟩ :: w.frames.tail ∧
      slice next.buffer (header + 8) 8 = word32 type ++ word32 (UInt32.ofNat x.kind.width) := by
  obtain ⟨move, frames, hallows, _, rfl⟩ := step_ok hstep
  obtain ⟨outer, hframes⟩ := List.head?_eq_some_iff.mp hframe
  have hmove := hallows.move_eq
  rw [hframes] at hmove
  obtain rfl := Op.move_eq_lock hargs hmove
  rw [perform_frames hallows.turn_eq, ← x.length_payload]
  refine ⟨(Except.ok.inj hallows.turn_eq).symm, ?_⟩
  exact slice_perform hallows.demand_le (hroot.patchEnd_le hallows.sound) (by simp) rfl

/-- A call that succeeds in place comes to the writer that is computed for it. -/
theorem InUse.step_eq (h : w.InUse) (hreset : op.isReset = false)
    (hanswer : (w.execute op).1 = .ok reply) :
    w.Rooted ∧ w.step op = (.ok reply, (w.execute op).2) := by
  have hspace := execute_ok_space hanswer hreset
  have hroot := h.rooted hspace
  obtain ⟨hsame, hnext⟩ := Mirrors.of_space hspace hroot op
  have hkept : (w.step op).2.exhausted = false := by
    apply step_keeps_space hspace
    rw [← hsame, hanswer]
    nofun
  rw [hnext.eq_of_space hkept, ← hanswer, hsame]
  exact ⟨hroot, rfl⟩

/-- A call that fails changes no byte. -/
theorem InUse.ok_of_changed (h : w.InUse)
    (hchanged : (w.execute op).2.buffer[pos]? ≠ w.buffer[pos]?) :
    ∃ reply, (w.execute op).1 = .ok reply := by
  obtain ⟨ideal, hmirrors, hroot⟩ := h
  obtain ⟨hsame, hnext⟩ := hmirrors.execute hroot op
  cases hstep : ideal.step op with
  | mk answer next =>
    rw [hstep] at hsame hnext
    cases answer with
    | ok reply => exact ⟨reply, hsame⟩
    | error e =>
      obtain ⟨exhausted, rfl⟩ := step_error hstep
      refine absurd ?_ hchanged
      rw [hnext.buffer, hmirrors.buffer]
      rfl

end Writer

/-- For a writer after any calls. A call that is not a reset never moves the cursor back and
keeps every byte from its new position on. Of the bytes below its old position it changes
only the size of the container that it closes, to what was written since the header, or
the type and width of the vector that it gives them. Over any calls without a reset, hence,
the bytes from the cursor on are the old ones, and finished atoms keep theirs. -/
theorem execute_footprint (v : Vocabulary) (zeroPadding : Bool) (buffer : Bytes)
    (before : List Op) :
    let fresh := Writer.create v zeroPadding buffer
    let w := (fresh.executeAll before).2
    (∀ op : Op, op.isReset = false →
      let answer := (w.execute op).1
      let after := (w.execute op).2
      w.size ≤ after.size ∧
      (∀ pos, after.size ≤ pos → after.buffer[pos]? = w.buffer[pos]?) ∧
      (∀ pos < w.size, after.buffer[pos]? ≠ w.buffer[pos]? →
        (∃ reply, answer = .ok reply) ∧
        ((∃ frame ∈ w.frames.head?, op.role = .closing ∧ frame.header + 4 ≤ pos ∧
            pos < frame.header + 8) ∨
          ∃ header args, w.frames.head? = some ⟨.vector none, header⟩ ∧
            op.scalarArgs v = some args ∧ header + 8 ≤ pos ∧ pos < header + 16)) ∧
      (∀ reply, answer = .ok reply → op.role = .closing →
        ∃ frame ∈ w.frames.head?, after.frames = w.frames.tail ∧ frame.header + 8 ≤ w.size ∧
          w.size - (frame.header + 8) ≤ maxBody ∧
          slice after.buffer (frame.header + 4) 4 = leBytes 4 (w.size - (frame.header + 8))) ∧
      ∀ reply header type x, answer = .ok reply →
        w.frames.head? = some ⟨.vector none, header⟩ → op.scalarArgs v = some (type, x) →
        after.frames =
          ⟨.vector (some (type, UInt32.ofNat x.kind.width)), header⟩ :: w.frames.tail ∧
        slice after.buffer (header + 8) 8 = word32 type ++ word32 (UInt32.ofNat x.kind.width)) ∧
    ∀ ops : List Op, (∀ op ∈ ops, op.isReset = false) →
      let last := (w.executeAll ops).2
      (∀ pos, last.size ≤ pos → last.buffer[pos]? = w.buffer[pos]?) ∧
      ∀ e ∈ fresh.finishedAtoms [] before, ∀ pos, e.header ≤ pos → pos < e.stop →
        last.buffer[pos]? = w.buffer[pos]? := by
  intro fresh w
  have huse : w.InUse := Writer.InUse.created v zeroPadding buffer before
  have hvocabulary : w.vocabulary = v := Writer.executeAll_vocabulary v zeroPadding buffer before
  have hfresh := Writer.Rooted.create v zeroPadding buffer
  have hroot := hfresh.run before
  have hmirrors : w.Mirrors (fresh.run before).2 :=
    ((Writer.Mirrors.refl fresh).executeAll hfresh before).2
  refine ⟨?_, ?_⟩
  · intro op hreset answer after
    have hnext : after.Mirrors ((fresh.run before).2.step op).2 :=
      (hmirrors.execute hroot op).2
    refine ⟨?_, ?_, ?_, ?_, ?_⟩
    · rw [hmirrors.size, hnext.size]
      exact Writer.size_le_step hroot hreset
    · intro pos hpos
      rw [hnext.size] at hpos
      rw [hmirrors.buffer, hnext.buffer]
      exact Writer.getElem?_step_above hroot hreset hpos
    · intro pos hpos hchanged
      obtain ⟨reply, hanswer⟩ := huse.ok_of_changed hchanged
      obtain ⟨hrooted, hstep⟩ := huse.step_eq hreset hanswer
      rw [← hvocabulary]
      exact ⟨⟨reply, hanswer⟩, Writer.changed_below hrooted hreset hstep hpos hchanged⟩
    · intro reply hanswer hrole
      obtain ⟨hrooted, hstep⟩ := huse.step_eq hreset hanswer
      exact Writer.slice_of_closing hrooted hrole hstep
    · intro reply header type x hanswer hframe hargs
      obtain ⟨hrooted, hstep⟩ := huse.step_eq hreset hanswer
      rw [← hvocabulary] at hargs
      exact Writer.slice_of_lock hrooted hframe hargs hstep
  · intro ops hreset last
    have hlast : last.Mirrors ((fresh.run before).2.run ops).2 :=
      (hmirrors.executeAll hroot ops).2
    refine ⟨?_, ?_⟩
    · intro pos hpos
      rw [hlast.size] at hpos
      rw [hmirrors.buffer, hlast.buffer]
      exact Writer.getElem?_run_above hroot hreset hpos
    · intro e he pos hfirst hstop
      have hsealed := (Writer.Sealed.create v zeroPadding buffer).run hfresh before
      rw [hmirrors.buffer, hlast.buffer]
      exact hsealed.getElem?_run hroot hreset he hfirst hstop

/-- A vector in a tuple, behind a finished value, gets its type and then its size, and the
tuple is closed over both. -/
theorem execute_footprint_tuple :
    let v := UriTable.empty.resolve.1
    let fresh := Writer.create v true (List.replicate 56 7)
    let before : List Op := [.pushTuple, .value (.int 5), .pushVector 0 0]
    let w := (fresh.executeAll before).2
    let typed := (fresh.executeAll (before ++ [.value (.int 6)])).2
    let last := (w.executeAll [.value (.int 6), .pop, .pop]).2
    w.frames = [⟨.vector none, 24⟩, ⟨.tuple, 0⟩] ∧
      slice (w.execute (.value (.int 6))).2.buffer 32 8 = word32 (v.id .int) ++ word32 4 ∧
      slice (typed.execute .pop).2.buffer 28 4 = leBytes 4 12 ∧
      last.depth = 0 ∧ last.size = 48 ∧
      (∀ pos, 48 ≤ pos → last.buffer[pos]? = w.buffer[pos]?) ∧
      ∀ pos, 8 ≤ pos → pos < 24 → last.buffer[pos]? = w.buffer[pos]? := by
  intro v fresh before w typed last
  have hframes : w.frames = [⟨.vector none, 24⟩, ⟨.tuple, 0⟩] := by decide +kernel
  have htyped : typed.frames.head? = some ⟨.vector (some (v.id .int, 4)), 24⟩ ∧
      typed.size = 44 := by decide +kernel
  have hanswers : (w.execute (.value (.int 6))).1 = .ok .done ∧
      (typed.execute .pop).1 = .ok .done := by decide +kernel
  have hlast : last.depth = 0 ∧ last.size = 48 ∧ fresh.finishedAtoms [] before = [⟨8, 4⟩] := by
    decide +kernel
  obtain ⟨hdepth, hsize, hatoms⟩ := hlast
  have hfirst := execute_footprint v true (List.replicate 56 7) before
  have hsecond := execute_footprint v true (List.replicate 56 7) (before ++ [.value (.int 6)])
  extract_lets at hfirst hsecond
  obtain ⟨hcalls, hruns⟩ := hfirst
  obtain ⟨_, _, _, _, hlock⟩ := hcalls (.value (.int 6)) rfl
  obtain ⟨_, _, _, hclosing, _⟩ := hsecond.1 .pop rfl
  obtain ⟨frame, hframe, _, _, _, hfield⟩ := hclosing _ hanswers.2 rfl
  rw [htyped.1, Option.mem_some_iff] at hframe
  rw [← hframe, htyped.2] at hfield
  obtain ⟨habove, hkept⟩ := hruns [.value (.int 6), .pop, .pop] (by decide)
  refine ⟨hframes, (hlock _ 24 _ _ hanswers.1 (by rw [hframes]; rfl) rfl).2, hfield, hdepth, hsize,
    ?_, ?_⟩
  · intro pos hpos
    exact habove pos (hsize.trans_le hpos)
  · intro pos hfirst hstop
    exact hkept ⟨8, 4⟩ (by rw [hatoms]; exact List.mem_cons_self) pos hfirst hstop

end AtomWire

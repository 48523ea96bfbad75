import AtomWire.Proofs.Lockstep

/-!
# The stack of open containers

The elements of a vector may have any width, and still every header starts at a multiple
of eight bytes: a vector is always the innermost container, so nothing but its elements is
written until its end pads it. `Stacked` says how the open containers lie in the bytes. It
is read off the draft of a run, and a key or stamp that is used up without its value, as
happens when space runs out, does not disturb it.
-/

namespace AtomWire

set_option autoImplicit false

/-- Neither a vector nor with a key or stamp that waits for its value. -/
def FrameKind.Settled (kind : FrameKind) : Prop :=
  kind.container ≠ .vector ∧ kind.awaiting = false

/-- The open containers, the innermost first, as they lie in the written bytes. -/
structure Stacked (v : Vocabulary) (frames : List Frame) (written : Bytes) : Prop where
  aligned : ∀ frame ∈ frames, frame.header % 8 = 0
  rising : frames.Pairwise fun inner outer =>
    outer.header < inner.header ∧ outer.footing ≤ inner.header
  below : ∀ frame ∈ frames, frame.header < written.length ∧ frame.footing ≤ written.length
  settled : ∀ frame ∈ frames.tail, frame.kind.Settled
  /-- The header of an open container has its type and announces no body yet. -/
  blank : ∀ frame ∈ frames, v.id frame.kind.container.term ≠ 0 ∧
    headerBytes (v.id frame.kind.container.term) 0 <+: written.drop frame.header
  cursor : (∀ frame ∈ frames.head?, frame.kind.container ≠ .vector) → written.length % 8 = 0

/-- The type and the width of its elements lead the body of the vector at `header`, and
only the elements follow. As long as type and width are zero, there are none. -/
def OpenVector (lock : Option (TypeId × UInt32)) (header elements : Nat) (written : Bytes) : Prop :=
  let childType := (lock.getD (0, 0)).1
  let width := (lock.getD (0, 0)).2
  word32 childType ++ word32 width <+: written.drop (header + headerSize) ∧
    ((childType = 0 ∧ width = 0 ∧ written.length = header + 16) ∨
      (childType ≠ 0 ∧ width ≠ 0 ∧ written.length = header + 16 + width.toNat * elements))

/-- The number of items in the innermost open container. -/
def Journal.innermost (j : Journal) : Nat := (j.opened.head?.map Container.count).getD 0

section Lengths

variable {kind : FrameKind} {count lead : Nat} {content : Bytes} {records : List Record}

theorem Record.length_flat_mod (hfit : ∀ r ∈ records, r.Fits lead) (hlead : lead % 8 = 0) :
    (flat records).length % 8 = 0 := by
  induction records with
  | nil => rfl
  | cons r rest ih =>
    rw [List.forall_mem_cons] at hfit
    have hrest := ih hfit.2
    have hpad := add_padding_mod r.body.length
    rw [flat_cons, List.length_append, length_bytes hfit.1, headerSize]
    omega

theorem Series.length {awaiting : Bool} (h : Series awaiting count content) :
    8 ≤ content.length ∧ content.length % 8 = 0 := by
  obtain ⟨lead, inner, label, hlead, _, hfit, hlabel, rfl⟩ := h
  have hinner := Record.length_flat_mod hfit rfl
  simp only [List.length_append, hlead, hlabel]
  cases awaiting <;> simp <;> omega

theorem Content.frontSize_le (h : Content kind count content) :
    kind.frontSize ≤ content.length := by
  cases kind with
  | vector lock =>
    cases lock with
    | none =>
      obtain ⟨_, rfl⟩ := h
      simp [FrameKind.frontSize]
    | some locked =>
      obtain ⟨_, elements, rfl, _⟩ := h
      simp only [FrameKind.frontSize, List.length_append, length_word32]
      omega
  | tuple => exact Nat.zero_le _
  | object awaiting | sequence unit awaiting => exact (Series.length h).1

/-- Only the elements of a vector can leave the cursor between multiples of eight. -/
theorem Content.length_mod (h : Content kind count content) (hkind : kind.container ≠ .vector) :
    content.length % 8 = 0 := by
  cases kind with
  | vector lock => exact absurd rfl hkind
  | tuple =>
    obtain ⟨inner, _, hfit, rfl⟩ := h
    exact Record.length_flat_mod hfit rfl
  | object awaiting | sequence unit awaiting => exact (Series.length h).2

end Lengths

section Stacks

variable {v : Vocabulary} {frames begun outer : List Frame} {j : Journal} {written : Bytes}
  {lock : Option (TypeId × UInt32)} {header : Nat}

theorem FrameKind.settled_beginValue {kind kind' : FrameKind} (h : kind.beginValue = .ok kind') :
    kind'.Settled := by
  obtain ⟨hcontainer, hvector⟩ := container_of_beginValue h
  refine ⟨hcontainer ▸ hvector, ?_⟩
  unfold beginValue at h
  split at h <;> cases h <;> rfl

namespace Stacked

theorem nil (h : written.length % 8 = 0) : Stacked v [] written :=
  ⟨nofun, List.Pairwise.nil, nofun, nofun, nofun, fun _ => h⟩

/-- Where a value starts, no open container is a vector or waits for a value any more. -/
theorem begin (h : Stacked v frames written) (hbegin : beginFrames frames = .ok begun) :
    Stacked v begun written ∧ ∀ frame ∈ begun, frame.kind.Settled := by
  cases frames with
  | nil =>
    cases hbegin
    exact ⟨h, nofun⟩
  | cons frame outer =>
    obtain ⟨kind, hkind, hbegun⟩ := bind_eq_ok_iff.mp hbegin
    cases hbegun
    obtain ⟨hcontainer, hvector⟩ := container_of_beginValue hkind
    have hsettled := FrameKind.settled_beginValue hkind
    have hfooting : (Frame.mk kind frame.header).footing = frame.footing := by
      rw [Frame.footing, Frame.footing, FrameKind.frontSize_beginValue hkind]
    refine ⟨⟨?_, ?_, ?_, h.settled, ?_, ?_⟩, ?_⟩
    · simpa using h.aligned
    · simpa using h.rising
    · simpa [hfooting] using h.below
    · simpa [hcontainer] using h.blank
    · simpa [hcontainer] using h.cursor
    · exact List.forall_mem_cons.mpr ⟨hsettled, h.settled⟩

theorem of_begun (h : Stacked v frames written) (hbegun : Begun frames begun) :
    Stacked v begun written := by
  rcases hbegun with rfl | hbegin
  · exact h
  · exact (h.begin hbegin).1

theorem cursor_of_begin (h : Stacked v frames written) (hbegin : beginFrames frames = .ok begun) :
    written.length % 8 = 0 := by
  obtain ⟨hbegun, hsettled⟩ := h.begin hbegin
  exact hbegun.cursor fun frame hframe => (hsettled frame (List.mem_of_mem_head? hframe)).1

theorem push {kind : FrameKind} {count : Nat} {content : Bytes} (h : Stacked v frames written)
    (hbegin : beginFrames frames = .ok begun) (htype : v.id kind.container.term ≠ 0)
    (hcontent : Content kind count content) :
    Stacked v (⟨kind, written.length⟩ :: begun)
      (written ++ (headerBytes (v.id kind.container.term) 0 ++ content)) := by
  obtain ⟨hbegun, hsettled⟩ := h.begin hbegin
  have hcursor := h.cursor_of_begin hbegin
  have hfront := hcontent.frontSize_le
  have hfooting : (Frame.mk kind written.length).footing =
      written.length + 8 + kind.frontSize := rfl
  refine ⟨?_, ?_, ?_, hsettled, ?_, ?_⟩
  · exact List.forall_mem_cons.mpr ⟨hcursor, hbegun.aligned⟩
  · exact List.pairwise_cons.mpr ⟨hbegun.below, hbegun.rising⟩
  · simp only [List.length_append, length_headerBytes, List.forall_mem_cons, hfooting]
    refine ⟨by omega, fun frame hframe => ?_⟩
    have hbelow := hbegun.below frame hframe
    omega
  · refine List.forall_mem_cons.mpr ⟨⟨htype, ?_⟩, fun frame hframe => ?_⟩
    · rw [List.drop_left]
      exact List.prefix_append _ _
    · obtain ⟨hne, hheader⟩ := hbegun.blank frame hframe
      have hstart := Nat.le_of_lt (hbegun.below frame hframe).1
      rw [List.drop_append_of_le_length hstart]
      exact ⟨hne, hheader.trans (List.prefix_append _ _)⟩
  · intro hhead
    have hmod := hcontent.length_mod (hhead _ rfl)
    simp only [List.length_append, length_headerBytes]
    omega

end Stacked

theorem Draft.stacked (h : Draft v frames j written) : Stacked v frames written := by
  induction h with
  | base hfit hclosed =>
    exact Stacked.nil (Record.length_flat_mod (fun r hr => (hfit r hr).1) rfl)
  | nested houter hbegin htype hne hcontent hclosed ih =>
    subst htype
    exact ih.push hbegin hne hcontent

theorem Draft.openVector (h : Draft v (⟨.vector lock, header⟩ :: outer) j written) :
    OpenVector lock header j.innermost written := by
  cases h with
  | @nested _ _ _ before content _ type count _ _ _ _ _ hcontent _ =>
    have hdrop : (before ++ (headerBytes type 0 ++ content)).drop (before.length + headerSize) =
        content := by
      rw [← List.drop_drop, List.drop_left]
      exact List.drop_left' (length_headerBytes type 0)
    unfold OpenVector
    rw [hdrop]
    simp only [List.length_append, length_headerBytes]
    cases lock with
    | none =>
      obtain ⟨_, rfl⟩ := hcontent
      exact ⟨List.prefix_refl _, Or.inl ⟨rfl, rfl, rfl⟩⟩
    | some locked =>
      obtain ⟨hne, elements, rfl, hlen⟩ := hcontent
      refine ⟨?_, Or.inr ⟨hne.1, hne.2, ?_⟩⟩
      · rw [← List.append_assoc]
        exact List.prefix_append _ _
      · simp only [List.length_append, length_word32, hlen, Journal.innermost, List.head?_cons,
          Option.map_some, Option.getD_some, Nat.mul_comm count]
        omega

theorem Begun.eq_of_vector (h : Begun frames (⟨.vector lock, header⟩ :: outer)) :
    frames = ⟨.vector lock, header⟩ :: outer := by
  rcases h with heq | hbegin
  · exact heq.symm
  · cases frames with
    | nil => cases hbegin
    | cons frame rest =>
      obtain ⟨kind, hkind, hbegun⟩ := bind_eq_ok_iff.mp hbegin
      cases hbegun
      exact absurd rfl (FrameKind.settled_beginValue hkind).1

end Stacks

theorem Move.length_turn {move : Move} {size : Nat} {frames after : List Frame}
    (h : move.turn size frames = .ok after) (hdepth : frames.length ≤ maxDepth) :
    after.length ≤ maxDepth := by
  cases move with
  | skip count | element bytes =>
    cases h
    exact hdepth
  | leaf type body =>
    rw [length_beginFrames h]
    exact hdepth
  | lock header type bytes =>
    cases h
    simp only [List.length_cons, List.length_tail, maxDepth] at hdepth ⊢
    omega
  | label bytes =>
    cases h
    rwa [List.length_modifyHead]
  | enter kind type lead =>
    obtain ⟨hroom, hturn⟩ := ensure_eq_ok_iff.mp h
    obtain ⟨begun, hbegin, hafter⟩ := bind_eq_ok_iff.mp hturn
    cases hafter
    rw [List.length_cons, length_beginFrames hbegin]
    exact of_decide_eq_true hroom
  | leave header =>
    cases h
    rw [List.length_tail]
    omega
  | restart buffer =>
    cases h
    exact Nat.zero_le _

/-- The length of the buffer after a call on a buffer of the given length. -/
def Op.bufferLength (length : Nat) : Op → Nat
  | reset (some buffer) => buffer.length
  | _ => length

/-- The call starts an atom of its own: a container, or a value that is not the element of
a vector. -/
def Op.StartsAtom (frames : List Frame) (op : Op) : Prop :=
  (∃ kind, op.role = .opening kind) ∨
    (op.role = .item ∧ ∀ frame ∈ frames.head?, frame.kind.container ≠ .vector)

/-- What starts an atom makes one of two moves. -/
theorem Op.StartsAtom.move_cases {v : Vocabulary} {frames : List Frame} {op : Op} {made : Move}
    (h : op.StartsAtom frames) (hmove : op.move v frames = .ok made) :
    (∃ type body, made = .leaf type body) ∨ ∃ kind type lead, made = .enter kind type lead := by
  have hsound := Op.move_sound hmove
  have hrole := Op.role_eq hmove
  unfold StartsAtom at h
  rw [hrole] at h
  cases made with
  | leaf type body => exact Or.inl ⟨type, body, rfl⟩
  | enter kind type lead => exact Or.inr ⟨kind, type, lead, rfl⟩
  | element bytes =>
    obtain ⟨type, width, header, outer, rfl, _⟩ := hsound
    rcases h with ⟨kind, hopening⟩ | ⟨_, hvector⟩
    · cases hopening
    · exact absurd rfl (hvector _ rfl)
  | lock header type bytes =>
    obtain ⟨_, _, outer, rfl⟩ := hsound
    rcases h with ⟨kind, hopening⟩ | ⟨_, hvector⟩
    · cases hopening
    · exact absurd rfl (hvector _ rfl)
  | skip count | label bytes | leave header | restart buffer =>
    rcases h with ⟨kind, hopening⟩ | ⟨hitem, _⟩
    · cases hopening
    · cases hitem

namespace Writer

variable {w : Writer} {op : Op}

theorem depth_step (h : w.depth ≤ maxDepth) (op : Op) : (w.step op).2.depth ≤ maxDepth := by
  cases hstep : w.step op with
  | mk answer next =>
    cases answer with
    | error e =>
      obtain ⟨exhausted, rfl⟩ := step_error hstep
      exact h
    | ok reply =>
      obtain ⟨move, frames, hallows, _, rfl⟩ := step_ok hstep
      rw [depth, perform_frames hallows.turn_eq]
      exact Move.length_turn hallows.turn_eq h

theorem depth_run (h : w.depth ≤ maxDepth) (ops : List Op) : (w.run ops).2.depth ≤ maxDepth := by
  induction ops generalizing w with
  | nil => exact h
  | cons op rest ih => exact ih (depth_step h op)

theorem capacity_eq (w : Writer) : w.capacity = w.size + w.spare.length := List.length_append

/-- The cursor moves within the buffer, whose length only a reset can change. -/
theorem capacity_step (hroot : w.Rooted) (op : Op) :
    (w.step op).2.capacity = op.bufferLength w.capacity := by
  cases hreset : op.isReset with
  | true =>
    cases op with
    | reset buffer =>
      rw [step_reset]
      cases buffer <;> rfl
    | _ => cases hreset
  | false =>
    have hlength : op.bufferLength w.capacity = w.capacity := by
      cases op with
      | reset buffer => cases hreset
      | _ => rfl
    rw [hlength]
    cases hstep : w.step op with
    | mk answer next =>
      cases answer with
      | error e =>
        obtain ⟨exhausted, rfl⟩ := step_error hstep
        rfl
      | ok reply =>
        obtain ⟨move, frames, hallows, _, rfl⟩ := step_ok hstep
        have hroom := hallows.demand_le
        obtain ⟨hsize, hspare⟩ := @size_perform w move frames hroom
          (hroot.patchEnd_le hallows.sound) (hallows.ne_restart hreset)
        rw [capacity_eq, capacity_eq, hsize, hspare]
        omega

theorem capacity_run (hroot : w.Rooted) (ops : List Op) :
    (w.run ops).2.capacity = ops.foldl Op.bufferLength w.capacity := by
  induction ops generalizing w with
  | nil => rfl
  | cons op rest ih =>
    rw [run, ih (hroot.step op), capacity_step hroot op]
    rfl

/-- A successful call that starts an atom puts the header at the cursor, and the cursor is
at a multiple of eight. -/
theorem header_of_startsAtom {reply : Reply} {next : Writer}
    (h : Stacked w.vocabulary w.frames w.written) (hop : op.StartsAtom w.frames)
    (hstep : w.step op = (.ok reply, next)) :
    w.size % 8 = 0 ∧ ∃ type body, type ≠ 0 ∧
      headerBytes type body <+: next.written.drop w.size := by
  obtain ⟨move, frames, hallows, rfl, rfl⟩ := step_ok hstep
  rcases hop.move_cases hallows.move_eq with ⟨type, body, rfl⟩ | ⟨kind, type, lead, rfl⟩
  · obtain ⟨pad, _, heq⟩ := perform_leaf frames hallows.demand_le
    refine ⟨h.cursor_of_begin hallows.turn_eq, type, body.length, hallows.sound, ?_⟩
    rw [heq, finishAtom_eq]
    simp [append, size, Record.bytes]
  · obtain ⟨_, hturn⟩ := ensure_eq_ok_iff.mp hallows.turn_eq
    obtain ⟨begun, hbegin, _⟩ := bind_eq_ok_iff.mp hturn
    refine ⟨h.cursor_of_begin hbegin, type, 0, hallows.sound.1, ?_⟩
    simp [perform, append, size]

theorem execute_ok_space {reply : Reply} (h : (w.execute op).1 = .ok reply)
    (hreset : op.isReset = false) : w.exhausted = false := by
  cases hspace : w.exhausted with
  | false => rfl
  | true =>
    rw [execute_exhausted hspace hreset] at h
    cases h

end Writer

theorem Op.StartsAtom.isReset {frames : List Frame} {op : Op} (h : op.StartsAtom frames) :
    op.isReset = false := by
  cases op with
  | reset buffer => rcases h with ⟨kind, hopening⟩ | ⟨hitem, _⟩ <;> contradiction
  | _ => rfl

/-- After any calls but bare reservations, failed ones and resets among them: the cursor is
within the buffer, which is as long as the one given last, at most 16 containers are open,
and they are stacked in the bytes behind the cursor. An open vector reaches from its header
to the cursor. Hence a call that starts an atom puts its header at a multiple of eight. -/
theorem executeAll_stacked (v : Vocabulary) (zeroPadding : Bool) (buffer : Bytes) (ops : List Op)
    (hops : ∀ count, Op.reserve count ∉ ops) :
    let run := (Writer.create v zeroPadding buffer).executeAll ops
    let w := run.2
    let journal := Journal.empty.noteAll ops run.1
    w.size ≤ w.capacity ∧ w.capacity = ops.foldl Op.bufferLength buffer.length ∧
      w.depth ≤ 16 ∧ Stacked v w.frames w.written ∧
      (∀ lock header outer, w.frames = ⟨.vector lock, header⟩ :: outer →
        OpenVector lock header journal.innermost w.written) ∧
      ∀ op reply, op.StartsAtom w.frames → (w.execute op).1 = .ok reply →
        w.size % 8 = 0 ∧ ∃ type body, type ≠ 0 ∧
          headerBytes type body <+: (w.execute op).2.written.drop w.size := by
  intro run w journal
  have hroot := Writer.Rooted.create v zeroPadding buffer
  let ideal := ((Writer.create v zeroPadding buffer).run ops).2
  obtain ⟨hanswers, hmirrors⟩ := (Writer.Mirrors.refl _).executeAll hroot ops
  have hdraft : Draft v ideal.frames journal w.written := by
    have htracks := (Tracks.create v zeroPadding buffer).run (Op.role_ne_gap hops)
    rw [← hanswers] at htracks
    have hdraft := htracks.draft
    rwa [Writer.run_vocabulary, ← hmirrors.written] at hdraft
  have hstacked : Stacked v w.frames w.written := hdraft.stacked.of_begun hmirrors.begun
  refine ⟨?_, ?_, ?_, hstacked, ?_, ?_⟩
  · rw [Writer.capacity_eq]
    exact Nat.le_add_right _ _
  · rw [Writer.capacity, hmirrors.buffer]
    exact Writer.capacity_run hroot ops
  · rw [hmirrors.depth]
    exact Writer.depth_run (Nat.zero_le _) ops
  · intro lock header outer hframes
    have hbegun := hmirrors.begun
    rw [hframes] at hbegun
    rw [Begun.eq_of_vector hbegun] at hdraft
    exact hdraft.openVector
  · intro op reply hop hanswer
    have hspace := Writer.execute_ok_space hanswer hop.isReset
    have hideal : w = ideal := hmirrors.eq_of_space (hmirrors.exhausted ▸ hspace)
    have hrooted : w.Rooted := hideal ▸ hroot.run ops
    have hvocabulary : w.vocabulary = v := hideal ▸ Writer.run_vocabulary _ ops
    obtain ⟨hsame, hnext⟩ := Writer.Mirrors.of_space hspace hrooted op
    have hstep : w.step op = (.ok reply, (w.step op).2) := by rw [← hanswer, hsame]
    rw [hnext.written]
    exact Writer.header_of_startsAtom (hvocabulary.symm ▸ hstacked) hop hstep

/-- A vector that is the value of a property gets its type from the first element; an atom
in it is refused, and a second element does not fit. -/
theorem executeAll_stacked_vector :
    let v := UriTable.empty.resolve.1
    let ops : List Op := [.pushTuple, .pop, .reset (some (List.replicate 44 7)), .pushObject 3 0,
      .property 9 0, .pushVector 0 0, .chunk [], .value (.int 5), .value (.int 6)]
    let w := ((Writer.create v false (List.replicate 8 0)).executeAll ops).2
    w.frames = [⟨.vector (some (v.id .int, 4)), 24⟩, ⟨.object false, 0⟩] ∧ w.size = 44 ∧
      w.exhausted = true ∧ w.capacity = 44 ∧ Stacked v w.frames w.written ∧
      OpenVector (some (v.id .int, 4)) 24 1 w.written := by
  intro v ops w
  have hstate : w.frames = [⟨.vector (some (v.id .int, 4)), 24⟩, ⟨.object false, 0⟩] ∧
      w.size = 44 ∧ w.exhausted = true := by decide +kernel
  have hcount : (Journal.empty.noteAll ops
      ((Writer.create v false (List.replicate 8 0)).executeAll ops).1).innermost = 1 := by
    decide +kernel
  obtain ⟨_, hcapacity, _, hstacked, hvector, _⟩ :=
    executeAll_stacked v false (List.replicate 8 0) ops (by simp [ops])
  have hopen := hvector _ _ _ hstate.1
  rw [hcount] at hopen
  exact ⟨hstate.1, hstate.2.1, hstate.2.2, hcapacity, hstacked, hopen⟩

end AtomWire

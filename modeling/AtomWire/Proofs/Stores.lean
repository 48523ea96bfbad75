import AtomWire.Proofs.Growth

/-!
# Where bytes are stored

Bytes are stored in room that the cursor has just moved over, or further back in the front
of an open container. The first kind comes to the same as moving the cursor over the bytes
themselves. The second never reaches beyond what is written, since the fronts of all open
containers stay behind the cursor (`Writer.Rooted`).
-/

namespace AtomWire

set_option autoImplicit false

theorem length_overwrite {bytes patch : Bytes} {start : Nat}
    (h : start + patch.length ≤ bytes.length) :
    (overwrite bytes start patch).length = bytes.length := by
  simp only [overwrite, List.length_append, List.length_take, List.length_drop]
  omega

theorem overwrite_append {front back bytes : Bytes} {start : Nat}
    (h : start + bytes.length ≤ front.length) :
    overwrite (front ++ back) start bytes = overwrite front start bytes ++ back := by
  rw [overwrite, overwrite, List.take_append_of_le_length (by omega),
    List.drop_append_of_le_length h, List.append_assoc, List.append_assoc, List.append_assoc]

/-- The end of the bytes that a move fills in after the fact. -/
def Move.patchEnd : Move → Nat
  | lock header _ _ => header + headerSize + 8
  | leave header => header + headerSize
  | _ => 0

namespace Writer

variable {w : Writer} {move : Move} {frames : List Frame}

/-- Bytes stored over some of those that the cursor has just moved over. -/
theorem patch_append (w : Writer) (front : Bytes) {old bytes : Bytes} (rest : Bytes)
    (h : bytes.length = old.length) :
    (w.append (front ++ (old ++ rest))).patch (w.size + front.length) bytes =
      w.append (front ++ (bytes ++ rest)) := by
  have hpatch : overwrite ((w.written ++ front) ++ (old ++ rest)) (w.written ++ front).length
      bytes = (w.written ++ front) ++ (bytes ++ rest) := overwrite_middle h
  simp only [List.length_append, List.append_assoc] at hpatch
  simp [patch, append, size, hpatch, h]

/-- What padding of `count` bytes consists of, `start` bytes behind the cursor. -/
def filler (w : Writer) (start count : Nat) : Bytes :=
  if w.zeroPadding then List.replicate count 0 else (w.spare.drop start).take count

theorem pad_append (w : Writer) (bytes : Bytes) (count : Nat) :
    (w.append bytes).pad count = w.append (bytes ++ w.filler bytes.length count) := by
  rw [pad, append_append]
  rfl

theorem fill_append (front : Bytes) {count : Nat} (h : front.length + count ≤ w.spare.length) :
    (if w.zeroPadding then
      (w.append (front ++ (w.spare.drop front.length).take count)).patch (w.size + front.length)
        (List.replicate count 0)
    else w.append (front ++ (w.spare.drop front.length).take count)) =
      w.append (front ++ w.filler front.length count) := by
  cases hzero : w.zeroPadding with
  | false => simp [filler, hzero]
  | true =>
    have hlen : (List.replicate count (0 : UInt8)).length =
        ((w.spare.drop front.length).take count).length := by
      simp only [List.length_replicate, List.length_take, List.length_drop]
      omega
    simpa [filler, hzero] using patch_append w front [] hlen

/-- Bytes stored at the start of the room that was taken. -/
theorem patch_take {bytes : Bytes} (h : bytes.length ≤ w.spare.length) (count : Nat) :
    (w.append (w.spare.take (bytes.length + count))).patch w.size bytes =
      w.append (bytes ++ (w.spare.drop bytes.length).take count) := by
  have hlen : bytes.length = (w.spare.take bytes.length).length := by
    rw [List.length_take]
    omega
  rw [List.take_add]
  exact patch_append w [] ((w.spare.drop bytes.length).take count) hlen

theorem patch_take_all {bytes : Bytes} (h : bytes.length ≤ w.spare.length) :
    (w.append (w.spare.take bytes.length)).patch w.size bytes = w.append bytes := by
  simpa using patch_take h 0

theorem patch_take_two (w : Writer) (first second : Bytes)
    (h : first.length + second.length ≤ w.spare.length) :
    ((w.append (w.spare.take (first.length + second.length))).patch w.size first).patch
      (w.size + first.length) second = w.append (first ++ second) := by
  have hlen : second.length = ((w.spare.drop first.length).take second.length).length := by
    rw [List.length_take, List.length_drop]
    omega
  rw [patch_take (by omega)]
  simpa using patch_append w first [] hlen

theorem patch_behind {words bytes : Bytes} {start : Nat} (hstart : start + words.length ≤ w.size)
    (hroom : bytes.length ≤ w.spare.length) :
    ((w.append (w.spare.take bytes.length)).patch start words).patch w.size bytes =
      (w.patch start words).append bytes := by
  have hmoved : (w.append (w.spare.take bytes.length)).patch start words =
      (w.patch start words).append (w.spare.take bytes.length) := by
    simp only [patch, append, overwrite_append hstart]
  have hsize : (w.patch start words).size = w.size := length_overwrite hstart
  rw [hmoved, ← hsize]
  exact patch_take_all (w := w.patch start words) hroom

theorem fill_take {count : Nat} (h : count ≤ w.spare.length) :
    (if w.zeroPadding then
      (w.append (w.spare.take count)).patch w.size (List.replicate count 0)
    else w.append (w.spare.take count)) = w.pad count := by
  have hfill := fill_append (w := w) [] (by simpa using h)
  simpa [filler, pad] using hfill

/-- The header, the padding and the body of an atom, stored in this order. -/
theorem store_atom (w : Writer) (header body : Bytes) (count : Nat)
    (h : header.length + body.length + count ≤ w.spare.length) :
    let room := w.spare.take (header.length + body.length + count)
    let opened := (w.append room).patch w.size header
    (if w.zeroPadding then opened.patch (w.size + (header.length + body.length))
        (List.replicate count 0) else opened).patch (w.size + header.length) body =
      (w.append (header ++ body)).pad count := by
  intro room opened
  have hold : body.length = ((w.spare.drop header.length).take body.length).length := by
    rw [List.length_take, List.length_drop]
    omega
  generalize hbody : (w.spare.drop header.length).take body.length = old at hold
  have hfront : (header ++ old).length = header.length + body.length := by
    rw [List.length_append, hold]
  have hopened : opened = w.append
      (header ++ old ++ (w.spare.drop (header ++ old).length).take count) := by
    rw [hfront, ← hbody, List.append_assoc, ← List.drop_drop, ← List.take_add]
    have hheader : header.length ≤ w.spare.length := by omega
    simpa only [opened, room, Nat.add_assoc] using patch_take hheader (body.length + count)
  have hroom : (header ++ old).length + count ≤ w.spare.length := by omega
  have hfill := fill_append (header ++ old) hroom
  rw [← hopened, hfront] at hfill
  rw [hfill, List.append_assoc, patch_append _ _ _ hold, pad_append, List.append_assoc,
    List.length_append]

theorem perform_frames (h : move.turn w.size w.frames = .ok frames) :
    (w.perform frames move).frames = frames := by
  cases move with
  | skip count | element bytes | restart buffer =>
    cases h
    rfl
  | leaf type body =>
    rw [perform, finishAtom_eq]
    rfl
  | leave header => rw [perform, finishAtom_eq]
  | _ => rfl

theorem size_perform (hroom : w.demand move ≤ w.spare.length) (hpatch : move.patchEnd ≤ w.size)
    (hmove : ∀ buffer, move ≠ .restart buffer) :
    (w.perform frames move).size = w.size + w.demand move ∧
      (w.perform frames move).spare.length = w.spare.length - w.demand move := by
  cases move with
  | skip count =>
    have htake : (w.spare.take count).length = count := by simpa [demand] using hroom
    simp [perform, append, size, demand, htake]
  | leaf type body =>
    obtain ⟨pad, hpad, heq⟩ := perform_leaf frames hroom
    have hlen : (Record.bytes ⟨[], type, body, pad⟩).length = atomSize body.length :=
      length_record hpad.1
    rw [heq, finishAtom_eq]
    simp only [append, size, List.length_append, List.length_drop, hlen]
    exact ⟨rfl, rfl⟩
  | element bytes | label bytes => simp [perform, append, size, demand]
  | enter kind type lead => simp [perform, append, size, demand, headerSize]
  | lock header type bytes =>
    have hlen : (overwrite w.written (header + headerSize)
        (word32 type ++ word32 (UInt32.ofNat bytes.length))).length = w.written.length := by
      apply length_overwrite
      simpa [Move.patchEnd, size] using hpatch
    simp [perform, append, patch, size, demand, hlen]
  | leave header =>
    obtain ⟨pad, hpad, heq⟩ := pad_eq hroom
    have hlen : (overwrite (w.written ++ pad) (header + 4)
        (word32 (UInt32.ofNat (w.size - (header + headerSize))))).length =
          (w.written ++ pad).length := by
      apply length_overwrite
      simp only [Move.patchEnd, size, headerSize] at hpatch
      simp only [length_word32, List.length_append]
      omega
    have hcount : pad.length = padding (w.size - (header + headerSize)) := hpad.1
    simp only [demand] at heq ⊢
    simp only [perform, heq, finishAtom_eq, patch, append]
    refine ⟨?_, ?_⟩
    · exact hlen.trans (by rw [List.length_append, hcount, size])
    · rw [List.length_drop, hcount]
  | restart buffer => exact absurd rfl (hmove buffer)

end Writer

/-- The words that lead the body of a container. -/
def FrameKind.frontSize : FrameKind → Nat
  | tuple => 0
  | _ => 8

/-- Where the content of an open container starts. -/
def Frame.footing (frame : Frame) : Nat := frame.header + headerSize + frame.kind.frontSize

theorem FrameKind.frontSize_beginValue {kind begun : FrameKind} (h : kind.beginValue = .ok begun) :
    begun.frontSize = kind.frontSize := by
  unfold beginValue at h
  split at h <;> cases h <;> rfl

theorem FrameKind.frontSize_beginLabel (kind : FrameKind) :
    kind.beginLabel.frontSize = kind.frontSize := by
  cases kind <;> rfl

theorem footing_beginFrames {frames begun : List Frame} (h : beginFrames frames = .ok begun) :
    begun.map Frame.footing = frames.map Frame.footing := by
  cases frames with
  | nil =>
    cases h
    rfl
  | cons frame outer =>
    obtain ⟨kind, hkind, hbegun⟩ := bind_eq_ok_iff.mp h
    cases hbegun
    simp [Frame.footing, FrameKind.frontSize_beginValue hkind]

theorem Move.frontSize_le {v : Vocabulary} {frames : List Frame} {kind : FrameKind}
    {type : TypeId} {lead : Bytes} (h : (Move.enter kind type lead).Sound v frames) :
    kind.frontSize ≤ lead.length := by
  rcases h.2 with ⟨rfl, _, rfl⟩ | ⟨_, _, _, rfl, _, rfl⟩ | ⟨rfl, _, rfl⟩ | ⟨rfl, _, hlead⟩ |
    ⟨_, rfl, _, hlead⟩
  · simp [FrameKind.frontSize]
  · simp [FrameKind.frontSize]
  · exact Nat.le_refl _
  · exact hlead.ge
  · exact hlead.ge

namespace Writer

variable {w : Writer} {op : Op} {move : Move} {frames : List Frame}

/-- The front of every open container is written: its header and the words behind it. -/
def Rooted (w : Writer) : Prop := ∀ start ∈ w.frames.map Frame.footing, start ≤ w.size

namespace Rooted

theorem head {frame : Frame} {outer : List Frame} (h : w.Rooted)
    (hframes : w.frames = frame :: outer) : frame.footing ≤ w.size := by
  apply h
  simp [hframes]

theorem patchEnd_le {v : Vocabulary} (h : w.Rooted) (hsound : move.Sound v w.frames) :
    move.patchEnd ≤ w.size := by
  cases move with
  | lock header type bytes =>
    obtain ⟨_, _, outer, hframes⟩ := hsound
    exact h.head hframes
  | leave header =>
    obtain ⟨kind, outer, hframes, _⟩ := hsound
    exact Nat.le_trans (Nat.le_add_right _ _) (h.head hframes)
  | _ => exact Nat.zero_le _

/-- What a move does to the open containers leaves their fronts behind the cursor. -/
theorem turn {v : Vocabulary} (h : w.Rooted) (hsound : move.Sound v w.frames)
    (hturn : move.turn w.size w.frames = .ok frames) :
    ∀ start ∈ frames.map Frame.footing, start ≤ w.size + w.demand move := by
  have hold : ∀ start ∈ w.frames.map Frame.footing, start ≤ w.size + w.demand move :=
    fun start hstart => Nat.le_trans (h start hstart) (Nat.le_add_right _ _)
  cases move with
  | skip count | element bytes =>
    cases hturn
    exact hold
  | leaf type body => rwa [footing_beginFrames hturn]
  | lock header type bytes =>
    obtain ⟨_, _, outer, hframes⟩ := hsound
    cases hturn
    rw [hframes] at hold ⊢
    exact hold
  | label bytes =>
    obtain ⟨_, kind, header, outer, hframes, _⟩ := hsound
    cases hturn
    rw [hframes] at hold ⊢
    simpa [Frame.footing, FrameKind.frontSize_beginLabel] using hold
  | enter kind type lead =>
    obtain ⟨_, hturn⟩ := ensure_eq_ok_iff.mp hturn
    obtain ⟨begun, hbegin, hframes⟩ := bind_eq_ok_iff.mp hturn
    cases hframes
    have hlead := Move.frontSize_le hsound
    rw [List.map_cons, footing_beginFrames hbegin, List.forall_mem_cons]
    refine ⟨?_, hold⟩
    simp only [Frame.footing, demand]
    omega
  | leave header =>
    cases hturn
    intro start hstart
    apply hold
    rw [List.map_tail] at hstart
    exact List.mem_of_mem_tail hstart
  | restart buffer =>
    cases hturn
    intro start hstart
    cases hstart

theorem perform (h : w.Rooted) (hallows : w.Allows op move frames) :
    (w.perform frames move).Rooted := by
  have hframes := perform_frames hallows.turn_eq
  by_cases hrestart : ∃ buffer, move = .restart buffer
  · obtain ⟨buffer, rfl⟩ := hrestart
    nofun
  · have hmove : ∀ buffer, move ≠ .restart buffer := fun buffer heq => hrestart ⟨buffer, heq⟩
    have hsize : (w.perform frames move).size = w.size + w.demand move :=
      (size_perform hallows.demand_le (h.patchEnd_le hallows.sound) hmove).1
    rw [Rooted, hframes, hsize]
    exact h.turn hallows.sound hallows.turn_eq

theorem step (h : w.Rooted) (op : Op) : (w.step op).2.Rooted := by
  cases hstep : w.step op with
  | mk answer next =>
    cases answer with
    | error e =>
      obtain ⟨exhausted, rfl⟩ := step_error hstep
      exact h
    | ok reply =>
      obtain ⟨move, frames, hallows, _, rfl⟩ := step_ok hstep
      exact h.perform hallows

theorem run (h : w.Rooted) (ops : List Op) : (w.run ops).2.Rooted := by
  induction ops generalizing w with
  | nil => exact h
  | cons op rest ih => exact ih (h.step op)

theorem create (v : Vocabulary) (zeroPadding : Bool) (buffer : Bytes) :
    (Writer.create v zeroPadding buffer).Rooted := nofun

end Rooted
end Writer

end AtomWire

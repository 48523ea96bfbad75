import AtomWire.Proofs.Atomicity
import AtomWire.Proofs.Journal

/-!
# Capacity decides only where a run stops

Two writers get the same calls, over a buffer and over its first bytes. What a call needs
is settled before room is claimed and does not depend on how much of it there is, so the
two go on alike until the first call that the short buffer has no room for. From there on
the short one stands still.
-/

namespace AtomWire

set_option autoImplicit false

theorem Op.isReset_of_restart {v : Vocabulary} {frames : List Frame} {op : Op}
    {buffer : Option Bytes} (h : op.move v frames = .ok (.restart buffer)) :
    op.isReset = true := by
  have hrole := Op.role_eq h
  cases op with
  | reset buffer => rfl
  | _ => cases hrole

namespace Writer

variable {w : Writer} {op : Op} {move : Move} {frames : List Frame} {limit : Nat}

/-- The writer as it is over the first `limit` bytes of its buffer. -/
def cut (w : Writer) (limit : Nat) : Writer :=
  { w with spare := w.spare.take (limit - w.size) }

theorem cut_append (w : Writer) (limit : Nat) (bytes : Bytes) :
    (w.cut limit).append bytes = (w.append bytes).cut limit := by
  simp [cut, append, size, List.drop_take, Nat.sub_sub]

theorem cut_patch {start : Nat} {bytes : Bytes} (h : start + bytes.length ≤ w.size) :
    (w.cut limit).patch start bytes = (w.patch start bytes).cut limit := by
  have hsize : (w.patch start bytes).size = w.size := length_overwrite h
  rw [cut, cut, hsize]
  rfl

theorem cut_finishAtom (w : Writer) (limit : Nat) :
    (w.cut limit).finishAtom = w.finishAtom.cut limit := by
  rw [finishAtom_eq, finishAtom_eq]
  rfl

theorem take_spare_cut {count : Nat} (h : w.size + count ≤ limit) :
    (w.cut limit).spare.take count = w.spare.take count := by
  have hcount : min count (limit - w.size) = count := by omega
  simp [cut, List.take_take, hcount]

theorem cut_pad {count : Nat} (h : w.size + count ≤ limit) :
    (w.cut limit).pad count = (w.pad count).cut limit := by
  rw [pad, pad, take_spare_cut h, cut_append]
  rfl

/-- Where the room suffices, a move is the same over the first bytes of the buffer. -/
theorem perform_cut (hroom : w.size + w.demand move ≤ limit) (hpatch : move.patchEnd ≤ w.size)
    (hmove : ∀ buffer, move ≠ .restart buffer) :
    (w.cut limit).perform frames move = (w.perform frames move).cut limit := by
  cases move with
  | skip count =>
    have htake : (w.cut limit).spare.take count = w.spare.take count := take_spare_cut hroom
    rw [perform, perform, htake, cut_append]
  | leaf type body =>
    have hpad : ({ w with frames }.append (headerBytes type body.length ++ body)).size +
        padding body.length ≤ limit := by
      simp only [demand, headerSize, size] at hroom
      simp only [append, size, List.length_append, length_headerBytes]
      omega
    change ((({ w with frames }.cut limit).append _).pad _).finishAtom = _
    rw [cut_append, cut_pad hpad, cut_finishAtom]
    rfl
  | element bytes => exact cut_append w limit bytes
  | lock header type bytes =>
    have hlock : header + headerSize +
        (word32 type ++ word32 (UInt32.ofNat bytes.length)).length ≤ w.size := by
      simpa [Move.patchEnd] using hpatch
    rw [perform, perform, cut_patch hlock, cut_append]
    rfl
  | label bytes =>
    rw [perform, perform, cut_append]
    rfl
  | enter kind type lead =>
    rw [perform, perform, cut_append]
    rfl
  | leave header =>
    let bodySize := w.size - (header + headerSize)
    have hfield : header + 4 + (word32 (UInt32.ofNat bodySize)).length ≤
        (w.pad (padding bodySize)).size := by
      have hlen : w.size ≤ (w.pad (padding bodySize)).size := by simp [pad, append, size]
      simp only [Move.patchEnd, headerSize] at hpatch
      rw [length_word32]
      omega
    have hsized : ((w.cut limit).pad (padding bodySize)).patch (header + 4)
        (word32 (UInt32.ofNat bodySize)) = ((w.pad (padding bodySize)).patch (header + 4)
          (word32 (UInt32.ofNat bodySize))).cut limit := by
      have hpad : (w.cut limit).pad (padding bodySize) = (w.pad (padding bodySize)).cut limit :=
        cut_pad hroom
      rw [hpad, cut_patch hfield]
    change ({ ((w.cut limit).pad (padding bodySize)).patch (header + 4)
      (word32 (UInt32.ofNat bodySize)) with frames }).finishAtom = _
    rw [hsized]
    exact cut_finishAtom { (w.pad (padding bodySize)).patch (header + 4)
      (word32 (UInt32.ofNat bodySize)) with frames } limit
  | restart buffer => exact absurd rfl (hmove buffer)

/-- What a call comes to, if there is the room for it. -/
def plan (w : Writer) (op : Op) : Except WireError (Move × List Frame) := do
  let move ← op.move w.vocabulary w.frames
  let frames ← move.turn w.size w.frames
  ensure (w.announced move ≤ maxBody) .outOfSpace
  return (move, frames)

theorem plan_cut (w : Writer) (limit : Nat) (op : Op) : (w.cut limit).plan op = w.plan op := rfl

theorem attempt_plan (w : Writer) (op : Op) :
    w.attempt op = w.plan op >>= fun p => do
      w.claim (w.demand p.1)
      return (w.reply p.1, w.perform p.2 p.1) := by
  rw [attempt_eq, plan, bind_assoc]
  congr 1
  funext move
  simp only [carryOut, bind_assoc, pure_eq_ok, ok_bind]

theorem allows_of_plan (hplan : w.plan op = .ok (move, frames))
    (hroom : w.demand move ≤ w.spare.length) : w.Allows op move frames := by
  obtain ⟨made, hmove, hrest⟩ := bind_eq_ok_iff.mp hplan
  obtain ⟨after, hturn, hrest⟩ := bind_eq_ok_iff.mp hrest
  obtain ⟨hannounced, hpair⟩ := ensure_eq_ok_iff.mp hrest
  cases hpair
  exact ⟨hmove, hturn, of_decide_eq_true hannounced, hroom⟩

theorem step_of_refused {e : WireError} (hspace : w.exhausted = false) (he : e ≠ .outOfSpace)
    (hplan : w.plan op = .error e) : w.step op = (.error e, w) := by
  apply step_of_attempt_error hspace he
  rw [attempt_plan, hplan, error_bind]

theorem step_of_full (hspace : w.exhausted = false)
    (hfull : w.plan op = .error .outOfSpace ∨
      ∃ p, w.plan op = .ok p ∧ w.spare.length < w.demand p.1) :
    w.step op = (.error .outOfSpace, { w with exhausted := true }) := by
  apply step_of_attempt_outOfSpace hspace
  rw [attempt_plan]
  rcases hfull with hplan | ⟨p, hplan, hroom⟩
  · rw [hplan, error_bind]
  · rw [hplan, ok_bind, claim, decide_eq_false (Nat.not_le_of_lt hroom)]
    rfl

theorem Allows.ne_restart (h : w.Allows op move frames) (hreset : op.isReset = false) :
    ∀ buffer, move ≠ .restart buffer := by
  rintro buffer rfl
  simp [Op.isReset_of_restart h.move_eq] at hreset

theorem size_of_allows (hroot : w.Rooted) (hreset : op.isReset = false)
    (h : w.Allows op move frames) : (w.perform frames move).size = w.size + w.demand move :=
  (size_perform h.demand_le (hroot.patchEnd_le h.sound) (h.ne_restart hreset)).1

/-- A call that leaves the cursor within the limit does the same over the first bytes. -/
theorem step_cut (hroot : w.Rooted) (hspace : w.exhausted = false) (hreset : op.isReset = false)
    (hanswer : (w.step op).1 ≠ .error .outOfSpace) (hsize : (w.step op).2.size ≤ limit) :
    (w.cut limit).step op = ((w.step op).1, (w.step op).2.cut limit) := by
  have hspaceCut : (w.cut limit).exhausted = false := hspace
  cases hplan : w.plan op with
  | error e =>
    have he : e ≠ .outOfSpace := by
      rintro rfl
      simp [step_of_full hspace (Or.inl hplan)] at hanswer
    rw [step_of_refused hspace he hplan, step_of_refused hspaceCut he hplan]
  | ok p =>
    obtain ⟨move, frames⟩ := p
    have hroom : w.demand move ≤ w.spare.length := by
      by_contra hfull
      simp [step_of_full hspace (Or.inr ⟨_, hplan, Nat.lt_of_not_le hfull⟩)] at hanswer
    have hallows := allows_of_plan hplan hroom
    have hstep := step_of_allows hspace hallows
    rw [hstep, size_of_allows hroot hreset hallows] at hsize
    have hroomCut : w.demand move ≤ (w.cut limit).spare.length := by
      rw [cut, List.length_take]
      omega
    have hallowsCut : (w.cut limit).Allows op move frames := allows_of_plan hplan hroomCut
    rw [hstep, step_of_allows hspaceCut hallowsCut,
      perform_cut hsize (hroot.patchEnd_le hallows.sound) (hallows.ne_restart hreset)]
    rfl

/-- A call that moves the cursor beyond the limit, or runs out of space, finds no room in
the first bytes. -/
theorem step_cut_outOfSpace (hroot : w.Rooted) (hspace : w.exhausted = false)
    (hreset : op.isReset = false) (hsize : w.size ≤ limit)
    (hbeyond : (w.step op).1 = .error .outOfSpace ∨ limit < (w.step op).2.size) :
    (w.cut limit).step op = (.error .outOfSpace, { w.cut limit with exhausted := true }) := by
  have hspaceCut : (w.cut limit).exhausted = false := hspace
  apply step_of_full hspaceCut
  rw [plan_cut]
  cases hplan : w.plan op with
  | error e =>
    by_cases he : e = .outOfSpace
    · exact Or.inl (congrArg _ he)
    · rw [step_of_refused hspace he hplan] at hbeyond
      rcases hbeyond with hanswer | hmoved
      · exact absurd (Except.error.inj hanswer) he
      · exact absurd hsize (Nat.not_le_of_lt hmoved)
  | ok p =>
    obtain ⟨move, frames⟩ := p
    refine Or.inr ⟨_, rfl, ?_⟩
    by_contra hfits
    have hroom : w.demand move ≤ min (limit - w.size) w.spare.length := by
      rw [← List.length_take]
      exact Nat.le_of_not_lt hfits
    have hallows := allows_of_plan hplan (by omega)
    rw [step_of_allows hspace hallows, size_of_allows hroot hreset hallows] at hbeyond
    rcases hbeyond with hanswer | hmoved
    · cases hanswer
    · omega

theorem perform_exhausted (hspace : w.exhausted = false) :
    (w.perform frames move).exhausted = false := by
  cases move with
  | leaf type body | leave header =>
    rw [perform, finishAtom_eq]
    exact hspace
  | restart buffer => rfl
  | _ => exact hspace

theorem step_keeps_space (hspace : w.exhausted = false)
    (hanswer : (w.step op).1 ≠ .error .outOfSpace) : (w.step op).2.exhausted = false := by
  cases hstep : w.step op with
  | mk answer next =>
    cases answer with
    | error e =>
      rcases step_error_cases hstep with ⟨_, _, rfl⟩ | ⟨rfl, _⟩
      · exact hspace
      · simp [hstep] at hanswer
    | ok reply =>
      obtain ⟨move, frames, _, _, rfl⟩ := step_ok hstep
      exact perform_exhausted hspace

theorem size_le_step (hroot : w.Rooted) (hreset : op.isReset = false) :
    w.size ≤ (w.step op).2.size := by
  cases hstep : w.step op with
  | mk answer next =>
    cases answer with
    | error e =>
      obtain ⟨exhausted, rfl⟩ := step_error hstep
      exact Nat.le_refl _
    | ok reply =>
      obtain ⟨move, frames, hallows, _, rfl⟩ := step_ok hstep
      rw [size_of_allows hroot hreset hallows]
      exact Nat.le_add_right _ _

theorem size_le_run {ops : List Op} (hroot : w.Rooted) (hreset : ∀ op ∈ ops, op.isReset = false) :
    w.size ≤ (w.run ops).2.size := by
  induction ops generalizing w with
  | nil => exact Nat.le_refl _
  | cons op rest ih =>
    rw [List.forall_mem_cons] at hreset
    exact Nat.le_trans (size_le_step hroot hreset.1) (ih (hroot.step op) hreset.2)

/-- A run that stays within the limit is the same over the first bytes. -/
theorem run_cut {ops : List Op} (hroot : w.Rooted) (hspace : w.exhausted = false)
    (hreset : ∀ op ∈ ops, op.isReset = false)
    (hanswers : ∀ answer ∈ (w.run ops).1, answer ≠ .error .outOfSpace)
    (hsize : (w.run ops).2.size ≤ limit) :
    (w.cut limit).run ops = ((w.run ops).1, (w.run ops).2.cut limit) ∧
      (w.run ops).2.exhausted = false := by
  induction ops generalizing w with
  | nil => exact ⟨rfl, hspace⟩
  | cons op rest ih =>
    rw [List.forall_mem_cons] at hreset
    rw [run, List.forall_mem_cons] at hanswers
    have hnext := hroot.step op
    -- The cursor never moves back, so this call ends within the limit too.
    have hfirst : (w.step op).2.size ≤ limit := Nat.le_trans (size_le_run hnext hreset.2) hsize
    obtain ⟨hrun, hend⟩ :=
      ih hnext (step_keeps_space hspace hanswers.1) hreset.2 hanswers.2 hsize
    rw [run, step_cut hroot hspace hreset.1 hanswers.1 hfirst, hrun]
    exact ⟨rfl, hend⟩

theorem create_cut (v : Vocabulary) (zeroPadding : Bool) {small large : Bytes}
    (h : small <+: large) :
    (create v zeroPadding large).cut small.length = create v zeroPadding small := by
  have hspare : large.take small.length = small := (List.prefix_iff_eq_take.mp h).symm
  simp [cut, create, size, hspare]

end Writer

/-- The same calls over a buffer and over its first bytes: as long as the long run reports
no lack of space and stays within the short buffer, all that can be seen agrees. The call
that ends this, and every call after it, runs out of space in the short run, which stays
as it was before that call. -/
theorem executeAll_capacity (v : Vocabulary) (zeroPadding : Bool) {small large : Bytes}
    (hbuffer : small <+: large) (before : List Op)
    (hbefore : ∀ op ∈ before, op.isReset = false) :
    let long := (Writer.create v zeroPadding large).executeAll before
    let short := (Writer.create v zeroPadding small).executeAll before
    (∀ answer ∈ long.1, answer ≠ .error .outOfSpace) → long.2.size ≤ small.length →
      short.1 = long.1 ∧ short.2.size = long.2.size ∧ short.2.depth = long.2.depth ∧
      short.2.exhausted = long.2.exhausted ∧ short.2.isComplete = long.2.isComplete ∧
      short.2.written = long.2.written ∧
      ∀ op rest, op.isReset = false → (∀ later ∈ rest, later.isReset = false) →
        (long.2.execute op).1 = .error .outOfSpace ∨
          small.length < (long.2.execute op).2.size →
        let stopped := short.2.executeAll (op :: rest)
        (stopped.1 = (op :: rest).map fun _ => .error .outOfSpace) ∧
          stopped.2.size = short.2.size ∧ stopped.2.depth = short.2.depth ∧
          stopped.2.buffer = short.2.buffer := by
  intro long short hanswers hsize
  have hrootLong := Writer.Rooted.create v zeroPadding large
  have hrootShort := Writer.Rooted.create v zeroPadding small
  obtain ⟨hsameLong, hlong⟩ : long.1 = _ ∧ long.2.Mirrors _ :=
    (Writer.Mirrors.refl _).executeAll hrootLong before
  obtain ⟨hsameShort, hshort⟩ : short.1 = _ ∧ short.2.Mirrors _ :=
    (Writer.Mirrors.refl _).executeAll hrootShort before
  -- Of the two computed runs one is the other cut short, and those in place mirror them.
  rw [hsameLong] at hanswers
  rw [hlong.size] at hsize
  obtain ⟨hcut, hspace⟩ := Writer.run_cut hrootLong rfl hbefore hanswers hsize
  rw [Writer.create_cut v zeroPadding hbuffer] at hcut
  have hrootCut := hrootShort.run before
  rw [hcut] at hsameShort hshort hrootCut
  refine ⟨hsameShort.trans hsameLong.symm, hshort.size.trans hlong.size.symm,
    hshort.depth.trans hlong.depth.symm, hshort.exhausted.trans hlong.exhausted.symm,
    hshort.isComplete.trans hlong.isComplete.symm, hshort.written.trans hlong.written.symm, ?_⟩
  intro op rest hreset hrest hbeyond stopped
  obtain ⟨hanswer, hnext⟩ := hlong.execute (hrootLong.run before) op
  rw [hanswer, hnext.size] at hbeyond
  have hstep := Writer.step_cut_outOfSpace (hrootLong.run before) hspace hreset hsize hbeyond
  obtain ⟨hfirst, hfull⟩ := hshort.execute hrootCut op
  rw [hstep] at hfirst hfull
  have hstopped : stopped = ((op :: rest).map fun _ => .error .outOfSpace,
      (short.2.execute op).2) := by
    simp only [stopped, Writer.executeAll, hfirst,
      Writer.executeAll_exhausted hfull.exhausted hrest, List.map_cons]
  rw [hstopped]
  exact ⟨rfl, hfull.size.trans hshort.size.symm, hfull.depth.trans hshort.depth.symm,
    hfull.buffer.trans hshort.buffer.symm⟩

/-- The short buffer is full where a key waits for its value; a refused call comes before. -/
theorem executeAll_capacity_object :
    let v := UriTable.empty.resolve.1
    let small : Bytes := List.replicate 24 7
    let large : Bytes := small ++ List.replicate 40 1
    let before : List Op := [.pushObject 3 0, .property 9 0, .pop]
    let long := (Writer.create v false large).executeAll before
    let short := (Writer.create v false small).executeAll before
    let op : Op := .chunk [1, 2, 3]
    let rest : List Op := [.reserve 0, .pushTuple]
    small <+: large ∧ (∀ answer ∈ long.1, answer ≠ .error .outOfSpace) ∧
      long.2.size ≤ small.length ∧ small.length < (long.2.execute op).2.size ∧
      short.1 = long.1 ∧ short.2.written = long.2.written ∧
      (short.2.executeAll (op :: rest)).1 =
        [.error .outOfSpace, .error .outOfSpace, .error .outOfSpace] ∧
      (short.2.executeAll (op :: rest)).2.buffer = short.2.buffer := by
  intro v small large before long short op rest
  have hbuffer : small <+: large := List.prefix_append _ _
  have hanswers : ∀ answer ∈ long.1, answer ≠ .error .outOfSpace := by decide +kernel
  have hsize : long.2.size ≤ small.length := by decide +kernel
  have hbeyond : small.length < (long.2.execute op).2.size := by decide +kernel
  have hcapacity := executeAll_capacity v false hbuffer before (by decide)
  extract_lets at hcapacity
  obtain ⟨hsame, _, _, _, _, hwritten, hstop⟩ := hcapacity hanswers hsize
  obtain ⟨hstopped, _, _, hkept⟩ := hstop op rest rfl (by decide) (Or.inr hbeyond)
  exact ⟨hbuffer, hanswers, hsize, hbeyond, hsame, hwritten, hstopped, hkept⟩

end AtomWire

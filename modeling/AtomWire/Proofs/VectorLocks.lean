import AtomWire.Proofs.Atomicity

/-!
# Vectors that get their type early or late

A vector may be opened with the type and the width of its elements, or without them; then
the first scalar gives them, and fills in words that went out as zeros. Once that scalar is
written nothing tells the two vectors apart. In a vector with a type, a scalar and its bytes
are the same element.
-/

namespace AtomWire

set_option autoImplicit false

/-- The width that a scalar gives to a vector. -/
def Scalar.lockWidth (x : Scalar) : UInt32 := UInt32.ofNat x.kind.width

theorem Scalar.toNat_lockWidth (x : Scalar) : x.lockWidth.toNat = x.payload.length := by
  rw [x.length_payload]
  cases x <;> rfl

theorem Scalar.lockWidth_ne_zero (x : Scalar) : x.lockWidth ≠ 0 := by
  rw [lockWidth]
  cases x.kind <;> decide

namespace Writer

variable {w next : Writer} {begun outer : List Frame} {type : TypeId} {width : UInt32}
  {x : Scalar} {lock : Option (TypeId × UInt32)} {reply : Reply}

/-- A vector can be opened here; `begun` are the containers around it. -/
structure VectorFits (w : Writer) (begun : List Frame) : Prop where
  type_ne : w.vocabulary.id .vector ≠ 0
  depth_lt : w.frames.length < maxDepth
  begin_eq : beginFrames w.frames = .ok begun
  room : 16 ≤ w.spare.length

/-- The words that lead the body of a vector. -/
def lockBytes (lock : Option (TypeId × UInt32)) : Bytes :=
  word32 (lock.getD (0, 0)).1 ++ word32 (lock.getD (0, 0)).2

/-- The writer with an empty vector opened in it. -/
def withVector (w : Writer) (begun : List Frame) (lock : Option (TypeId × UInt32)) : Writer :=
  { w.append (headerBytes (w.vocabulary.id .vector) 0 ++ lockBytes lock) with
    frames := ⟨.vector lock, w.size⟩ :: begun }

/-- The lock that the arguments of a call ask for. -/
def lockOf (type : TypeId) (width : UInt32) : Option (TypeId × UInt32) :=
  if type = 0 then none else some (type, width)

theorem pushVector_move (w : Writer) (hwidth : type ≠ 0 → width ≠ 0) :
    Op.move w.vocabulary w.frames (.pushVector type width) =
      Op.enterMove w.vocabulary (.vector (lockOf type width)) .vector
        (lockBytes (lockOf type width)) := by
  by_cases htype : type = 0
  · simp [Op.move, lockOf, lockBytes, htype]
  · simp [Op.move, lockOf, lockBytes, htype, hwidth htype]

/-- Whether a vector can be opened does not hang on its lock. -/
theorem step_pushVector (hspace : w.exhausted = false) (hfits : w.VectorFits begun)
    (hwidth : type ≠ 0 → width ≠ 0) :
    w.step (.pushVector type width) =
      (.ok (.handle ⟨w.depth + 1, w.size⟩), w.withVector begun (lockOf type width)) := by
  have hallows : w.Allows (.pushVector type width)
      (.enter (.vector (lockOf type width)) (w.vocabulary.id .vector)
        (lockBytes (lockOf type width))) (⟨.vector (lockOf type width), w.size⟩ :: begun) := by
    refine ⟨?_, ?_, Nat.zero_le _, ?_⟩
    · rw [pushVector_move w hwidth]
      exact Op.enterMove_eq_ok_iff.mpr ⟨hfits.type_ne, rfl⟩
    · simp [Move.turn, hfits.depth_lt, hfits.begin_eq]
    · simpa [demand, headerSize, lockBytes] using hfits.room
  exact step_of_allows hspace hallows

theorem vectorFits_of_step (hwidth : type ≠ 0 → width ≠ 0)
    (h : w.step (.pushVector type width) = (.ok reply, next)) : ∃ begun, w.VectorFits begun := by
  obtain ⟨move, frames, hallows, _, _⟩ := step_ok h
  have hmove := hallows.move_eq
  rw [pushVector_move w hwidth] at hmove
  obtain ⟨htype, rfl⟩ := Op.enterMove_eq_ok_iff.mp hmove
  obtain ⟨hdepth, hturn⟩ := ensure_eq_ok_iff.mp hallows.turn_eq
  obtain ⟨begun, hbegin, _⟩ := bind_eq_ok_iff.mp hturn
  have hroom := hallows.demand_le
  simp only [demand, headerSize, lockBytes, List.length_append, length_word32] at hroom
  exact ⟨begun, htype, of_decide_eq_true hdepth, hbegin, hroom⟩

/-- The writer with a vector in it that has one element. -/
def withElement (w : Writer) (begun : List Frame) (type : TypeId) (x : Scalar) : Writer :=
  (w.withVector begun (some (type, x.lockWidth))).append x.payload

theorem spare_withVector (w : Writer) (begun : List Frame) (lock : Option (TypeId × UInt32)) :
    (w.withVector begun lock).spare = w.spare.drop 16 := by
  simp [withVector, append, lockBytes]

theorem scalar_move_unlocked (hkind : w.vocabulary.scalarKind? type = some x.kind) :
    Op.move w.vocabulary (w.withVector begun none).frames (.scalar type x) =
      .ok (.lock w.size type x.payload) :=
  bind_eq_ok_iff.mpr ⟨x.payload, Op.encode_eq_ok_iff.mpr ⟨hkind, rfl⟩, rfl⟩

theorem room_of_step_lock (hroom : 16 ≤ w.spare.length)
    (hkind : w.vocabulary.scalarKind? type = some x.kind)
    (h : (w.withVector begun none).step (.scalar type x) = (.ok reply, next)) :
    16 + x.payload.length ≤ w.spare.length := by
  obtain ⟨move, frames, hallows, _, _⟩ := step_ok h
  cases (scalar_move_unlocked hkind).symm.trans hallows.move_eq
  have hdemand : x.payload.length ≤ (w.withVector begun none).spare.length := hallows.demand_le
  rw [spare_withVector, List.length_drop] at hdemand
  omega

/-- The first scalar in a vector without a type. -/
theorem step_lock (hspace : w.exhausted = false)
    (hkind : w.vocabulary.scalarKind? type = some x.kind)
    (hroom : 16 + x.payload.length ≤ w.spare.length) :
    (w.withVector begun none).step (.scalar type x) =
      (.ok .done, w.withElement begun type x) := by
  have hwidth : UInt32.ofNat x.payload.length = x.lockWidth := by
    rw [x.length_payload, Scalar.lockWidth]
  have hallows : (w.withVector begun none).Allows (.scalar type x) (.lock w.size type x.payload)
      (⟨.vector (some (type, x.lockWidth)), w.size⟩ :: begun) := by
    refine ⟨scalar_move_unlocked hkind, ?_, Nat.zero_le _, ?_⟩
    · rw [Move.turn, hwidth]
      rfl
    · rw [demand, spare_withVector, List.length_drop]
      omega
  have hwritten : (w.withVector begun none).written =
      w.written ++ (headerBytes (w.vocabulary.id .vector) 0 ++ (word32 0 ++ word32 0)) := rfl
  refine (step_of_allows (w := w.withVector begun none) hspace hallows).trans ?_
  -- The words that are filled in are those that would have been there from the start.
  rw [size, perform_lock hwritten, spare_withVector, hwidth]
  simp [Writer.reply, withElement, withVector, append, lockBytes, size]

theorem scalar_move_locked {header : Nat}
    (hkind : w.vocabulary.scalarKind? type = some x.kind)
    (hframes : w.frames = ⟨.vector (some (type, x.lockWidth)), header⟩ :: outer) :
    Op.move w.vocabulary w.frames (.scalar type x) = .ok (.element x.payload) := by
  refine bind_eq_ok_iff.mpr ⟨x.payload, Op.encode_eq_ok_iff.mpr ⟨hkind, rfl⟩, ?_⟩
  simp [hframes, x.toNat_lockWidth, ensure]

/-- The first scalar in a vector that has its type. -/
theorem step_locked (hspace : w.exhausted = false)
    (hkind : w.vocabulary.scalarKind? type = some x.kind)
    (hroom : 16 + x.payload.length ≤ w.spare.length) :
    (w.withVector begun (some (type, x.lockWidth))).step (.scalar type x) =
      (.ok .done, w.withElement begun type x) := by
  have hallows : (w.withVector begun (some (type, x.lockWidth))).Allows (.scalar type x)
      (.element x.payload) (⟨.vector (some (type, x.lockWidth)), w.size⟩ :: begun) := by
    refine ⟨scalar_move_locked hkind rfl, rfl, Nat.zero_le _, ?_⟩
    rw [demand, spare_withVector, List.length_drop]
    omega
  exact step_of_allows (w := w.withVector begun (some (type, x.lockWidth))) hspace hallows

/-- If a vector without a type takes a scalar, so does one with the type of the scalar, and
both come to the same. -/
theorem run_lock {s : UInt32} (hspace : w.exhausted = false)
    (hkind : w.vocabulary.scalarKind? type = some x.kind)
    (hok : ∀ answer ∈ (w.run [.pushVector 0 s, .scalar type x]).1, answer.isOk = true) :
    w.run [.pushVector type x.lockWidth, .scalar type x] =
        w.run [.pushVector 0 s, .scalar type x] ∧
      (w.run [.pushVector 0 s, .scalar type x]).2.exhausted = false := by
  obtain ⟨reply, next, hpush, hrest⟩ := accepts_cons.mp ⟨hok, rfl⟩
  obtain ⟨begun, hfits⟩ := vectorFits_of_step (by simp) hpush
  have hlate : w.step (.pushVector 0 s) = _ := step_pushVector hspace hfits (by simp)
  have heager : w.step (.pushVector type x.lockWidth) = _ :=
    step_pushVector hspace hfits fun _ => x.lockWidth_ne_zero
  have hnone : lockOf 0 s = none := rfl
  have hsome : lockOf type x.lockWidth = some (type, x.lockWidth) :=
    if_neg (Op.ne_zero_of_scalarKind? hkind)
  rw [hnone] at hlate
  rw [hsome] at heager
  obtain ⟨_, _, hscalar, _⟩ := accepts_cons.mp hrest
  cases hlate.symm.trans hpush
  have hroom := room_of_step_lock hfits.room hkind hscalar
  have hlock : (w.withVector begun none).step (.scalar type x) = _ := step_lock hspace hkind hroom
  have hlocked : (w.withVector begun (some (type, x.lockWidth))).step (.scalar type x) = _ :=
    step_locked hspace hkind hroom
  simp only [run, hlate, heager, hlock, hlocked]
  exact ⟨trivial, hspace⟩

/-- In a vector with a type, a scalar is as good as its bytes. -/
theorem execute_scalar_locked {header : Nat}
    (hkind : w.vocabulary.scalarKind? type = some x.kind)
    (hframes : w.frames = ⟨.vector (some (type, x.lockWidth)), header⟩ :: outer) :
    w.execute (.scalar type x) = w.execute (.element x.payload) := by
  cases hspace : w.exhausted with
  | true => rw [execute_exhausted hspace rfl, execute_exhausted hspace rfl]
  | false =>
    have hbytes : w.vocabulary.encode type x = .ok x.payload :=
      Op.encode_eq_ok_iff.mpr ⟨hkind, rfl⟩
    have hcommand : (Command.putScalar type x).run w = (Command.putElement x.payload).run w := by
      simp only [Command.putScalar, Command.putElement, EStateM.run_bind,
        Command.run_guardSpace hspace, EStateM.run_get, hbytes, hframes, x.toNat_lockWidth]
      simp [Command.check, ensure]
    simp only [execute, Op.command, Command.done, EStateM.run_bind, hcommand]

theorem space_of_executeAll {op : Op} {rest : List Op} (hreset : op.isReset = false)
    (hok : ∀ answer ∈ (w.executeAll (op :: rest)).1, answer.isOk = true) :
    w.exhausted = false := by
  cases hspace : w.exhausted with
  | false => rfl
  | true =>
    have hfirst := hok _ List.mem_cons_self
    rw [execute_exhausted hspace hreset] at hfirst
    cases hfirst

/-- What holds of the computed run holds of the run in place, as long as there is space. -/
theorem InUse.executeAll_lock {s : UInt32} (h : w.InUse)
    (hkind : w.vocabulary.scalarKind? type = some x.kind)
    (hok : ∀ answer ∈ (w.executeAll [.pushVector 0 s, .scalar type x]).1, answer.isOk = true) :
    w.executeAll [.pushVector type x.lockWidth, .scalar type x] =
      w.executeAll [.pushVector 0 s, .scalar type x] := by
  have hspace := space_of_executeAll rfl hok
  have hroot := h.rooted hspace
  obtain ⟨hlate, hmirrors⟩ :=
    (Mirrors.refl w).executeAll hroot [.pushVector 0 s, .scalar type x]
  obtain ⟨hearly, hmirrors'⟩ :=
    (Mirrors.refl w).executeAll hroot [.pushVector type x.lockWidth, .scalar type x]
  rw [hlate] at hok
  obtain ⟨hsame, hend⟩ := run_lock hspace hkind hok
  rw [hsame] at hearly hmirrors'
  exact Prod.ext (hearly.trans hlate.symm)
    ((hmirrors'.eq_of_space hend).trans (hmirrors.eq_of_space hend).symm)

end Writer

/-- For a type that is the id of the kind of a scalar. After any calls, if a vector opened
without a type takes the scalar, then opening it with the type and the width of the scalar
is answered by the same handle and comes to the same writer, and so does all that follows.
And wherever the innermost container is a vector of that type and width, the scalar and its
bytes are answered alike and leave the same writer, also where space runs out. -/
theorem vector_ways_agree (v : Vocabulary) (type : TypeId) (kind : ScalarKind) (x : Scalar)
    (htype : v.scalarKind? type = some kind) (hx : x.kind = kind) :
    (∀ (zeroPadding : Bool) (buffer : Bytes) (before : List Op) (s : UInt32),
      let w := ((Writer.create v zeroPadding buffer).executeAll before).2
      let late : List Op := [.pushVector 0 s, .scalar type x]
      let early : List Op := [.pushVector type (UInt32.ofNat kind.width), .scalar type x]
      (∀ answer ∈ (w.executeAll late).1, answer.isOk = true) →
        w.executeAll early = w.executeAll late ∧
        ∀ rest, w.executeAll (early ++ rest) = w.executeAll (late ++ rest)) ∧
    ∀ (w : Writer) (header : Nat) (outer : List Frame) (bytes : Bytes), w.vocabulary = v →
      w.frames = ⟨.vector (some (type, UInt32.ofNat kind.width)), header⟩ :: outer →
      v.encode type x = .ok bytes → w.execute (.scalar type x) = w.execute (.element bytes) := by
  subst hx
  refine ⟨?_, ?_⟩
  · intro zeroPadding buffer before s w late early hok
    have huse : w.InUse := Writer.InUse.created v zeroPadding buffer before
    have hvocabulary : w.vocabulary = v :=
      Writer.executeAll_vocabulary v zeroPadding buffer before
    have hsame : w.executeAll early = w.executeAll late :=
      huse.executeAll_lock (hvocabulary ▸ htype) hok
    refine ⟨hsame, fun rest => ?_⟩
    rw [Writer.executeAll_append, Writer.executeAll_append, hsame]
  · rintro w header outer bytes rfl hframes hbytes
    obtain ⟨_, rfl⟩ := Op.encode_eq_ok_iff.mp hbytes
    exact Writer.execute_scalar_locked htype hframes

/-- The vector is the value of a property, whose end was refused before. A second scalar
does not fit any more, written either way. -/
theorem vector_ways_agree_property :
    let v := UriTable.empty.resolve.1
    let before : List Op := [.pushTuple, .reset (some (List.replicate 44 7)), .pushObject 3 0,
      .property 9 0, .pop]
    let late : List Op := [.pushVector 0 5, .scalar 1 (.int (-2))]
    let early : List Op := [.pushVector 1 4, .scalar 1 (.int (-2))]
    let w := ((Writer.create v false []).executeAll before).2
    let locked := ((Writer.create v false []).executeAll (before ++ late)).2
    (w.executeAll late).1 = [.ok (.handle ⟨2, 24⟩), .ok .done] ∧
      w.executeAll early = w.executeAll late ∧
      w.executeAll (early ++ [.pop]) = w.executeAll (late ++ [.pop]) ∧
      locked.frames = [⟨.vector (some (1, 4)), 24⟩, ⟨.object false, 0⟩] ∧
      (locked.execute (.scalar 1 (.int 3))).1 = .error .outOfSpace ∧
      locked.execute (.scalar 1 (.int 3)) = locked.execute (.element (word32 3)) := by
  intro v before late early w locked
  have hanswers : (w.executeAll late).1 = [.ok (.handle ⟨2, 24⟩), .ok .done] := by decide +kernel
  have hframes : locked.frames = [⟨.vector (some (1, 4)), 24⟩, ⟨.object false, 0⟩] := by
    decide +kernel
  have hfull : (locked.execute (.scalar 1 (.int 3))).1 = .error .outOfSpace := by decide +kernel
  have hkind : v.scalarKind? 1 = some .int := by decide +kernel
  have hvocabulary : locked.vocabulary = v :=
    Writer.executeAll_vocabulary v false [] (before ++ late)
  have hways := (vector_ways_agree v 1 .int (.int (-2)) hkind rfl).1 false [] before 5
  have helement := (vector_ways_agree v 1 .int (.int 3) hkind rfl).2 locked 24 _ (word32 3)
    hvocabulary hframes (Op.encode_eq_ok_iff.mpr ⟨hkind, rfl⟩)
  extract_lets at hways
  obtain ⟨hsame, hrest⟩ := hways (by rw [hanswers]; decide)
  exact ⟨hanswers, hsame, hrest [.pop], hframes, hfull, helement⟩

end AtomWire

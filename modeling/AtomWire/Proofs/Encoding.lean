import AtomWire.Proofs.Spelling

/-!
# Written bytes are encodings

A container is opened with size zero and gets its size when it is closed, after any number
of calls. With zeros for padding the outcome is nevertheless the encoding of the tree, in
which every size stands before its body from the start.
-/

namespace AtomWire

set_option autoImplicit false

theorem Record.bytes_zero {type : TypeId} {body pad : Bytes}
    (h : IsPadding true (padding body.length) pad) :
    Record.bytes ⟨[], type, body, pad⟩ = atomBytes type body := by
  rw [h.2 rfl]
  simp [Record.bytes, headerBytes, atomBytes_eq]

theorem Spelled.flat_eq {v : Vocabulary} {branches : List Branch} {records : List Record}
    (h : Spelled v true branches records) : Record.flat records = branchBytes v branches := by
  -- The padding of a record depends on the records in it, so these are settled first.
  induction h with
  | nil => rfl
  | @cons label t rest inner records pad hinner hpad hrest ihInner ihRest =>
    have hbody : t.front v ++ Record.flat inner = t.body v := by
      rw [ihInner]
      rfl
    rw [Record.flat_cons, Record.bytes_lead, Record.bytes_zero hpad, hbody, ← t.encode_eq, ihRest]
    rfl

namespace Writer

variable {w : Writer} {v : Vocabulary} {t : Tree} {begun : List Frame} {ops : List Op}

theorem Expects.writes (hv : v.Resolved) (h : w.Expects v t begun) (hzero : w.zeroPadding = true)
    (hops : t.WrittenBy v ops) :
    w.Accepts ops (w.extend begun (w.tally begun 1) (t.encode v)) := by
  obtain ⟨inner, hinner, hcalls⟩ := hops
  obtain ⟨records, pad, hspelled, hpad, haccepts⟩ :=
    h.spells hv hcalls fun w' hw' => hinner.spells hv hw'
  rw [hzero] at hspelled hpad
  have hbody : t.front v ++ Record.flat records = t.body v := by
    rw [hspelled.flat_eq]
    rfl
  rwa [Record.bytes_zero hpad, hbody, ← t.encode_eq] at haccepts

theorem beginFrames_of_beginValue {ready : Writer} (h : w.beginValue = .ok ready) :
    beginFrames w.frames = .ok ready.frames := by
  rw [beginValue_eq] at h
  cases hbegin : beginFrames w.frames with
  | error e =>
    rw [hbegin] at h
    cases h
  | ok frames =>
    rw [hbegin] at h
    cases h
    rfl

end Writer

/-- From any state that was reached by whatever calls, has the room and lets a value start:
each way of calling for a tree succeeds and adds the encoding of the tree to the bytes,
with everything else as it is after one value. -/
theorem run_writes_encoding (table : UriTable) (hids : table.resolve.2.size < UInt32.size)
    (buffer : Bytes) (before : List Op) (t : Tree)
    (hsound : t.all (Tree.isEncodable table.resolve.1) = true) :
    let v := table.resolve.1
    let w := ((Writer.create v true buffer).run before).2
    ∀ ready, w.beginValue = .ok ready → w.exhausted = false → w.depth + t.depth ≤ maxDepth →
      w.size + (t.encode v).length ≤ w.capacity →
      t.WrittenBy v t.ops ∧ ∀ ops, t.WrittenBy v ops →
        let run := w.run ops
        (∀ reply ∈ run.1, reply.isOk = true) ∧ run.2.written = w.written ++ t.encode v ∧
        run.2.spare = w.spare.drop (t.encode v).length ∧ run.2.frames = ready.frames ∧
        run.2.depth = w.depth ∧ run.2.exhausted = false ∧
        run.2.completed = if w.depth = 0 then w.completed + 1 else w.completed := by
  intro v w ready hready hspace hdepth hroom
  have hv := UriTable.resolved_of_size_lt hids
  have hbegin := Writer.beginFrames_of_beginValue hready
  refine ⟨Tree.writtenBy_ops (Tree.all_isWritable hsound), ?_⟩
  intro ops hops run
  have hexpects : w.Expects v t ready.frames := by
    refine ⟨Writer.run_vocabulary _ before, hspace, hbegin, hdepth, hsound, ?_⟩
    rw [Writer.capacity, Writer.buffer, List.length_append] at hroom
    exact Nat.le_of_add_le_add_left hroom
  obtain ⟨hok, hend⟩ := hexpects.writes hv (Writer.run_zeroPadding _ before) hops
  change run.2 = _ at hend
  rw [hend]
  refine ⟨hok, rfl, rfl, rfl, length_beginFrames hbegin, hspace, ?_⟩
  simp only [Writer.extend, Writer.tally, isEmpty_beginFrames hbegin, List.isEmpty_iff]
  simp only [Writer.depth, List.length_eq_zero_iff]

/-- A sequence below a key, with a vector typed by its first scalar and one left empty. Every
byte of it is known: the header, the unit, the stamps in two's complement, the vectors. -/
theorem run_writes_encoding_locked :
    let table := UriTable.empty
    let v := table.resolve.1
    let t : Tree := .sequence .frames [(.frames 0x0102030405060708, .vector 1 4 [[7, 0, 0, 0],
      [1, 2, 3, 4]]), (.frames (-2), .vector 0 0 [])]
    let before : List Op := [.pop, .pushObject 3 0, .property 9 0]
    let w := ((Writer.create v true (List.replicate 112 8)).run before).2
    let ops : List Op := [.pushSequence .frames, .stamp (.frames 0x0102030405060708),
      .pushVector 0 9, .scalar 1 (.int 7), .element [1, 2, 3, 4], .pop, .stamp (.frames (-2)),
      .pushVector 0 6, .pop, .pop]
    t.all (Tree.isEncodable v) = true ∧ w.exhausted = false ∧ w.depth + t.depth ≤ maxDepth ∧
      w.size + (t.encode v).length ≤ w.capacity ∧ t.WrittenBy v ops ∧
      (w.run ops).2.written = w.written ++ [
        17, 0, 0, 0, 64, 0, 0, 0, 18, 0, 0, 0, 0, 0, 0, 0,
        8, 7, 6, 5, 4, 3, 2, 1,
        12, 0, 0, 0, 16, 0, 0, 0, 1, 0, 0, 0, 4, 0, 0, 0, 7, 0, 0, 0, 1, 2, 3, 4,
        254, 255, 255, 255, 255, 255, 255, 255,
        12, 0, 0, 0, 8, 0, 0, 0, 0, 0, 0, 0, 0, 0, 0, 0] := by
  intro table v t before w ops
  have hids : table.resolve.2.size < UInt32.size := by decide +kernel
  have hsound : t.all (Tree.isEncodable v) = true := by decide +kernel
  have hspace : w.exhausted = false := by decide +kernel
  have hdepth : w.depth + t.depth ≤ maxDepth := by decide +kernel
  have hroom : w.size + (t.encode v).length ≤ w.capacity := by decide +kernel
  have hframes : w.frames = [⟨.object true, 0⟩] := by decide +kernel
  have hready : w.beginValue = .ok { w with frames := [⟨.object false, 0⟩] } := by
    rw [Writer.beginValue, hframes]
    rfl
  have htype : Scalar.type v (.int 7) = 1 := by decide +kernel
  have hlocked : VectorCalls v 1 4 [[7, 0, 0, 0], [1, 2, 3, 4]]
      [.pushVector 0 9, .scalar 1 (.int 7), .element [1, 2, 3, 4]] := by
    have hitems : List.Forall₂ (ElementCall v (Scalar.type v (.int 7))) [[1, 2, 3, 4]]
        [.element [1, 2, 3, 4]] := .cons (.bytes _) .nil
    have hcalls := VectorCalls.locked (x := .int 7) 9 .typed hitems
    rwa [htype] at hcalls
  have hops : t.WrittenBy v ops :=
    ⟨_, .cons .nil (.vector hlocked) (.cons .nil (.vector (.untyped 6)) .nil),
      .sequence .frames _ _⟩
  have hwrites := run_writes_encoding table hids (List.replicate 112 8) before t hsound
  extract_lets at hwrites
  have hrun := (hwrites _ hready hspace hdepth hroom).2 ops hops
  refine ⟨hsound, hspace, hdepth, hroom, hops, hrun.2.1.trans (congrArg (w.written ++ ·) ?_)⟩
  decide +kernel

end AtomWire

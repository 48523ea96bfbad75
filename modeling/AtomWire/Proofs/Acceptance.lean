import AtomWire.Proofs.Grammar
import AtomWire.Proofs.Stores

/-!
# The calls that are accepted

A list of calls is written without an error and leaves nothing open exactly if it is
derived by the grammar, every body has a size that a header can hold, and the buffer has
the room. For the way from the writer to the grammar the calls accepted so far are cut at
the containers still open, which `Parsed` keeps from call to call.
-/

namespace AtomWire

set_option autoImplicit false

/-- The calls open a container and go on in it; `size` bytes of its body are written. -/
def Opened (v : Vocabulary) (n : Nat) : FrameKind → List Op → Nat → Prop
  | .vector none, ops, size => ∃ width, ops = [.pushVector 0 width] ∧ size = 8
  | .vector (some (type, width)), ops, size =>
    ∃ (first inner : List Op) (d : Derivation v (.elements type width) n inner),
      ops = first ++ inner ∧ d.Fits ∧
      ((first = [.pushVector type width] ∧ type ≠ 0 ∧ width ≠ 0 ∧ size = 8 + d.size) ∨
        ∃ any x, first = [.pushVector 0 any, .scalar type x] ∧ type = v.scalarType x.kind ∧
          width = UInt32.ofNat x.kind.width ∧ size = 8 + (x.kind.width + d.size))
  | .tuple, ops, size => ∃ (inner : List Op) (d : Derivation v .values n inner),
    ops = .pushTuple :: inner ∧ d.Fits ∧ size = d.size
  | .object awaiting, ops, size =>
    ∃ (id otype : TypeId) (inner label : List Op) (d : Derivation v .properties n inner),
      ops = .pushObject id otype :: (inner ++ label) ∧ d.Fits ∧
      size = 8 + d.size + 8 * label.length ∧
      if awaiting then ∃ key context, key ≠ 0 ∧ label = [.property key context] else label = []
  | .sequence unit awaiting, ops, size =>
    ∃ (inner label : List Op) (d : Derivation v (.events unit) n inner),
      ops = .pushSequence unit :: (inner ++ label) ∧ d.Fits ∧
      size = 8 + d.size + 8 * label.length ∧
      if awaiting then ∃ time : Stamp, time.unit = unit ∧ label = [.stamp time] else label = []

/-- The calls so far, cut at the containers that are open, and the bytes they have written. -/
inductive Parsed (v : Vocabulary) : List Frame → List Op → Nat → Prop where
  | base {ops : List Op} (d : Derivation v .values maxDepth ops) (hfits : d.Fits) :
      Parsed v [] ops d.size
  | nested {outer begun : List Frame} {before ops : List Op} {kind : FrameKind}
      {n start size : Nat} (houter : Parsed v outer before start)
      (hbegin : beginFrames outer = .ok begun) (hdepth : outer.length + (n + 1) = maxDepth)
      (hopened : Opened v n kind ops size) :
      Parsed v (⟨kind, start⟩ :: begun) (before ++ ops) (start + headerSize + size)

section Opened

variable {v : Vocabulary} {n size : Nat} {kind kind' : FrameKind} {ops more : List Op}

theorem Opened.value (h : Opened v n kind ops size) (hbegin : kind.beginValue = .ok kind')
    (d : Derivation v .value n more) (hfits : d.Fits) :
    Opened v n kind' (ops ++ more) (size + d.size) := by
  cases kind with
  | vector lock => cases hbegin
  | tuple =>
    cases hbegin
    obtain ⟨inner, items, rfl, hitems, rfl⟩ := h
    exact ⟨inner ++ more, .addValue items d, rfl, ⟨hitems, hfits⟩, rfl⟩
  | object awaiting =>
    cases awaiting <;> cases hbegin
    obtain ⟨id, otype, inner, label, items, rfl, hitems, rfl, key, context, hkey, rfl⟩ := h
    refine ⟨id, otype, _, [], .addProperty items key context hkey d, by simp, ⟨hitems, hfits⟩,
      ?_, rfl⟩
    change 8 + items.size + 8 * 1 + d.size = 8 + (items.size + (8 + d.size)) + 8 * 0
    omega
  | sequence unit awaiting =>
    cases awaiting <;> cases hbegin
    obtain ⟨inner, label, items, rfl, hitems, rfl, time, htime, rfl⟩ := h
    refine ⟨_, [], .addEvent items time htime d, by simp, ⟨hitems, hfits⟩, ?_, rfl⟩
    change 8 + items.size + 8 * 1 + d.size = 8 + (items.size + (8 + d.size)) + 8 * 0
    omega

/-- What is closed is a value. -/
theorem Opened.close (h : Opened v n kind ops size) (hawaiting : kind.awaiting = false)
    (hbody : size ≤ maxBody) :
    ∃ d : Derivation v .value (n + 1) (ops ++ [.pop]), d.Fits ∧ d.size = atomSize size := by
  cases kind with
  | vector lock =>
    cases lock with
    | none =>
      obtain ⟨width, rfl, rfl⟩ := h
      exact ⟨.emptyVector width, hbody, rfl⟩
    | some locked =>
      obtain ⟨type, width⟩ := locked
      obtain ⟨first, inner, items, rfl, hitems, hfirst⟩ := h
      rcases hfirst with ⟨rfl, htype, hwidth, rfl⟩ | ⟨any, x, rfl, rfl, rfl, rfl⟩
      · exact ⟨.vector type width htype hwidth items, ⟨hbody, hitems⟩, rfl⟩
      · exact ⟨.lockedVector any x items, ⟨hbody, hitems⟩, rfl⟩
  | tuple =>
    obtain ⟨inner, items, rfl, hitems, rfl⟩ := h
    exact ⟨.tuple items, ⟨hbody, hitems⟩, rfl⟩
  | object awaiting =>
    obtain rfl : awaiting = false := hawaiting
    obtain ⟨id, otype, inner, label, items, hops, hitems, rfl, rfl⟩ := h
    rw [List.append_nil] at hops
    subst hops
    exact ⟨.object id otype items, ⟨hbody, hitems⟩, rfl⟩
  | sequence unit awaiting =>
    obtain rfl : awaiting = false := hawaiting
    obtain ⟨inner, label, items, hops, hitems, rfl, rfl⟩ := h
    rw [List.append_nil] at hops
    subst hops
    exact ⟨.sequence unit items, ⟨hbody, hitems⟩, rfl⟩

end Opened

namespace Parsed

variable {v : Vocabulary} {n size : Nat} {frames begun : List Frame} {ops more : List Op}

theorem depth (h : Parsed v frames ops size) : ∃ n, frames.length + n = maxDepth := by
  cases h with
  | base d hfits => exact ⟨maxDepth, by simp⟩
  | @nested outer begun before ops kind n start size houter hbegin hdepth hopened =>
    refine ⟨n, ?_⟩
    rw [List.length_cons, length_beginFrames hbegin]
    omega

theorem value (h : Parsed v frames ops size) (hbegin : beginFrames frames = .ok begun)
    (hdepth : frames.length + n = maxDepth) (d : Derivation v .value n more) (hfits : d.Fits) :
    Parsed v begun (ops ++ more) (size + d.size) := by
  cases h with
  | base items hitems =>
    cases hbegin
    obtain rfl : n = maxDepth := by simpa using hdepth
    exact .base (.addValue items d) ⟨hitems, hfits⟩
  | @nested outer begun₀ before inner kind n₀ start size houter hbegin₀ hdepth₀ hopened =>
    obtain ⟨kind', hkind, hbegun⟩ := bind_eq_ok_iff.mp hbegin
    cases hbegun
    rw [List.length_cons, length_beginFrames hbegin₀] at hdepth
    obtain rfl : n = n₀ := by omega
    rw [List.append_assoc, Nat.add_assoc]
    exact .nested houter hbegin₀ hdepth₀ (hopened.value hkind d hfits)

/-- The innermost container goes on by itself. -/
theorem grow {kind kind' : FrameKind} {header extra : Nat}
    (h : Parsed v (⟨kind, header⟩ :: frames) ops size)
    (hgrow : ∀ n inner count, Opened v n kind inner count →
      Opened v n kind' (inner ++ more) (count + extra)) :
    Parsed v (⟨kind', header⟩ :: frames) (ops ++ more) (size + extra) := by
  cases h with
  | @nested outer begun₀ before inner _ n₀ start size houter hbegin hdepth hopened =>
    rw [List.append_assoc, Nat.add_assoc]
    exact .nested houter hbegin hdepth (hgrow n₀ inner size hopened)

theorem leave {kind : FrameKind} {header : Nat} (h : Parsed v (⟨kind, header⟩ :: frames) ops size)
    (hawaiting : kind.awaiting = false) (hbody : size - (header + headerSize) ≤ maxBody) :
    Parsed v frames (ops ++ [.pop]) (size + padding (size - (header + headerSize))) := by
  cases h with
  | @nested outer begun₀ before inner _ n₀ start size houter hbegin hdepth hopened =>
    rw [Nat.add_sub_cancel_left] at hbody ⊢
    -- The closed container is a value of the one around it.
    obtain ⟨d, hfits, hsize⟩ := hopened.close hawaiting hbody
    have hnext := houter.value hbegin hdepth d hfits
    rw [hsize, atomSize, ← List.append_assoc] at hnext
    simpa only [Nat.add_assoc] using hnext

end Parsed

/-- What a move fills in after the fact lies in the bytes that are written. -/
theorem Parsed.patchEnd_le {v : Vocabulary} {frames : List Frame} {ops : List Op} {size : Nat}
    {move : Move} (h : Parsed v frames ops size) (hsound : move.Sound v frames) :
    move.patchEnd ≤ size := by
  cases move with
  | lock header type bytes =>
    obtain ⟨_, _, outer, rfl⟩ := hsound
    cases h with
    | nested houter hbegin hdepth hopened =>
      obtain ⟨width, rfl, rfl⟩ := hopened
      exact Nat.le_refl _
  | leave header =>
    obtain ⟨kind, outer, rfl, _⟩ := hsound
    cases h with
    | nested houter hbegin hdepth hopened => exact Nat.le_add_right _ _
  | _ => exact Nat.zero_le _

/-- The calls that the grammar is about. -/
def Op.inGrammar : Op → Bool
  | reserve _ | value _ | popHandle _ | reset _ => false
  | _ => true

/-- The writer has come to where it is by the calls, none of which failed. -/
structure Follows (v : Vocabulary) (capacity : Nat) (w : Writer) (ops : List Op) : Prop where
  vocabulary : w.vocabulary = v
  room : w.size + w.spare.length = capacity
  parsed : Parsed v w.frames ops w.size

namespace Follows

variable {v : Vocabulary} {capacity : Nat} {w w' : Writer} {ops : List Op} {op : Op}
  {frames : List Frame}

theorem move {move : Move} (h : Follows v capacity w ops) (hallows : w.Allows op move frames)
    (hmove : ∀ buffer, move ≠ .restart buffer)
    (hparsed : Parsed v frames (ops ++ [op]) (w.size + w.demand move)) :
    Follows v capacity (w.perform frames move) (ops ++ [op]) := by
  have hroom := hallows.demand_le
  have hsound := hallows.sound
  rw [h.vocabulary] at hsound
  obtain ⟨hsize, hspare⟩ := Writer.size_perform hroom (h.parsed.patchEnd_le hsound) hmove
  refine ⟨(w.perform_vocabulary frames move).trans h.vocabulary, ?_, ?_⟩
  · rw [hsize, hspare, ← h.room]
    omega
  · rwa [Writer.perform_frames hallows.turn_eq, hsize]

theorem leaf {type : TypeId} {body : Bytes} (h : Follows v capacity w ops)
    (hallows : w.Allows op (.leaf type body) frames)
    (hvalue : ∀ n, ∃ d : Derivation v .value n [op], d.Fits ∧ d.size = atomSize body.length) :
    Follows v capacity (w.perform frames (.leaf type body)) (ops ++ [op]) := by
  obtain ⟨n, hdepth⟩ := h.parsed.depth
  obtain ⟨d, hfits, hsize⟩ := hvalue n
  have hparsed := h.parsed.value hallows.turn_eq hdepth d hfits
  rw [hsize] at hparsed
  exact h.move hallows (by simp) hparsed

theorem enter {kind : FrameKind} {type : TypeId} {lead : Bytes} (h : Follows v capacity w ops)
    (hallows : w.Allows op (.enter kind type lead) frames)
    (hopened : ∀ n, Opened v n kind [op] lead.length) :
    Follows v capacity (w.perform frames (.enter kind type lead)) (ops ++ [op]) := by
  obtain ⟨hdepth, hturn⟩ := ensure_eq_ok_iff.mp hallows.turn_eq
  obtain ⟨begun, hbegin, hframes⟩ := bind_eq_ok_iff.mp hturn
  cases hframes
  obtain ⟨n, hn⟩ : ∃ n, w.frames.length + (n + 1) = maxDepth := by
    simp only [decide_eq_true_eq] at hdepth
    exact ⟨maxDepth - (w.frames.length + 1), by omega⟩
  have hparsed := Parsed.nested h.parsed hbegin hn (hopened n)
  rw [Nat.add_assoc] at hparsed
  exact h.move hallows (by simp) hparsed

theorem leave {header : Nat} (h : Follows v capacity w ops)
    (hallows : w.Allows .pop (.leave header) frames) :
    Follows v capacity (w.perform frames (.leave header)) (ops ++ [.pop]) := by
  obtain ⟨kind, outer, hframes, hawaiting⟩ := hallows.sound
  have hturn := hallows.turn_eq
  rw [hframes] at hturn
  cases hturn
  have hparsed := h.parsed
  rw [hframes] at hparsed
  exact h.move hallows (by simp) (hparsed.leave hawaiting hallows.announced_le)

/-- An element or a scalar among the elements of a vector. -/
theorem element {bytes : Bytes} {type : TypeId} {width : UInt32} {header : Nat}
    {outer : List Frame} (h : Follows v capacity w ops)
    (hallows : w.Allows op (.element bytes) frames)
    (hframes : w.frames = ⟨.vector (some (type, width)), header⟩ :: outer)
    (hadd : ∀ n inner (d : Derivation v (.elements type width) n inner), d.Fits →
      ∃ d' : Derivation v (.elements type width) n (inner ++ [op]),
        d'.Fits ∧ d'.size = d.size + bytes.length) :
    Follows v capacity (w.perform frames (.element bytes)) (ops ++ [op]) := by
  have hgrow : ∀ n inner count, Opened v n (.vector (some (type, width))) inner count →
      Opened v n (.vector (some (type, width))) (inner ++ [op]) (count + bytes.length) := by
    rintro n _ count ⟨first, inner, d, rfl, hfits, hfirst⟩
    obtain ⟨d', hfits', hsize⟩ := hadd n inner d hfits
    refine ⟨first, inner ++ [op], d', by simp, hfits', ?_⟩
    rcases hfirst with ⟨hfirst, htype, hwidth, rfl⟩ | ⟨any, x, hfirst, htype, hwidth, rfl⟩
    · exact Or.inl ⟨hfirst, htype, hwidth, by omega⟩
    · exact Or.inr ⟨any, x, hfirst, htype, hwidth, by omega⟩
  have hparsed := h.parsed
  rw [hframes] at hparsed
  have hturn := hallows.turn_eq
  cases hturn
  apply h.move hallows (by simp)
  rw [hframes]
  exact hparsed.grow hgrow

theorem label {bytes : Bytes} {kind : FrameKind} {header : Nat} {outer : List Frame}
    (h : Follows v capacity w ops) (hallows : w.Allows op (.label bytes) frames)
    (hframes : w.frames = ⟨kind, header⟩ :: outer)
    (hgrow : ∀ n inner count, Opened v n kind inner count →
      Opened v n kind.beginLabel (inner ++ [op]) (count + bytes.length)) :
    Follows v capacity (w.perform frames (.label bytes)) (ops ++ [op]) := by
  have hparsed := h.parsed
  rw [hframes] at hparsed
  have hturn := hallows.turn_eq
  rw [hframes] at hturn
  cases hturn
  exact h.move hallows (by simp) (hparsed.grow hgrow)

theorem scalar {type : TypeId} {x : Scalar} {move : Move} (hv : v.Resolved)
    (h : Follows v capacity w ops) (hallows : w.Allows (.scalar type x) move frames) :
    Follows v capacity (w.perform frames move) (ops ++ [.scalar type x]) := by
  have hmove : Op.scalarMove w.vocabulary w.frames type x = .ok move := hallows.move_eq
  rw [h.vocabulary] at hmove
  obtain ⟨bytes, hbytes, hmade⟩ := bind_eq_ok_iff.mp hmove
  obtain ⟨hkind, rfl⟩ := Op.encode_eq_ok_iff.mp hbytes
  obtain rfl := hv.scalarKind?_eq_some_iff.mp hkind
  split at hmade
  · rename_i header outer hframes
    cases hmade
    have hparsed := h.parsed
    have hturn := hallows.turn_eq
    rw [hframes] at hparsed hturn
    cases hturn
    apply h.move hallows (by simp)
    apply hparsed.grow
    rintro n _ count ⟨width, rfl, rfl⟩
    refine ⟨_, [], .noElements, rfl, trivial, Or.inr ⟨width, x, rfl, rfl, ?_, ?_⟩⟩
    · rw [x.length_payload]
    · rw [Writer.demand, x.length_payload]
      rfl
  · rename_i childType width header outer hframes
    obtain ⟨hfit, hmade⟩ := ensure_eq_ok_iff.mp hmade
    cases hmade
    obtain ⟨htype, hwidth⟩ : childType = v.scalarType x.kind ∧ width.toNat = x.payload.length := by
      simpa using hfit
    subst htype
    apply h.element hallows hframes
    intro n inner d hfits
    rw [x.length_payload] at hwidth ⊢
    exact ⟨.addScalar d x rfl hwidth.symm, hfits, rfl⟩
  · cases hmade
    refine h.leaf hallows fun n => ⟨.scalar x, ?_, ?_⟩
    · have hbody := hallows.announced_le
      rwa [Writer.announced, x.length_payload] at hbody
    · rw [x.length_payload]
      rfl

/-- One more call that succeeds. -/
theorem step {reply : Reply} (hv : v.Resolved) (h : Follows v capacity w ops)
    (hop : op.inGrammar = true) (hstep : w.step op = (.ok reply, w')) :
    Follows v capacity w' (ops ++ [op]) := by
  obtain ⟨move, frames, hallows, _, rfl⟩ := Writer.step_ok hstep
  have hmove := hallows.move_eq
  -- The move that the call made tells which production goes on.
  cases op with
  | reserve count | value x | popHandle handle | reset buffer => cases hop
  | scalar type x => exact h.scalar hv hallows
  | text form content =>
    obtain ⟨_, rfl⟩ := Op.typedMove_eq_ok_iff.mp hmove
    have hbody := hallows.announced_le
    have hlen : (content ++ [0]).length = content.length + 1 := List.length_append
    refine h.leaf hallows fun n => ⟨.text form content, ?_, ?_⟩
    · rwa [Writer.announced, hlen] at hbody
    · rw [hlen]
      rfl
  | literal content lang datatype =>
    obtain ⟨hone, hmade⟩ := ensure_eq_ok_iff.mp hmove
    cases hmade
    have hbody := hallows.announced_le
    simp only [decide_eq_true_eq] at hone
    have hlen : (word32 lang ++ word32 datatype ++ content ++ [0]).length =
        content.length + 9 := by
      simp only [List.length_append, length_word32, List.length_singleton]
      omega
    refine h.leaf hallows fun n => ⟨.literal content lang datatype hone.2, ?_, ?_⟩
    · rwa [Writer.announced, hlen] at hbody
    · rw [hlen]
      rfl
  | chunk body =>
    obtain ⟨_, rfl⟩ := Op.typedMove_eq_ok_iff.mp hmove
    exact h.leaf hallows fun n => ⟨.chunk body, hallows.announced_le, rfl⟩
  | atom type body =>
    obtain ⟨htype, rfl⟩ := Op.typedMove_eq_ok_iff.mp hmove
    exact h.leaf hallows fun n => ⟨.atom type body htype, hallows.announced_le, rfl⟩
  | pushVector childType width =>
    simp only [Op.move] at hmove
    split at hmove
    · rename_i hzero
      subst hzero
      obtain ⟨_, rfl⟩ := Op.enterMove_eq_ok_iff.mp hmove
      exact h.enter hallows fun n => ⟨width, rfl, rfl⟩
    · rename_i htype
      obtain ⟨hwidth, hmove⟩ := ensure_eq_ok_iff.mp hmove
      obtain ⟨_, rfl⟩ := Op.enterMove_eq_ok_iff.mp hmove
      simp only [decide_eq_true_eq] at hwidth
      exact h.enter hallows fun n =>
        ⟨_, [], .noElements, rfl, trivial, Or.inl ⟨rfl, htype, hwidth, rfl⟩⟩
  | element bytes =>
    simp only [Op.move] at hmove
    split at hmove
    · rename_i type width header outer hframes
      obtain ⟨hlen, hmade⟩ := ensure_eq_ok_iff.mp hmove
      cases hmade
      simp only [decide_eq_true_eq] at hlen
      exact h.element hallows hframes fun n inner d hfits =>
        ⟨.addElement d bytes hlen, hfits, rfl⟩
    · cases hmove
  | pushTuple =>
    obtain ⟨_, rfl⟩ := Op.enterMove_eq_ok_iff.mp hmove
    exact h.enter hallows fun n => ⟨[], .noValues, rfl, trivial, rfl⟩
  | pushObject id otype =>
    obtain ⟨_, rfl⟩ := Op.enterMove_eq_ok_iff.mp hmove
    exact h.enter hallows fun n => ⟨id, otype, [], [], .noProperties, rfl, trivial, rfl, rfl⟩
  | property key context =>
    simp only [Op.move] at hmove
    split at hmove
    · rename_i header outer hframes
      obtain ⟨hkey, hmade⟩ := ensure_eq_ok_iff.mp hmove
      cases hmade
      simp only [decide_eq_true_eq] at hkey
      apply h.label hallows hframes
      rintro n _ count ⟨id, otype, inner, label, d, rfl, hfits, rfl, rfl⟩
      exact ⟨id, otype, inner, _, d, by simp, hfits, by simp, key, context, hkey, rfl⟩
    · cases hmove
  | pushSequence unit =>
    obtain ⟨_, rfl⟩ := Op.enterMove_eq_ok_iff.mp hmove
    exact h.enter hallows fun n => ⟨[], [], .noEvents, rfl, trivial, rfl, rfl⟩
  | stamp time =>
    simp only [Op.move] at hmove
    split at hmove
    · rename_i unit header outer hframes
      obtain ⟨htime, hmade⟩ := ensure_eq_ok_iff.mp hmove
      cases hmade
      simp only [decide_eq_true_eq] at htime
      apply h.label hallows hframes
      rintro n _ count ⟨inner, label, d, rfl, hfits, rfl, rfl⟩
      exact ⟨inner, _, d, by simp, hfits, by simp, time, htime, rfl⟩
    · cases hmove
  | pop =>
    obtain ⟨header, rfl⟩ := Op.leaveMove_eq_ok hmove
    exact h.leave hallows

theorem run (hv : v.Resolved) {rest : List Op} (h : Follows v capacity w ops)
    (hrest : ∀ op ∈ rest, op.inGrammar = true) (haccepts : w.Accepts rest w') :
    Follows v capacity w' (ops ++ rest) := by
  induction rest generalizing w ops with
  | nil =>
    obtain rfl := Writer.accepts_nil.mp haccepts
    simpa using h
  | cons op rest ih =>
    obtain ⟨reply, next, hstep, hnext⟩ := Writer.accepts_cons.mp haccepts
    have hfollows := h.step hv (hrest op List.mem_cons_self) hstep
    simpa using ih hfollows (fun x hx => hrest x (List.mem_cons_of_mem op hx)) hnext

end Follows

/-- Calls are accepted and leave no container open exactly if the grammar derives them with
at most `maxDepth` containers open and there is room for what they write. -/
theorem run_ok_iff_derivation (t : UriTable) (hids : t.resolve.2.size < UInt32.size)
    (zeroPadding : Bool) (buffer : Bytes) (ops : List Op)
    (hops : ∀ op ∈ ops, op.inGrammar = true) :
    let run := (Writer.create t.resolve.1 zeroPadding buffer).run ops
    (∀ reply ∈ run.1, reply.isOk = true) ∧ run.2.depth = 0 ↔
      ∃ d : Derivation t.resolve.1 .values maxDepth ops, d.Fits ∧ d.size ≤ buffer.length := by
  intro run
  have hv := UriTable.resolved_of_size_lt hids
  constructor
  · rintro ⟨hok, hdepth⟩
    have hstart : Follows t.resolve.1 buffer.length (Writer.create t.resolve.1 zeroPadding buffer)
        [] := ⟨rfl, Nat.zero_add _, .base .noValues trivial⟩
    have hend : Follows t.resolve.1 buffer.length run.2 ops := hstart.run hv hops ⟨hok, rfl⟩
    have hframes : run.2.frames = [] := List.length_eq_zero_iff.mp hdepth
    have hparsed := hend.parsed
    have hroom := hend.room
    rw [hframes] at hparsed
    generalize run.2.size = size at hparsed hroom
    cases hparsed with
    | base d hfits => exact ⟨d, hfits, by omega⟩
  · rintro ⟨d, hfits, hroom⟩
    have hready : Symbol.values.Ready t.resolve.1 maxDepth d.size
        (Writer.create t.resolve.1 zeroPadding buffer) [] :=
      ⟨rfl, rfl, ⟨rfl, rfl⟩, Nat.le_of_eq (Nat.zero_add _), hroom⟩
    obtain ⟨bytes, _, completed, hok, hend⟩ := d.takes hv hready hfits
    exact ⟨hok, congrArg Writer.depth hend⟩

theorem run_ok_iff_derivation_events :
    let t := UriTable.empty
    let ops : List Op := [.chunk [1, 2], .pushSequence .beats, .stamp (.beats ⟨0⟩),
      .pushVector 0 7, .scalar 1 (.int 5), .element [1, 2, 3, 4], .pop, .pop]
    t.resolve.2.size < UInt32.size ∧ (∀ op ∈ ops, op.inGrammar = true) ∧
      ∃ d : Derivation t.resolve.1 .values maxDepth ops, d.Fits ∧ d.size ≤ 72 := by
  intro t ops
  have hids : t.resolve.2.size < UInt32.size := by decide +kernel
  have hops : ∀ op ∈ ops, op.inGrammar = true := by decide
  have hrun := run_ok_iff_derivation t hids false (List.replicate 72 9) ops hops
  refine ⟨hids, hops, hrun.mp ⟨?_, ?_⟩⟩
  · decide +kernel
  · decide +kernel

end AtomWire

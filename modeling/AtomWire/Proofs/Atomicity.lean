import AtomWire.Proofs.Commands

/-!
# Failed calls have no effect

A command that fails half-way keeps what it has changed so far, so it matters that every
call makes its checks before it changes anything but the slot of a value, and that only
space can run out after that. A call that is refused leaves the writer exactly as it was;
a call that runs out of space leaves its bytes, and no call gets past that but a reset.
-/

namespace AtomWire

set_option autoImplicit false

/-- The answer turns a call down for another reason than space. -/
def isRefusal : Except WireError Reply → Bool
  | .ok _ | .error .outOfSpace => false
  | .error _ => true

theorem isRefusal_iff {answer : Except WireError Reply} :
    isRefusal answer = true ↔ ∃ e, e ≠ .outOfSpace ∧ answer = .error e := by
  cases answer with
  | ok reply => simp [isRefusal]
  | error e => cases e <;> simp [isRefusal]

namespace Writer

variable {w : Writer} {op : Op} {e : WireError}

/-- A writer that has been in use since it was created. -/
def InUse (w : Writer) : Prop := ∃ ideal, w.Mirrors ideal ∧ ideal.Rooted

namespace InUse

theorem execute (h : w.InUse) (op : Op) : (w.execute op).2.InUse := by
  obtain ⟨ideal, hmirrors, hroot⟩ := h
  exact ⟨_, (hmirrors.execute hroot op).2, hroot.step op⟩

theorem created (v : Vocabulary) (zeroPadding : Bool) (buffer : Bytes) (ops : List Op) :
    ((create v zeroPadding buffer).executeAll ops).2.InUse := by
  have hroot := Rooted.create v zeroPadding buffer
  exact ⟨_, ((Mirrors.refl _).executeAll hroot ops).2, hroot.run ops⟩

theorem rooted (h : w.InUse) (hspace : w.exhausted = false) : w.Rooted := by
  obtain ⟨ideal, hmirrors, hroot⟩ := h
  have hideal : w = ideal := hmirrors.eq_of_space (hmirrors.exhausted ▸ hspace)
  rwa [hideal]

theorem unchanged (h : w.InUse) (he : e ≠ .outOfSpace) (hanswer : (w.execute op).1 = .error e) :
    (w.execute op).2 = w := by
  obtain ⟨ideal, hmirrors, hroot⟩ := h
  obtain ⟨hsame, hnext⟩ := hmirrors.execute hroot op
  have hstep : ideal.step op = (.error e, (ideal.step op).2) := by rw [← hanswer, hsame]
  rcases step_error_cases hstep with ⟨_, hspace, hkept⟩ | ⟨hfull, _⟩
  · rw [hkept] at hnext
    rw [hnext.eq_of_space hspace, hmirrors.eq_of_space hspace]
  · exact absurd hfull he

/-- Space that runs out in the middle of a call costs at most the slot of a value. -/
theorem outOfSpace (h : w.InUse) (hanswer : (w.execute op).1 = .error .outOfSpace) :
    (w.execute op).2.Mirrors { w with exhausted := true } := by
  obtain ⟨ideal, hmirrors, hroot⟩ := h
  obtain ⟨hsame, hnext⟩ := hmirrors.execute hroot op
  have hstep : ideal.step op = (.error .outOfSpace, (ideal.step op).2) := by rw [← hanswer, hsame]
  rcases step_error_cases hstep with ⟨hne, _, _⟩ | ⟨_, hfull⟩
  · exact absurd rfl hne
  · cases hspace : ideal.exhausted with
    | false =>
      rw [hfull, ← hmirrors.eq_of_space hspace] at hnext
      exact hnext
    | true =>
      have hreset : op.isReset = false := by
        cases op with
        | reset buffer => cases hanswer
        | _ => rfl
      have hw : w.exhausted = true := hmirrors.exhausted.trans hspace
      rw [execute_exhausted hw hreset]
      refine ⟨?_, Or.inl rfl, nofun⟩
      rw [← hw]

-- The slot is in fact lost: the object waits for a value before the call, not after it.
example :
    let w := ((Writer.create UriTable.empty.resolve.1 true (List.replicate 24 7)).executeAll
      [.pushObject 3 0, .property 9 0]).2
    w.frames = [⟨.object true, 0⟩] ∧ (w.execute (.chunk [])).2.frames = [⟨.object false, 0⟩] := by
  decide +kernel

/-- Calls that are refused can as well be left out. -/
theorem executeAll_kept (h : w.InUse) (ops : List Op) :
    let kept := (ops.zip (w.executeAll ops).1).filter fun call => !isRefusal call.2
    w.executeAll (kept.map Prod.fst) = (kept.map Prod.snd, (w.executeAll ops).2) := by
  induction ops generalizing w with
  | nil => rfl
  | cons op rest ih =>
    have hrest := ih (h.execute op)
    rw [executeAll]
    by_cases hrefused : isRefusal (w.execute op).1 = true
    · obtain ⟨e, he, hanswer⟩ := isRefusal_iff.mp hrefused
      rw [h.unchanged he hanswer] at hrest ⊢
      simpa [hrefused] using hrest
    · simp [hrefused, executeAll, hrest]

end InUse

theorem Mirrors.setup {ideal : Writer} (h : w.Mirrors ideal) : w.setup = ideal.setup := by
  rw [h.eq]
  rfl

theorem executeAll_setup (v : Vocabulary) (zeroPadding : Bool) (buffer : Bytes) (ops : List Op) :
    ((create v zeroPadding buffer).executeAll ops).2.setup = (v, zeroPadding) := by
  have hroot := Rooted.create v zeroPadding buffer
  rw [((Mirrors.refl _).executeAll hroot ops).2.setup, run_setup]
  rfl

theorem executeAll_vocabulary (v : Vocabulary) (zeroPadding : Bool) (buffer : Bytes)
    (ops : List Op) : ((create v zeroPadding buffer).executeAll ops).2.vocabulary = v :=
  congrArg Prod.fst (executeAll_setup v zeroPadding buffer ops)

theorem executeAll_append (w : Writer) (ops rest : List Op) :
    w.executeAll (ops ++ rest) = ((w.executeAll ops).1 ++ ((w.executeAll ops).2.executeAll rest).1,
      ((w.executeAll ops).2.executeAll rest).2) := by
  induction ops generalizing w with
  | nil => rfl
  | cons op ops ih => simp only [List.cons_append, executeAll, ih]

theorem executeAll_exhausted (h : w.exhausted = true) {ops : List Op}
    (hreset : ∀ op ∈ ops, op.isReset = false) :
    w.executeAll ops = (ops.map fun _ => .error .outOfSpace, w) := by
  induction ops with
  | nil => rfl
  | cons op rest ih =>
    rw [List.forall_mem_cons] at hreset
    rw [executeAll, execute_exhausted h hreset.1, ih hreset.2]
    rfl

end Writer

/-- For a writer after any calls: a refused call changes nothing; a call that runs out of
space keeps the bytes, the cursor, the depth and the count, and from then on every call
but a reset is answered so and changes nothing. Hence a run comes to the same writer, with
the same answers, if the refused calls are left out of it. -/
theorem execute_atomic (v : Vocabulary) (zeroPadding : Bool) (buffer : Bytes)
    (before : List Op) :
    let w := ((Writer.create v zeroPadding buffer).executeAll before).2
    (∀ op e, e ≠ .outOfSpace → (w.execute op).1 = .error e → (w.execute op).2 = w) ∧
    (∀ op, (w.execute op).1 = .error .outOfSpace →
      let after := (w.execute op).2
      after.buffer = w.buffer ∧ after.size = w.size ∧ after.depth = w.depth ∧
        after.completed = w.completed ∧ after.exhausted = true) ∧
    (w.exhausted = true → ∀ ops : List Op, (∀ op ∈ ops, op.isReset = false) →
      w.executeAll ops = (ops.map fun _ => .error .outOfSpace, w)) ∧
    ∀ ops,
      let kept := (ops.zip (w.executeAll ops).1).filter fun call => !isRefusal call.2
      w.executeAll (kept.map Prod.fst) = (kept.map Prod.snd, (w.executeAll ops).2) := by
  intro w
  have huse : w.InUse := Writer.InUse.created v zeroPadding buffer before
  refine ⟨?_, ?_, ?_, huse.executeAll_kept⟩
  · intro op e he hanswer
    exact huse.unchanged he hanswer
  · intro op hanswer after
    have hmirrors := huse.outOfSpace hanswer
    exact ⟨hmirrors.buffer, hmirrors.size, hmirrors.depth, hmirrors.completed, hmirrors.exhausted⟩
  · intro hfull ops hreset
    exact Writer.executeAll_exhausted hfull hreset

/-- A key without its value is refused its end, and the value that follows does not fit. -/
theorem execute_atomic_pending :
    let v := UriTable.empty.resolve.1
    let before : List Op := [.pushObject 3 0, .pop, .pushObject 3 0, .property 9 0]
    let w := ((Writer.create v false (List.replicate 40 7)).executeAll before).2
    let value : Op := .chunk (List.replicate 20 1)
    let full := ((Writer.create v false (List.replicate 40 7)).executeAll (before ++ [value])).2
    (w.execute .pop).1 = .error .frameMismatch ∧ (w.execute .pop).2 = w ∧
      (w.execute value).1 = .error .outOfSpace ∧ (w.execute value).2.buffer = w.buffer ∧
      full.exhausted = true ∧ full.executeAll [.reserve 0, .popHandle ⟨1, 16⟩] =
        ([.error .outOfSpace, .error .outOfSpace], full) := by
  intro v before w value full
  have hpop : (w.execute .pop).1 = .error .frameMismatch := by decide +kernel
  have hvalue : (w.execute value).1 = .error .outOfSpace := by decide +kernel
  have hfull : full.exhausted = true := by decide +kernel
  have hatomic := execute_atomic v false (List.replicate 40 7) before
  have hsticky := execute_atomic v false (List.replicate 40 7) (before ++ [value])
  extract_lets at hatomic hsticky
  exact ⟨hpop, hatomic.1 .pop _ (by decide) hpop, hvalue, (hatomic.2.1 value hvalue).1, hfull,
    hsticky.2.2.1 hfull _ (by decide)⟩

end AtomWire

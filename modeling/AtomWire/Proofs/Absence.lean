import AtomWire.Proofs.Containment
import AtomWire.Source.Query

/-!
# Atoms without a type

The id 0 means that there is no type, and most questions about an atom of type 0 get no
answer. Vectors, tuples and sequences, however, are opened wherever the types agree, so a
term that is absent from the vocabulary matches an atom that has no type. The main result
says exactly when that happens.
-/

namespace AtomWire

set_option autoImplicit false

/-- The term whose id is all that the type of the view is compared with. -/
def Query.compared : Query → Option Term
  | vector | element _ | elements => some .vector
  | children | childCount => some .tuple
  | unit | events | eventCount | firstDecrease => some .sequence
  | _ => none

/-- Whether the body is one of a vector, a tuple or a sequence. -/
def Term.fits (term : Term) (body : Bytes) : Bool :=
  match term with
  | .vector => 8 ≤ body.length ∧
    if getWord32 (body.drop 4) = 0 then (body.drop 8).isEmpty
    else (body.drop 8).length % (getWord32 (body.drop 4)).toNat = 0
  | .sequence => 8 ≤ body.length
  | _ => true

/-- Going on from an outcome without another check. -/
theorem exists_bind_pure_iff {ε α β : Type} {x : Except ε α} {f : α → β} :
    (∃ b, (x >>= fun a => pure (f a)) = .ok b) ↔ ∃ a, x = .ok a := by
  cases x <;> simp

namespace Source

variable {s : Source} {view : AtomView} {body : Bytes}

theorem exists_vector_iff :
    (∃ v, s.vector view = .ok v) ↔
      ∃ body, s.body view = .ok body ∧ view.type = s.vocabulary.id .vector ∧
        Term.vector.fits body = true := by
  constructor
  · rintro ⟨v, h⟩
    obtain ⟨body, hopen, hrest⟩ := bind_eq_ok_iff.mp h
    obtain ⟨hbody, htype, hlead⟩ := openAs_eq_ok_iff.mp hopen
    obtain ⟨hshape, _⟩ := ensure_eq_ok_iff.mp hrest
    exact ⟨body, hbody, htype, decide_eq_true ⟨hlead, hshape⟩⟩
  · rintro ⟨body, hbody, htype, hfits⟩
    obtain ⟨hlead, hshape⟩ := of_decide_eq_true hfits
    rw [vector, openAs_eq_ok_iff.mpr ⟨hbody, htype, hlead⟩, ok_bind, ensure_bind, if_pos hshape]
    exact ⟨_, rfl⟩

theorem exists_tuple_iff :
    (∃ r, s.tuple view = .ok r) ↔
      ∃ body, s.body view = .ok body ∧ view.type = s.vocabulary.id .tuple ∧
        Term.tuple.fits body = true := by
  rw [tuple, exists_bind_pure_iff]
  simp only [openAs_eq_ok_iff, Nat.zero_le, and_true, Term.fits]

theorem exists_sequence_iff :
    (∃ q, s.sequence view = .ok q) ↔
      ∃ body, s.body view = .ok body ∧ view.type = s.vocabulary.id .sequence ∧
        Term.sequence.fits body = true := by
  rw [sequence, exists_bind_pure_iff]
  simp only [openAs_eq_ok_iff, Term.fits, decide_eq_true_eq]

section Absent

variable (habsent : view.type = 0)
include habsent

theorem scalar_of_absent (x : Scalar) : s.scalar view ≠ .ok x := by
  intro h
  obtain ⟨body, _, hrest⟩ := bind_eq_ok_iff.mp h
  obtain ⟨_, hdecode⟩ := ensure_eq_ok_iff.mp hrest
  simp [Vocabulary.decode, Vocabulary.scalarKind?, habsent] at hdecode

theorem expect_of_absent (term : Term) : s.expect term view = .error .unexpectedType := by
  rw [expect, habsent, decide_eq_false]
  · rfl
  · rintro ⟨hpresent, hsame⟩
    exact hpresent hsame.symm

theorem object_of_absent (o : ObjectView) : s.object view ≠ .ok o := by
  intro h
  obtain ⟨body, _, hrest⟩ := bind_eq_ok_iff.mp h
  obtain ⟨hobject, _⟩ := ensure_eq_ok_iff.mp hrest
  simp [Vocabulary.isObject, habsent] at hobject

/-- A question that does more than to compare a type is not answered. -/
theorem answer_of_absent {query : Query} (h : query.compared = none) (answer : Answer) :
    s.answer view query ≠ .ok answer := by
  intro hanswer
  cases query with
  | scalar =>
    obtain ⟨x, hx, _⟩ := bind_eq_ok_iff.mp hanswer
    exact scalar_of_absent habsent x hx
  | scalarOf kind =>
    obtain ⟨y, hy, _⟩ := bind_eq_ok_iff.mp hanswer
    obtain ⟨x, hx, _⟩ := bind_eq_ok_iff.mp hy
    exact scalar_of_absent habsent x hx
  | text form | literal | chunk =>
    obtain ⟨content, hcontent, _⟩ := bind_eq_ok_iff.mp hanswer
    obtain ⟨body, _, hrest⟩ := bind_eq_ok_iff.mp hcontent
    rw [expect_of_absent habsent] at hrest
    cases hrest
  | object | properties | propertyCount | find key =>
    obtain ⟨o, ho, _⟩ := bind_eq_ok_iff.mp hanswer
    exact object_of_absent habsent o ho
  | _ => cases h

/-- A view without a type is accepted where a term without an id is compared with it, and
nowhere else. -/
theorem exists_answer_iff_of_absent (query : Query) :
    (∃ answer, s.answer view query = .ok answer) ↔
      ∃ term body, query.compared = some term ∧ s.vocabulary.id term = 0 ∧
        s.body view = .ok body ∧ term.fits body = true := by
  have hopened {term : Term} : (∃ body, s.body view = .ok body ∧
      view.type = s.vocabulary.id term ∧ term.fits body = true) ↔
      ∃ other body, some term = some other ∧ s.vocabulary.id other = 0 ∧
        s.body view = .ok body ∧ other.fits body = true := by
    rw [habsent]
    constructor
    · rintro ⟨body, hbody, hid, hfits⟩
      exact ⟨term, body, rfl, hid.symm, hbody, hfits⟩
    · rintro ⟨other, body, hother, hid, hbody, hfits⟩
      cases hother
      exact ⟨body, hbody, hid.symm, hfits⟩
  cases query with
  | vector | element index | elements =>
    exact exists_bind_pure_iff.trans (exists_vector_iff.trans hopened)
  | children | childCount =>
    exact exists_bind_pure_iff.trans (exists_tuple_iff.trans hopened)
  | unit | events | eventCount | firstDecrease =>
    exact exists_bind_pure_iff.trans (exists_sequence_iff.trans hopened)
  | _ =>
    constructor
    · rintro ⟨answer, hanswer⟩
      exact absurd hanswer (answer_of_absent habsent rfl answer)
    · rintro ⟨term, body, hterm, _⟩
      cases hterm

end Absent

end Source

theorem exists_error_iff {ε α : Type} {x : Except ε α} :
    (∃ e, x = .error e) ↔ ¬ ∃ a, x = .ok a := by
  cases x <;> simp

/-- An atom without a type whose body is eight zeros. -/
def bareBlock : Block := ⟨some 0, word32 0 ++ word32 8 ++ List.replicate 8 0⟩

/-- The same atom is a vector without elements, a tuple of one empty atom and a sequence
without events. -/
theorem bareBlock_accepted {v : Vocabulary} {query : Query} {term : Term}
    (hterm : query.compared = some term) (hid : v.id term = 0) :
    let s := Source.mk v bareBlock
    ∃ view, s.atomAt 0 = .ok view ∧ view.type = 0 ∧ ∃ answer, s.answer view query = .ok answer := by
  intro s
  have hatom : s.atomAt 0 = .ok (bareBlock.viewAt 0 16) := by cbv
  refine ⟨bareBlock.viewAt 0 16, hatom, by decide, ?_⟩
  refine (Source.exists_answer_iff_of_absent (by decide) query).mpr
    ⟨term, List.replicate 8 0, hterm, hid, rfl, ?_⟩
  cases term with
  | vector | sequence => decide
  | _ => rfl

/-- What happens to views of type 0, and exactly when a vocabulary refuses them all: views
made by hand as well as atoms found at an offset. -/
theorem absent_accepted_iff (v : Vocabulary) :
    let present := v.id .vector ≠ 0 ∧ v.id .tuple ≠ 0 ∧ v.id .sequence ≠ 0
    (∀ (block : Block) (view : AtomView) (query : Query), view.type = 0 →
      let s := Source.mk v block
      (∃ answer, s.answer view query = .ok answer) ↔
        ∃ term body, query.compared = some term ∧ v.id term = 0 ∧ s.body view = .ok body ∧
          term.fits body = true) ∧
    ((∀ (block : Block) (view : AtomView) (query : Query), view.type = 0 →
      ∃ e, (Source.mk v block).answer view query = .error e) ↔ present) ∧
    ((∀ (block : Block) (offset : Nat) (view : AtomView) (query : Query),
      (Source.mk v block).atomAt offset = .ok view → view.type = 0 →
        ∃ e, (Source.mk v block).answer view query = .error e) ↔ present) := by
  intro present
  have hviews : present → ∀ (block : Block) (view : AtomView) (query : Query), view.type = 0 →
      ∃ e, (Source.mk v block).answer view query = .error e := by
    rintro ⟨hvector, htuple, hsequence⟩ block view query habsent
    rw [exists_error_iff, Source.exists_answer_iff_of_absent habsent]
    rintro ⟨term, body, hterm, hid, _⟩
    cases query with
    | vector | element index | elements =>
      cases hterm
      exact hvector hid
    | children | childCount =>
      cases hterm
      exact htuple hid
    | unit | events | eventCount | firstDecrease =>
      cases hterm
      exact hsequence hid
    | _ => cases hterm
  have hoffsets : (∀ (block : Block) (offset : Nat) (view : AtomView) (query : Query),
      (Source.mk v block).atomAt offset = .ok view → view.type = 0 →
        ∃ e, (Source.mk v block).answer view query = .error e) → present := by
    intro h
    have hneeded (query : Query) {term : Term} (hterm : query.compared = some term) :
        v.id term ≠ 0 := by
      intro hid
      obtain ⟨view, hatom, habsent, haccepted⟩ := bareBlock_accepted hterm hid
      exact exists_error_iff.mp (h bareBlock 0 view query hatom habsent) haccepted
    exact ⟨hneeded .vector rfl, hneeded .children rfl, hneeded .unit rfl⟩
  refine ⟨fun block view query habsent => Source.exists_answer_iff_of_absent habsent query,
    ⟨fun h => hoffsets fun block _ view query _ => h block view query, hviews⟩,
    ⟨hoffsets, fun hpresent block _ view query _ => hviews hpresent block view query⟩⟩

/-- With an id for vectors alone, the atom is a tuple but no vector. -/
theorem absent_accepted_tuple :
    let v := Vocabulary.unresolved.set .vector 7
    let s := Source.mk v bareBlock
    let view := bareBlock.viewAt 0 16
    view.type = 0 ∧ (∃ answer, s.answer view .children = .ok answer) ∧
      ¬ ∃ answer, s.answer view .vector = .ok answer := by
  intro v s view
  have habsent : view.type = 0 := by decide
  have hexact := (absent_accepted_iff v).1 bareBlock view
  refine ⟨habsent, ?_, ?_⟩
  · exact (hexact .children habsent).mpr ⟨.tuple, List.replicate 8 0, rfl, rfl, by cbv, rfl⟩
  · intro haccepted
    obtain ⟨term, body, hterm, hid, _⟩ := (hexact .vector habsent).mp haccepted
    cases hterm
    exact absurd hid (by decide)

/-- With no term present, an atom of no type is opened as a vector, as a tuple and as a
sequence. -/
theorem unresolved_opens_absent :
    let s := Source.mk Vocabulary.unresolved bareBlock
    ∃ view, s.atomAt 0 = .ok view ∧ view.type = 0 ∧
      (∃ answer, s.answer view .vector = .ok answer) ∧
      (∃ answer, s.answer view .children = .ok answer) ∧
      ∃ answer, s.answer view .unit = .ok answer :=
  ⟨bareBlock.viewAt 0 16, rfl, by decide, ⟨_, rfl⟩, ⟨_, rfl⟩, ⟨_, rfl⟩⟩

end AtomWire

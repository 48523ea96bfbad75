import AtomWire.Proofs.Commands
import AtomWire.Proofs.Encoding
import AtomWire.Proofs.Rereading
import AtomWire.Proofs.Surveys

/-!
# Forwarded atoms

An atom that was found in any buffer can be written again elsewhere, by its type and its
body. Nothing in a body depends on where it stands, so whatever is then asked of the copy,
or of what is found in it at any depth, is answered as before. Only the positions differ,
all by the same distance.
-/

namespace AtomWire

set_option autoImplicit false

/-- From a position of one block to a position in another memory. -/
structure Relocation where
  source : Nat
  target : Nat
  memory : Option Nat

namespace Relocation

def position (m : Relocation) (pos : Nat) : Nat := pos - m.source + m.target

/-- The view at its new place; all it tells of positions is moved. -/
def view (m : Relocation) (x : AtomView) : AtomView where
  type := x.type
  bodySize := x.bodySize
  offset := m.position x.offset
  next := m.position x.next
  body := ⟨m.memory, m.position x.body.start, x.body.bytes⟩

def property (m : Relocation) (p : Property) : Property := { p with value := m.view p.value }

def event (m : Relocation) (e : Event) : Event := { e with value := m.view e.value }

variable {m : Relocation} {pos : Nat}

theorem position_add (h : m.source ≤ pos) (count : Nat) :
    m.position (pos + count) = m.position pos + count := by
  unfold position
  omega

theorem position_le_iff {stop : Nat} (h : m.source ≤ pos) (hstop : m.source ≤ stop) :
    m.position pos ≤ m.position stop ↔ pos ≤ stop := by
  unfold position
  omega

end Relocation

/-- What can be asked of an opened vector. -/
structure VectorAnswers where
  childType : TypeId
  width : UInt32
  size : Nat
  items : List Bytes
  get : Nat → Bytes

def VectorView.answers (v : VectorView) : VectorAnswers :=
  ⟨v.childType, v.width, v.size, v.items, v.get⟩

/-- What can be asked of the records in a container. -/
structure RegionAnswers (α : Type) where
  items : List (Except WireError α)
  count : Nat
  isEmpty : Bool

def Region.answers {α : Type} (r : Region α) : RegionAnswers α := ⟨r.items, r.count, r.isEmpty⟩

def RegionAnswers.map {α : Type} (f : α → α) (a : RegionAnswers α) : RegionAnswers α :=
  { a with items := a.items.map (Except.map f) }

structure ObjectAnswers where
  id : TypeId
  otype : TypeId
  properties : RegionAnswers Property
  find : TypeId → Option AtomView

def ObjectView.answers (o : ObjectView) : ObjectAnswers :=
  ⟨o.id, o.otype, o.properties.answers, o.find⟩

structure SequenceAnswers where
  unit : TimeUnit
  events : RegionAnswers Event
  firstDecrease : Option Nat
  isMonotonic : Bool

def SequenceView.answers (q : SequenceView) : SequenceAnswers :=
  ⟨q.unit, q.events.answers, q.firstDecrease, q.isMonotonic⟩

/-- The answers for `y` in the second source are those for `x` in the first one, with the
views in them moved. -/
structure AnswersMoved (m : Relocation) (s t : Source) (x y : AtomView) : Prop where
  scalar : t.scalar y = s.scalar x
  scalarOf (kind : ScalarKind) : t.scalarOf kind y = s.scalarOf kind x
  text (form : TextForm) : t.text form y = s.text form x
  literal : t.literal y = s.literal x
  chunk : t.chunk y = s.chunk x
  vector : (t.vector y).map VectorView.answers = (s.vector x).map VectorView.answers
  tuple : (t.tuple y).map Region.answers = (s.tuple x).map fun r => r.answers.map m.view
  object : (t.object y).map ObjectView.answers = (s.object x).map fun o =>
    { o.answers with
      properties := o.properties.answers.map m.property
      find := fun key => (o.find key).map m.view }
  sequence : (t.sequence y).map SequenceView.answers = (s.sequence x).map fun q =>
    { q.answers with events := q.events.answers.map m.event }

theorem Source.itemAt_regionOf {α : Type} (s : Source) (x : AtomView) (lead : Nat)
    (layout : Layout α) (pos : Nat) :
    (s.regionOf x lead layout).itemAt pos =
      if pos + layout.lead ≤ x.stop then
        (s.block.childAt (pos + layout.lead) x.stop layout.overrun).map fun view =>
          (layout.make (slice s.block.bytes pos layout.lead) view, view.next)
      else .error .malformedContainer := by
  simp only [Region.itemAt, ensure_bind, decide_eq_true_eq]
  rfl

/-- The body of `x` stands at the new place of `x`, and `y` is a view of it. -/
structure Carried (m : Relocation) (s t : Source) (x y : AtomView) : Prop where
  memory_eq : m.memory = t.block.memory
  vocabulary_eq : t.vocabulary = s.vocabulary
  source_le : m.source ≤ x.offset
  left : x.LiesIn s.block x.offset s.size
  right : y = { m.view x with next := y.next }
  right_le : m.position x.stop ≤ t.size
  slice_eq : ∀ pos count, x.bodyOffset ≤ pos → pos + count ≤ x.stop →
    slice t.block.bytes (m.position pos) count = slice s.block.bytes pos count

namespace Carried

variable {m : Relocation} {s t : Source} {x y : AtomView} {pos stop : Nat}

theorem source_le_of_le (h : Carried m s t x y) (hpos : x.bodyOffset ≤ pos) : m.source ≤ pos :=
  Nat.le_trans h.source_le (Nat.le_trans (Nat.le_add_right _ _) hpos)

theorem type_eq (h : Carried m s t x y) : y.type = x.type := by
  rw [h.right]
  rfl

theorem bodySize_eq (h : Carried m s t x y) : y.bodySize = x.bodySize := by
  rw [h.right]
  rfl

theorem bodyOffset_eq (h : Carried m s t x y) : y.bodyOffset = m.position x.bodyOffset := by
  rw [h.right]
  exact (Relocation.position_add h.source_le headerSize).symm

theorem stop_eq (h : Carried m s t x y) : y.stop = m.position x.stop := by
  have hsource := h.source_le_of_le (Nat.le_refl x.bodyOffset)
  rw [AtomView.stop, h.bodyOffset_eq, h.bodySize_eq, AtomView.stop,
    Relocation.position_add hsource]

theorem body_left (h : Carried m s t x y) : s.body x = .ok x.body.bytes := by
  rw [Source.body, ensure_bind, if_pos (Source.holds_of_liesIn h.left), h.left.body_eq]
  rfl

theorem body_right (h : Carried m s t x y) : t.body y = .ok x.body.bytes := by
  have hslice := h.slice_eq x.bodyOffset x.bodySize.toNat (Nat.le_refl _) (Nat.le_refl _)
  have hlies : y.LiesIn t.block y.offset t.size := by
    refine ⟨Nat.le_refl _, Nat.le_trans (Nat.le_of_eq h.stop_eq) h.right_le, ?_⟩
    rw [h.bodyOffset_eq, h.bodySize_eq, Block.span, hslice, h.right]
    simp only [Relocation.view, h.memory_eq, h.left.body_eq]
    rfl
  rw [Source.body, ensure_bind, if_pos (Source.holds_of_liesIn hlies), h.bodyOffset_eq,
    h.bodySize_eq, hslice, h.left.body_eq]
  rfl

theorem source_le_stop (h : Carried m s t x y) : m.source ≤ x.stop :=
  h.source_le_of_le (Nat.le_add_right _ _)

section Child

variable (h : Carried m s t x y) (hpos : x.bodyOffset ≤ pos)
include h hpos

theorem header_le_iff : m.position pos + headerSize ≤ m.position x.stop ↔
    pos + headerSize ≤ x.stop := by
  rw [← Relocation.position_add (h.source_le_of_le hpos)]
  exact Relocation.position_le_iff (Nat.le_add_right_of_le (h.source_le_of_le hpos))
    h.source_le_stop

variable (hheader : pos + headerSize ≤ x.stop)
include hheader

theorem typeAt_eq : t.block.typeAt (m.position pos) = s.block.typeAt pos := by
  unfold headerSize at hheader
  rw [Block.typeAt, Block.typeAt, h.slice_eq _ _ hpos (by omega)]

theorem sizeAt_eq : t.block.sizeAt (m.position pos) = s.block.sizeAt pos := by
  unfold headerSize at hheader
  rw [Block.sizeAt, Block.sizeAt, ← Relocation.position_add (h.source_le_of_le hpos),
    h.slice_eq _ _ (by omega) (by omega)]

theorem bodyEnd_eq : t.block.bodyEnd (m.position pos) = m.position (s.block.bodyEnd pos) := by
  have hsource := h.source_le_of_le hpos
  rw [Block.bodyEnd, Block.bodyEnd, h.sizeAt_eq hpos hheader,
    Relocation.position_add (Nat.le_add_right_of_le hsource), Relocation.position_add hsource]

theorem paddedEnd_eq : t.block.paddedEnd (m.position pos) = m.position (s.block.paddedEnd pos) := by
  have hsource : m.source ≤ s.block.bodyEnd pos := by
    have hle := h.source_le_of_le hpos
    unfold Block.bodyEnd
    omega
  rw [Block.paddedEnd, Block.paddedEnd, h.bodyEnd_eq hpos hheader, h.sizeAt_eq hpos hheader,
    Relocation.position_add hsource]

theorem viewAt_eq (hbody : s.block.bodyEnd pos ≤ x.stop) (next : Nat) :
    t.block.viewAt (m.position pos) (m.position next) = m.view (s.block.viewAt pos next) := by
  have hslice := h.slice_eq (pos + headerSize) (s.block.sizeAt pos).toNat (by omega) hbody
  rw [Relocation.position_add (h.source_le_of_le hpos)] at hslice
  simp only [Block.viewAt, h.typeAt_eq hpos hheader, h.sizeAt_eq hpos hheader, Block.span, hslice,
    Relocation.view, h.memory_eq, Relocation.position_add (h.source_le_of_le hpos)]

end Child

theorem childAt_eq (h : Carried m s t x y) (hpos : x.bodyOffset ≤ pos) (overrun : WireError) :
    t.block.childAt (m.position pos) (m.position x.stop) overrun =
      (s.block.childAt pos x.stop overrun).map m.view := by
  simp only [Block.childAt, ensure_bind, decide_eq_true_eq, h.header_le_iff hpos]
  by_cases hheader : pos + headerSize ≤ x.stop
  · have hsource : m.source ≤ s.block.bodyEnd pos :=
      Nat.le_trans (h.source_le_of_le hpos)
        (Nat.le_trans (Nat.le_add_right _ _) (Nat.le_add_right _ _))
    simp only [if_pos hheader, h.bodyEnd_eq hpos hheader,
      Relocation.position_le_iff hsource h.source_le_stop]
    by_cases hbody : s.block.bodyEnd pos ≤ x.stop
    · have hnext : min (t.block.paddedEnd (m.position pos)) (m.position x.stop) =
          m.position (min (s.block.paddedEnd pos) x.stop) := by
        rw [h.paddedEnd_eq hpos hheader]
        unfold Relocation.position
        omega
      rw [if_pos hbody, if_pos hbody, hnext, h.viewAt_eq hpos hheader hbody]
      rfl
    · rw [if_neg hbody, if_neg hbody]
      rfl
  · rw [if_neg hheader, if_neg hheader]
    rfl

section Records

variable {α : Type} (h : Carried m s t x y) (lead : Nat) (layout : Layout α)
include h

theorem first_eq :
    (t.regionOf y lead layout).first = m.position (s.regionOf x lead layout).first := by
  simp only [Source.regionOf, h.bodyOffset_eq]
  exact (Relocation.position_add (h.source_le_of_le (Nat.le_refl _)) lead).symm

theorem stop_le_iff (hpos : x.bodyOffset ≤ pos) :
    (t.regionOf y lead layout).stop ≤ m.position pos ↔ (s.regionOf x lead layout).stop ≤ pos := by
  have hstop := h.stop_eq
  unfold AtomView.stop at hstop
  simp only [Source.regionOf, hstop]
  exact Relocation.position_le_iff h.source_le_stop (h.source_le_of_le hpos)

variable {move : α → α}
  (hmake : ∀ bytes view, move (layout.make bytes view) = layout.make bytes (m.view view))
include hmake

theorem itemAt_eq (hpos : x.bodyOffset ≤ pos) :
    (t.regionOf y lead layout).itemAt (m.position pos) =
      ((s.regionOf x lead layout).itemAt pos).map
        fun found => (move found.1, m.position found.2) := by
  have hsource := h.source_le_of_le hpos
  have hlead : m.position (pos + layout.lead) ≤ m.position x.stop ↔ pos + layout.lead ≤ x.stop :=
    Relocation.position_le_iff (Nat.le_add_right_of_le hsource) h.source_le_stop
  have hchild := h.childAt_eq (Nat.le_trans hpos (Nat.le_add_right pos layout.lead)) layout.overrun
  simp only [Source.itemAt_regionOf, h.stop_eq, ← Relocation.position_add hsource, hlead, hchild]
  by_cases hle : pos + layout.lead ≤ x.stop
  · rw [if_pos hle, if_pos hle, h.slice_eq pos layout.lead hpos hle]
    cases s.block.childAt (pos + layout.lead) x.stop layout.overrun with
    | error e => rfl
    | ok view => simp only [map_ok, hmake]; rfl
  · rw [if_neg hle, if_neg hle]
    rfl

theorem itemsFrom_eq (hpos : x.bodyOffset ≤ pos) :
    (t.regionOf y lead layout).itemsFrom (m.position pos) =
      ((s.regionOf x lead layout).itemsFrom pos).map (Except.map move) := by
  induction pos using (s.regionOf x lead layout).itemsFrom_induction with
  | behind pos hbehind =>
    rw [Region.itemsFrom_of_le hbehind,
      Region.itemsFrom_of_le ((h.stop_le_iff lead layout hpos).mpr hbehind)]
    rfl
  | error pos e hlt hitem =>
    have hmoved := h.itemAt_eq lead layout hmake hpos
    have hlt' := mt (h.stop_le_iff lead layout hpos).mp (Nat.not_le.mpr hlt)
    rw [hitem] at hmoved
    rw [Region.itemsFrom_of_error hlt hitem, Region.itemsFrom_of_error (Nat.not_le.mp hlt') hmoved]
    rfl
  | record pos value hlt hchild ih =>
    have hitem := Region.itemAt_eq_ok_iff.mpr ⟨value, hchild, rfl, rfl⟩
    have hnext := Region.lt_next_of_itemAt hitem
    have hmoved := h.itemAt_eq lead layout hmake hpos
    have hlt' := mt (h.stop_le_iff lead layout hpos).mp (Nat.not_le.mpr hlt)
    rw [hitem] at hmoved
    rw [Region.itemsFrom_of_ok hlt hitem, Region.itemsFrom_of_ok (Nat.not_le.mp hlt') hmoved,
      ih (Nat.le_trans hpos (Nat.le_of_lt hnext))]
    rfl

theorem items_eq :
    (t.regionOf y lead layout).items =
      (s.regionOf x lead layout).items.map (Except.map move) := by
  rw [Region.items, h.first_eq]
  exact h.itemsFrom_eq lead layout hmake (Nat.le_add_right _ _)

theorem values_eq :
    (t.regionOf y lead layout).values = (s.regionOf x lead layout).values.map move := by
  rw [Region.values, h.items_eq lead layout hmake, Region.values]
  induction (s.regionOf x lead layout).items with
  | nil => rfl
  | cons item rest ih =>
    cases item with
    | error e => exact ih
    | ok value => exact congrArg (move value :: ·) ih

theorem answers_eq :
    (t.regionOf y lead layout).answers = (s.regionOf x lead layout).answers.map move := by
  have hcount : (t.regionOf y lead layout).count = (s.regionOf x lead layout).count := by
    rw [Region.count, h.values_eq lead layout hmake, List.length_map]
    rfl
  have hempty : (t.regionOf y lead layout).isEmpty = (s.regionOf x lead layout).isEmpty := by
    rw [Region.isEmpty, Region.isEmpty, decide_eq_decide, h.first_eq]
    exact h.stop_le_iff lead layout (Nat.le_add_right _ _)
  rw [Region.answers, h.items_eq lead layout hmake, hcount, hempty]
  rfl

end Records

theorem openAs_eq (h : Carried m s t x y) (term : Term) (lead : Nat) :
    t.openAs term lead y = s.openAs term lead x := by
  rw [Source.openAs, Source.openAs, h.body_left, h.body_right, h.vocabulary_eq, h.type_eq]

theorem find_eq (h : Carried m s t x y) (id otype : TypeId) :
    ObjectView.find ⟨id, otype, t.regionOf y 8 Layout.properties⟩ = fun key =>
      (ObjectView.find ⟨id, otype, s.regionOf x 8 Layout.properties⟩ key).map m.view := by
  have hvalues := @values_eq m s t x y _ h 8 Layout.properties m.property fun _ _ => rfl
  funext key
  simp only [ObjectView.find, hvalues, List.filter_map, List.getLast?_map, Option.map_map]
  rfl

theorem firstDecrease_eq (h : Carried m s t x y) (unit : TimeUnit) :
    SequenceView.firstDecrease ⟨unit, t.regionOf y 8 (Layout.events unit)⟩ =
      SequenceView.firstDecrease ⟨unit, s.regionOf x 8 (Layout.events unit)⟩ := by
  have hvalues := @values_eq m s t x y _ h 8 (Layout.events unit) m.event fun _ _ => rfl
  simp only [SequenceView.firstDecrease, hvalues, List.map_map]
  rfl

/-- Whatever is asked of a view is answered at its new place as at the old one. -/
theorem answersMoved (h : Carried m s t x y) : AnswersMoved m s t x y := by
  have hscalar : t.scalar y = s.scalar x := by
    rw [Source.scalar, Source.scalar, h.body_left, h.body_right, h.vocabulary_eq, h.type_eq]
  constructor
  case scalar => exact hscalar
  case scalarOf =>
    intro kind
    rw [Source.scalarOf, Source.scalarOf, hscalar]
  case text =>
    intro form
    rw [Source.text, Source.text, h.body_left, h.body_right, Source.expect, Source.expect,
      h.vocabulary_eq, h.type_eq]
  case literal =>
    rw [Source.literal, Source.literal, h.body_left, h.body_right, Source.expect, Source.expect,
      h.vocabulary_eq, h.type_eq]
  case chunk =>
    rw [Source.chunk, Source.chunk, h.body_left, h.body_right, Source.expect, Source.expect,
      h.vocabulary_eq, h.type_eq]
  case vector =>
    rw [Source.vector, Source.vector, h.openAs_eq]
    simp only [map_bind_except]
    rfl
  case tuple =>
    have hanswers := @answers_eq m s t x y _ h 0 (Layout.atoms .malformedContainer) m.view
      fun _ _ => rfl
    rw [Source.tuple, Source.tuple, h.openAs_eq]
    simp only [map_bind_except, pure_eq_ok, map_ok, hanswers]
  case object =>
    have hanswers := @answers_eq m s t x y _ h 8 Layout.properties m.property fun _ _ => rfl
    rw [Source.object, Source.object, h.body_left, h.body_right, h.vocabulary_eq, h.type_eq]
    simp only [map_bind_except, pure_eq_ok, map_ok, ObjectView.answers, hanswers, h.find_eq]
  case sequence =>
    have hanswers := fun unit =>
      @answers_eq m s t x y _ h 8 (Layout.events unit) m.event fun _ _ => rfl
    rw [Source.sequence, Source.sequence, h.openAs_eq]
    simp only [map_bind_except, pure_eq_ok, map_ok, SequenceView.answers,
      SequenceView.isMonotonic, Source.unitOf_congr h.vocabulary_eq, hanswers, h.firstDecrease_eq]

theorem inner {way : Opening} {child : AtomView} (h : Carried m s t x y)
    (hchild : child ∈ s.inner way x) : Carried m s t child (m.view child) := by
  have hlies := (s.inner_spread way x).1 child hchild
  have hsource := h.source_le_of_le hlies.first_le
  refine ⟨h.memory_eq, h.vocabulary_eq, hsource, ?_, rfl, ?_, ?_⟩
  · exact ⟨Nat.le_refl _, Nat.le_trans hlies.stop_le h.left.stop_le, hlies.body_eq⟩
  · refine Nat.le_trans ?_ h.right_le
    exact Nat.add_le_add_right (Nat.sub_le_sub_right hlies.stop_le _) _
  · intro pos count hpos hcount
    apply h.slice_eq pos count
    · exact Nat.le_trans hlies.first_le (Nat.le_trans (Nat.le_add_right _ _) hpos)
    · exact Nat.le_trans hcount hlies.stop_le

theorem below {root : AtomView} (h : Carried m s t root y) (hx : s.Below root x) :
    Carried m s t x (m.view x) := by
  induction hx with
  | self => exact { h with right := rfl }
  | inner way _ hchild ih => exact ih.inner hchild

end Carried

section Found

variable {α β γ : Type}

theorem map_map_except (x : Except WireError α) (f : α → β) (g : β → γ) :
    (x.map f).map g = x.map fun a => g (f a) := by
  cases x <;> rfl

theorem getD_toOption_map {x : Except WireError α} {y : Except WireError β} {f : α → List γ}
    {g : β → List γ} {move : γ → γ} (h : y.map g = x.map fun a => (f a).map move) :
    (y.toOption.map g).getD [] = ((x.toOption.map f).getD []).map move := by
  cases x with
  | error e =>
    cases y with
    | error e' => rfl
    | ok b => cases h
  | ok a =>
    cases y with
    | error e => cases h
    | ok b => exact Except.ok.inj h

end Found

theorem AnswersMoved.innerItems_eq {m : Relocation} {s t : Source} {x y : AtomView}
    (h : AnswersMoved m s t x y) (way : Opening) :
    t.innerItems way y = (s.innerItems way x).map (Except.map m.view) := by
  cases way with
  | tuple =>
    apply getD_toOption_map
    have hitems := congrArg (Except.map RegionAnswers.items) h.tuple
    rwa [map_map_except, map_map_except] at hitems
  | object =>
    apply getD_toOption_map
    have hitems := congrArg (Except.map fun a : ObjectAnswers =>
      a.properties.items.map (Except.map Property.value)) h.object
    rw [map_map_except, map_map_except] at hitems
    refine hitems.trans ?_
    congr 1
    funext o
    simp only [RegionAnswers.map, Region.answers, List.map_map]
    apply List.map_congr_left
    intro item _
    cases item <;> rfl
  | sequence =>
    apply getD_toOption_map
    have hitems := congrArg (Except.map fun a : SequenceAnswers =>
      a.events.items.map (Except.map Event.value)) h.sequence
    rw [map_map_except, map_map_except] at hitems
    refine hitems.trans ?_
    congr 1
    funext q
    simp only [RegionAnswers.map, Region.answers, List.map_map]
    apply List.map_congr_left
    intro item _
    cases item <;> rfl

/-- What is found in the copy is what was found in the original, at its new place. -/
theorem Carried.below_copy {m : Relocation} {s t : Source} {root copy y : AtomView}
    (h : Carried m s t root copy) (hy : t.Below copy y) :
    ∃ x, s.Below root x ∧ Carried m s t x y ∧ (y = copy ∧ x = root ∨ y = m.view x) := by
  induction hy with
  | self => exact ⟨root, .self, h, Or.inl ⟨rfl, rfl⟩⟩
  | @inner y child way _ hchild ih =>
    obtain ⟨x, hx, hcarried, _⟩ := ih
    have hmem := Source.mem_inner_iff.mp hchild
    rw [hcarried.answersMoved.innerItems_eq, List.mem_map] at hmem
    obtain ⟨item, hitem, hmoved⟩ := hmem
    cases item with
    | error e => cases hmoved
    | ok found =>
      cases hmoved
      have hinner := Source.mem_inner_iff.mpr hitem
      exact ⟨found, .inner way hx hinner, hcarried.inner hinner, Or.inr rfl⟩

namespace Writer

variable {w ready : Writer} {type : TypeId} {body : Bytes}

theorem EndsAs.ok {reply : Reply} {w' : Writer} {result : EStateM.Result WireError Writer Reply}
    (h : w.EndsAs (.ok (reply, w')) result) : result = .ok reply w' := by
  cases result with
  | ok found next =>
    cases h
    rfl
  | error e next => cases h.1

/-- A writer that lets a value start and has the room writes any atom. -/
theorem execute_atom (hspace : w.exhausted = false) (hready : w.beginValue = .ok ready)
    (htype : type ≠ 0) (hbody : body.length ≤ maxBody)
    (hroom : w.demand (.leaf type body) ≤ w.spare.length) :
    ∃ pad, pad.length = padding body.length ∧
      (w.execute (.atom type body)).1 = .ok .done ∧
      (w.execute (.atom type body)).2.written =
        w.written ++ Record.bytes ⟨[], type, body, pad⟩ := by
  have hbegin := beginFrames_of_beginValue hready
  have hmove : Op.typedMove type body = .ok (.leaf type body) :=
    Op.typedMove_eq_ok_iff.mpr ⟨htype, rfl⟩
  have hcarry : w.carryOut (.leaf type body) = .ok _ :=
    carryOut_eq_ok_iff.mpr ⟨ready.frames, hbegin, hbody, hroom, rfl⟩
  have hends := Command.endsAs_putTyped hspace type body
  rw [hmove, ok_bind, hcarry] at hends
  obtain ⟨pad, hpad, hperform⟩ := perform_leaf ready.frames hroom
  have hexecute : w.execute (.atom type body) =
      (.ok .done, w.perform ready.frames (.leaf type body)) := by
    rw [execute, Op.command, hends.ok]
    rfl
  refine ⟨pad, hpad.1, by rw [hexecute], ?_⟩
  rw [hexecute, hperform, finishAtom_eq]
  rfl

end Writer

theorem Block.Shows.slice_skip {b : Block} {pos skip count : Nat} {x : Bytes} (h : b.Shows pos x)
    (hle : skip + count ≤ x.length) : slice b.bytes (pos + skip) count = slice x skip count := by
  have hslice := slice_slice b.bytes pos hle
  rw [h.slice_eq] at hslice
  exact hslice.symm

/-- An atom written by the type and the body of a view carries the body of the view. -/
theorem carried_record {s t : Source} {x : AtomView} {pos : Nat} {pad : Bytes}
    (hx : x.LiesIn s.block x.offset s.size) (hv : t.vocabulary = s.vocabulary)
    (hshow : t.block.Shows pos (Record.bytes ⟨[], x.type, x.body.bytes, pad⟩)) :
    Carried ⟨x.offset, pos, t.block.memory⟩ s t x
      (Record.view t.block.memory pos ⟨[], x.type, x.body.bytes, pad⟩) := by
  have hbytes : x.body.bytes = slice s.block.bytes x.bodyOffset x.bodySize.toNat := by
    rw [hx.body_eq]
    rfl
  have hlen : x.body.bytes.length = x.bodySize.toNat := by
    rw [hbytes]
    exact length_slice hx.stop_le
  have hstart : x.body.start = x.bodyOffset := by
    rw [hx.body_eq]
    rfl
  have hbody := hshow.right.right.left
  rw [length_headerBytes] at hbody
  refine ⟨rfl, hv, Nat.le_refl _, hx, ?_, ?_, ?_⟩
  · simp only [Record.view, Relocation.view, Relocation.position, hlen, hstart, UInt32.ofNat_toNat,
      AtomView.bodyOffset, List.length_nil, AtomView.mk.injEq, Span.mk.injEq, true_and, and_true]
    omega
  · have hstop := hshow.stop_le (Record.bytes_ne_nil _)
    simp only [Record.bytes, List.length_append, length_headerBytes, hlen] at hstop
    simp only [Relocation.position, AtomView.stop, AtomView.bodyOffset, headerSize]
    exact Nat.le_trans (by omega) hstop
  · intro start count hstart hstop
    obtain ⟨skip, rfl⟩ := Nat.exists_eq_add_of_le hstart
    have hle : skip + count ≤ x.bodySize.toNat := by
      unfold AtomView.stop at hstop
      omega
    have hplace : Relocation.position ⟨x.offset, pos, t.block.memory⟩ (x.bodyOffset + skip) =
        pos + 0 + 8 + skip := by
      simp only [Relocation.position, AtomView.bodyOffset, headerSize]
      omega
    rw [hplace]
    refine (hbody.slice_skip (hlen ▸ hle)).trans ?_
    rw [hbytes]
    exact slice_slice _ _ hle

/-- A view that was come by in any buffer is written again, wherever a value may be written
and there is room for it, and the atom then read there answers as the view did. So does
all that is found in it at any depth, and nothing else is found. -/
theorem forward_atom (s : Source) (offset : Nat) (root : AtomView)
    (hreached : s.Reached offset root) (htype : root.type ≠ 0) (w ready : Writer)
    (hvocabulary : w.vocabulary = s.vocabulary) (hspace : w.exhausted = false)
    (hready : w.beginValue = .ok ready)
    (hroom : headerSize + root.bodySize.toNat + padding root.bodySize.toNat ≤ w.spare.length)
    (memory : Option Nat) :
    let call := w.execute (.atom root.type root.body.bytes)
    let t : Source := ⟨w.vocabulary, ⟨memory, call.2.written⟩⟩
    let m : Relocation := ⟨root.offset, w.size, memory⟩
    call.1 = .ok .done ∧ ∃ copy, t.atomAt w.size = .ok copy ∧ copy.type = root.type ∧
      copy.bodySize = root.bodySize ∧ copy.body.bytes = root.body.bytes ∧
      AnswersMoved m s t root copy ∧
      (∀ x, s.Below root x → root.offset ≤ x.offset ∧ AnswersMoved m s t x (m.view x)) ∧
      ∀ y, t.Below copy y → y = copy ∨ ∃ x, s.Below root x ∧ y = m.view x := by
  intro call t m
  have hlies := hreached.liesIn
  have hroot : root.LiesIn s.block root.offset s.size :=
    ⟨Nat.le_refl _, hlies.stop_le, hlies.body_eq⟩
  have hlen : root.body.bytes.length = root.bodySize.toNat := by
    rw [hroot.body_eq]
    exact length_slice hroot.stop_le
  have hbody : root.body.bytes.length ≤ maxBody := by
    rw [hlen]
    exact Nat.le_of_lt_succ root.bodySize.toNat_lt
  rw [← hlen] at hroom
  obtain ⟨pad, hpad, hdone, hwritten⟩ := Writer.execute_atom hspace hready htype hbody hroom
  have hshow : t.block.Shows w.size
      (Record.bytes ⟨[], root.type, root.body.bytes, pad⟩) := by
    have hdrop := (congrArg (List.drop w.size) hwritten).trans (List.drop_left' rfl)
    exact hdrop ▸ List.prefix_refl _
  have hcarried := carried_record hroot hvocabulary hshow
  refine ⟨hdone, _, Source.atomAt_record hshow ⟨rfl, hbody, hpad⟩, rfl, hcarried.bodySize_eq, rfl,
    hcarried.answersMoved, ?_, ?_⟩
  · intro x hx
    have hx := hcarried.below hx
    exact ⟨hx.source_le, hx.answersMoved⟩
  · intro y hy
    obtain ⟨x, hx, _, hplace⟩ := hcarried.below_copy hy
    rcases hplace with ⟨hcopy, _⟩ | hmoved
    · exact Or.inl hcopy
    · exact Or.inr ⟨x, hx, hmoved⟩

/-- A tuple with an item that runs out of it, from an odd offset into an open object. -/
theorem forward_atom_malformed :
    let v : Vocabulary := ⟨fun term => if term = .tuple then 1 else if term = .object then 2 else 0⟩
    let s : Source := ⟨v, ⟨some 0, [9, 9, 9] ++ word32 1 ++ word32 24 ++ word32 7 ++ word32 3 ++
      [1, 2, 3, 0, 0, 0, 0, 0] ++ word32 7 ++ word32 99⟩⟩
    let w := ((Writer.create v false (List.replicate 64 5)).executeAll
      [.pushObject 0 0, .property 4 0]).2
    let root := s.block.viewAt 3 35
    let t : Source := ⟨v, ⟨some 1, (w.execute (.atom root.type root.body.bytes)).2.written⟩⟩
    s.Reached 3 root ∧ root.type ≠ 0 ∧ w.exhausted = false ∧
      s.innerItems .tuple root = [.ok (s.block.viewAt 11 27), .error .malformedContainer] ∧
      ∃ copy, t.atomAt 24 = .ok copy ∧ AnswersMoved ⟨3, 24, some 1⟩ s t root copy := by
  intro v s w root t
  have hatom : s.atomAt 3 = .ok root := by cbv
  have htype : root.type ≠ 0 := by decide +kernel
  have hspace : w.exhausted = false := by decide +kernel
  have hitems : s.innerItems .tuple root =
      [.ok (s.block.viewAt 11 27), .error .malformedContainer] := by decide +kernel
  have hframes : w.frames = [⟨.object true, 0⟩] := by decide +kernel
  have hready : w.beginValue = .ok { w with frames := [⟨.object false, 0⟩] } := by
    rw [Writer.beginValue, hframes]
    rfl
  have hsize : w.size = 24 := by decide +kernel
  obtain ⟨_, copy, hcopy, _, _, _, hanswers, _⟩ :=
    forward_atom s 3 root (.atom hatom) htype w _ rfl hspace hready (by decide +kernel) (some 1)
  rw [hsize] at hcopy hanswers
  exact ⟨.atom hatom, htype, hspace, hitems, copy, hcopy, hanswers⟩

end AtomWire

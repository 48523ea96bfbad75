import AtomWire.Proofs.Steps

/-!
# What a run leaves behind

The journal of a run is kept from the calls and their answers alone: how many atoms were
finished outside of any container, and for every container where its header went and how
many items it was given. Whatever calls are made and in whatever order, once all
containers are closed the bytes read back as the journal says.

The proof follows the buffer while containers are open. `Draft` cuts it into finished
records and the beginnings of the open containers, whose sizes are still zero.
-/

namespace AtomWire

set_option autoImplicit false

inductive ContainerKind where
  | vector | tuple | object | sequence

/-- What a call is for. A key or a stamp is no item before its value is there. -/
inductive Role where
  | item | label | opening (kind : ContainerKind) | closing | gap | fresh

def Op.role : Op → Role
  | scalar _ _ | value _ | text _ _ | literal _ _ _ | chunk _ | atom _ _ | element _ => .item
  | property _ _ | stamp _ => .label
  | pushVector _ _ => .opening .vector
  | pushTuple => .opening .tuple
  | pushObject _ _ => .opening .object
  | pushSequence _ => .opening .sequence
  | pop | popHandle _ => .closing
  | reserve _ => .gap
  | reset _ => .fresh

theorem Op.eq_reserve_of_role {op : Op} (h : op.role = .gap) : ∃ count, op = .reserve count := by
  cases op with
  | reserve count => exact ⟨count, rfl⟩
  | _ => cases h

theorem Op.role_ne_gap {ops : List Op} (h : ∀ count, Op.reserve count ∉ ops) :
    ∀ op ∈ ops, op.role ≠ .gap := by
  intro op hop hgap
  obtain ⟨count, rfl⟩ := Op.eq_reserve_of_role hgap
  exact h count hop

structure Container where
  kind : ContainerKind
  header : Nat
  /-- The elements, values, properties or events in it. -/
  count : Nat

structure Journal where
  finished : Nat
  /-- The open containers, the innermost one first. -/
  opened : List Container
  closed : List Container

namespace Journal

def empty : Journal := ⟨0, [], []⟩

/-- One more item in the innermost open container, or outside of all. -/
def count (j : Journal) : Journal :=
  match j.opened with
  | [] => { j with finished := j.finished + 1 }
  | c :: outer => { j with opened := { c with count := c.count + 1 } :: outer }

theorem finished_count (j : Journal) :
    j.count.finished = if j.opened.isEmpty then j.finished + 1 else j.finished := by
  unfold count
  split <;> simp_all

def enter (j : Journal) (kind : ContainerKind) (header : Nat) : Journal :=
  { j with opened := ⟨kind, header, 0⟩ :: j.opened }

/-- The innermost container is closed and is an item of the one around it. -/
def leave (j : Journal) : Journal :=
  match j.opened with
  | [] => j
  | c :: outer => { j with opened := outer, closed := c :: j.closed }.count

/-- The journal after a call, which a failure leaves as it is. -/
def note (j : Journal) (op : Op) : Except WireError Reply → Journal
  | .error _ => j
  | .ok reply =>
    match op.role, reply with
    | .item, _ => j.count
    | .opening kind, .handle handle => j.enter kind handle.offset
    | .closing, _ => j.leave
    | .fresh, _ => empty
    | _, _ => j

def noteAll : Journal → List Op → List (Except WireError Reply) → Journal
  | j, op :: ops, answer :: answers => (j.note op answer).noteAll ops answers
  | j, _, _ => j

end Journal

/-- All items are there, `count` of them, and none is an error. -/
def Clean {α : Type} (items : List (Except WireError α)) (count : Nat) : Prop :=
  ∃ values : List α, items = values.map .ok ∧ values.length = count

/-- The container is read at its header, as what it was opened as, and has its items. -/
def Container.ReadBack (s : Source) (c : Container) : Prop :=
  match c.kind with
  | .vector => ∃ view, s.atomAt c.header >>= s.vector = .ok view ∧ view.items.length = c.count
  | .tuple => ∃ region, s.atomAt c.header >>= s.tuple = .ok region ∧ Clean region.items c.count
  | .object => ∃ view, s.atomAt c.header >>= s.object = .ok view ∧
    Clean view.properties.items c.count
  | .sequence => ∃ view, s.atomAt c.header >>= s.sequence = .ok view ∧
    Clean view.events.items c.count

/-- Every view starts where the one before it ends. -/
def Consecutive : Nat → List AtomView → Nat → Prop
  | start, [], stop => start = stop
  | start, view :: rest, stop => view.offset = start ∧ Consecutive view.next rest stop

def ContainerKind.term : ContainerKind → Term
  | vector => .vector
  | tuple => .tuple
  | object => .object
  | sequence => .sequence

def FrameKind.container : FrameKind → ContainerKind
  | vector _ => .vector
  | tuple => .tuple
  | object _ => .object
  | sequence _ _ => .sequence

/-- The records of an object or a sequence behind the words that lead its body, and a key
or a stamp if one waits for its value. -/
def Series (awaiting : Bool) (count : Nat) (bytes : Bytes) : Prop :=
  ∃ lead inner label, lead.length = 8 ∧ inner.length = count ∧
    (∀ r ∈ inner, Record.Fits 8 r) ∧ label.length = (if awaiting then 8 else 0) ∧
    bytes = lead ++ (Record.flat inner ++ label)

/-- What stands behind the header of an open container with `count` finished items. -/
def Content : FrameKind → Nat → Bytes → Prop
  | .vector none, count, bytes => count = 0 ∧ bytes = word32 0 ++ word32 0
  | .vector (some (type, width)), count, bytes => (type ≠ 0 ∧ width ≠ 0) ∧ ∃ elements : Bytes,
    bytes = word32 type ++ (word32 width ++ elements) ∧ elements.length = count * width.toNat
  | .tuple, count, bytes => ∃ inner, inner.length = count ∧
    (∀ r ∈ inner, Record.Fits 0 r) ∧ bytes = Record.flat inner
  | .object awaiting, count, bytes | .sequence _ awaiting, count, bytes =>
    Series awaiting count bytes

/-- The closed container stands in the bytes, which start at `base`. -/
def Housed (v : Vocabulary) (base : Nat) (bytes : Bytes) (c : Container) : Prop :=
  ∃ (before after : Bytes) (r : Record) (kind : FrameKind),
    bytes = before ++ (r.bytes ++ after) ∧ c.header = base + before.length ∧ r.Fits 0 ∧
    r.type ≠ 0 ∧ r.type = v.id c.kind.term ∧ kind.container = c.kind ∧
    kind.awaiting = false ∧ Content kind c.count r.body

/-- The written bytes with the given containers open, as the journal accounts for them. -/
inductive Draft (v : Vocabulary) : List Frame → Journal → Bytes → Prop where
  | base {records : List Record} {closed : List Container}
      (hfit : ∀ r ∈ records, r.Fits 0 ∧ r.type ≠ 0)
      (hclosed : ∀ c ∈ closed, Housed v 0 (Record.flat records) c) :
      Draft v [] ⟨records.length, [], closed⟩ (Record.flat records)
  | nested {outer begun : List Frame} {j : Journal} {before content : Bytes} {kind : FrameKind}
      {type : TypeId} {count : Nat} {closed : List Container}
      (houter : Draft v outer j before) (hbegin : beginFrames outer = .ok begun)
      (htype : type = v.id kind.container.term) (hne : type ≠ 0)
      (hcontent : Content kind count content)
      (hclosed : ∀ c ∈ closed, c ∈ j.closed ∨
        (kind.container ≠ .vector ∧ Housed v (before.length + 8) content c)) :
      Draft v (⟨kind, before.length⟩ :: begun)
        ⟨j.finished, ⟨kind.container, before.length, count⟩ :: j.opened, closed⟩
        (before ++ (headerBytes type 0 ++ content))

section Content

variable {kind kind' : FrameKind} {count : Nat} {bytes : Bytes} {r : Record}

theorem Record.lead_eq_nil (h : r.Fits 0) : r.lead = [] := List.length_eq_zero_iff.mp h.length_lead

theorem forall_mem_snoc {lead : Nat} {inner : List Record} (h : ∀ x ∈ inner, Record.Fits lead x)
    (hr : r.Fits lead) : ∀ x ∈ inner ++ [r], Record.Fits lead x := by
  intro x hx
  rcases List.mem_append.mp hx with hx | hx
  · exact h x hx
  · rw [List.mem_singleton.mp hx]
    exact hr

/-- A key or a stamp becomes the lead of the value that follows it. -/
theorem Series.value (h : Series true count bytes) (hr : r.Fits 0) :
    Series false (count + 1) (bytes ++ r.bytes) := by
  obtain ⟨lead, inner, label, hlead, hcount, hfit, hlabel, rfl⟩ := h
  have hled : Record.Fits 8 ⟨label, r.type, r.body, r.pad⟩ := ⟨hlabel, hr.body_le, hr.length_pad⟩
  refine ⟨lead, inner ++ [⟨label, r.type, r.body, r.pad⟩], [], hlead, by simp [hcount],
    forall_mem_snoc hfit hled, rfl, ?_⟩
  simp [Record.bytes, Record.lead_eq_nil hr]

theorem Series.label {label : Bytes} (h : Series false count bytes) (hlabel : label.length = 8) :
    Series true count (bytes ++ label) := by
  obtain ⟨lead, inner, none, hlead, hcount, hfit, hnone, rfl⟩ := h
  obtain rfl := List.length_eq_zero_iff.mp hnone
  exact ⟨lead, inner, label, hlead, hcount, hfit, hlabel, by simp⟩

theorem Content.value (hbegin : kind.beginValue = .ok kind') (h : Content kind count bytes)
    (hr : r.Fits 0) : Content kind' (count + 1) (bytes ++ r.bytes) := by
  cases kind with
  | vector lock => cases hbegin
  | tuple =>
    cases hbegin
    obtain ⟨inner, hcount, hfit, rfl⟩ := h
    exact ⟨inner ++ [r], by simp [hcount], forall_mem_snoc hfit hr, by simp⟩
  | object awaiting =>
    cases awaiting <;> cases hbegin
    exact Series.value h hr
  | sequence unit awaiting =>
    cases awaiting <;> cases hbegin
    exact Series.value h hr

theorem container_of_beginValue (hbegin : kind.beginValue = .ok kind') :
    kind'.container = kind.container ∧ kind.container ≠ .vector := by
  cases kind with
  | vector lock => cases hbegin
  | tuple =>
    cases hbegin
    exact ⟨rfl, by simp [FrameKind.container]⟩
  | object awaiting | sequence unit awaiting =>
    cases awaiting <;> cases hbegin
    exact ⟨rfl, by simp [FrameKind.container]⟩

end Content

section Housed

variable {v : Vocabulary} {base : Nat} {bytes : Bytes} {c : Container}

theorem Housed.append (h : Housed v base bytes c) (more : Bytes) :
    Housed v base (bytes ++ more) c := by
  obtain ⟨before, after, r, kind, rfl, hrest⟩ := h
  exact ⟨before, after ++ more, r, kind, by simp, hrest⟩

theorem Housed.prepend {front : Bytes} (h : Housed v (base + front.length) bytes c) :
    Housed v base (front ++ bytes) c := by
  obtain ⟨before, after, r, kind, rfl, hheader, hrest⟩ := h
  refine ⟨front ++ before, after, r, kind, by simp, ?_, hrest⟩
  rw [hheader, List.length_append]
  omega

end Housed

namespace Draft

variable {v : Vocabulary} {frames begun : List Frame} {j : Journal} {bytes : Bytes}

theorem isEmpty_opened (h : Draft v frames j bytes) : j.opened.isEmpty = frames.isEmpty := by
  cases h <;> rfl

/-- A finished value takes its place among the records, with the containers closed in it. -/
theorem value {r : Record} {closed : List Container} (h : Draft v frames j bytes)
    (hbegin : beginFrames frames = .ok begun) (hr : r.Fits 0) (hne : r.type ≠ 0)
    (hclosed : ∀ c ∈ closed, c ∈ j.closed ∨ Housed v bytes.length r.bytes c) :
    Draft v begun { j with closed }.count (bytes ++ r.bytes) := by
  cases h with
  | @base records old hfit hold =>
    cases hbegin
    have hflat : Record.flat records ++ r.bytes = Record.flat (records ++ [r]) := by simp
    have hcount : (Journal.mk records.length [] closed).count =
        ⟨(records ++ [r]).length, [], closed⟩ := by simp [Journal.count]
    rw [hflat, hcount]
    apply Draft.base
    · intro x hx
      rcases List.mem_append.mp hx with hx | hx
      · exact hfit x hx
      · rw [List.mem_singleton.mp hx]
        exact ⟨hr, hne⟩
    · intro c hc
      rw [← hflat]
      rcases hclosed c hc with hin | hnew
      · exact (hold c hin).append r.bytes
      · apply Housed.prepend
        simpa using hnew
  | @nested outer begun₀ j₀ before content kind type count old houter hbegin₀ htype hne₀
      hcontent hold =>
    obtain ⟨kind', hkind, hbegun⟩ := bind_eq_ok_iff.mp hbegin
    cases hbegun
    obtain ⟨hcontainer, hvector⟩ := container_of_beginValue hkind
    have hassoc : before ++ (headerBytes type 0 ++ content) ++ r.bytes =
        before ++ (headerBytes type 0 ++ (content ++ r.bytes)) := by simp
    rw [hassoc]
    simp only [Journal.count, ← hcontainer] at *
    refine Draft.nested houter hbegin₀ htype hne₀ (hcontent.value hkind hr) ?_
    intro c hc
    rcases hclosed c hc with hin | hnew
    · rcases hold c hin with hout | ⟨_, hhoused⟩
      · exact Or.inl hout
      · exact Or.inr ⟨hvector, hhoused.append r.bytes⟩
    · refine Or.inr ⟨hvector, Housed.prepend ?_⟩
      simpa [Nat.add_assoc] using hnew

theorem enter {kind : FrameKind} {type : TypeId} {lead : Bytes} (h : Draft v frames j bytes)
    (hbegin : beginFrames frames = .ok begun) (htype : type = v.id kind.container.term)
    (hne : type ≠ 0) (hlead : Content kind 0 lead) :
    Draft v (⟨kind, bytes.length⟩ :: begun) (j.enter kind.container bytes.length)
      (bytes ++ (headerBytes type 0 ++ lead)) :=
  Draft.nested h hbegin htype hne hlead (fun _ hc => Or.inl hc)

/-- The innermost container may go on by itself, as long as it stays of its kind. -/
theorem grow {kind kind' : FrameKind} {header : Nat} (more : Bytes) (extra : Nat)
    (h : Draft v (⟨kind, header⟩ :: frames) j bytes)
    (hkind : kind'.container = kind.container)
    (hcontent : ∀ count content, Content kind count content →
      Content kind' (count + extra) (content ++ more)) :
    ∃ c outer, j.opened = c :: outer ∧
      Draft v (⟨kind', header⟩ :: frames)
        { j with opened := { c with count := c.count + extra } :: outer } (bytes ++ more) := by
  cases h with
  | @nested outer begun₀ j₀ before content _ type count old houter hbegin₀ htype hne hold hclosed =>
    have hassoc : before ++ (headerBytes type 0 ++ content) ++ more =
        before ++ (headerBytes type 0 ++ (content ++ more)) := by simp
    refine ⟨_, _, rfl, ?_⟩
    rw [hassoc]
    simp only [← hkind] at *
    refine Draft.nested houter hbegin₀ htype hne (hcontent count content hold) ?_
    intro c hc
    rcases hclosed c hc with hout | ⟨hvector, hhoused⟩
    · exact Or.inl hout
    · exact Or.inr ⟨hvector, hhoused.append more⟩

theorem lock {header : Nat} (h : Draft v (⟨.vector none, header⟩ :: frames) j bytes) :
    ∃ (before : Bytes) (type : TypeId), header = before.length ∧
      bytes = before ++ (headerBytes type 0 ++ (word32 0 ++ word32 0)) ∧
      ∀ (childType : TypeId) (width : UInt32) (element : Bytes), childType ≠ 0 → width ≠ 0 →
        element.length = width.toNat →
        Draft v (⟨.vector (some (childType, width)), header⟩ :: frames) j.count
          (before ++ (headerBytes type 0 ++ (word32 childType ++ (word32 width ++ element)))) := by
  cases h with
  | @nested outer begun₀ j₀ before content _ type count old houter hbegin₀ htype hne
      hcontent hclosed =>
    obtain ⟨rfl, rfl⟩ := hcontent
    refine ⟨before, type, rfl, rfl, ?_⟩
    intro childType width element hchild hwidth helement
    refine Draft.nested houter hbegin₀ htype hne
      ⟨⟨hchild, hwidth⟩, element, rfl, by simpa using helement⟩ ?_
    -- Nothing is closed inside a vector, so nothing depends on the bytes that change.
    intro c hc
    rcases hclosed c hc with hout | ⟨hvector, _⟩
    · exact Or.inl hout
    · exact absurd rfl hvector

theorem leave {kind : FrameKind} {header : Nat} (h : Draft v (⟨kind, header⟩ :: frames) j bytes)
    (hawaiting : kind.awaiting = false) :
    ∃ (before content : Bytes) (type : TypeId), header = before.length ∧
      bytes = before ++ (headerBytes type 0 ++ content) ∧
      (j.leave.finished = if frames.isEmpty then j.finished + 1 else j.finished) ∧
      ∀ pad, content.length ≤ maxBody → pad.length = padding content.length →
        Draft v frames j.leave (before ++ Record.bytes ⟨[], type, content, pad⟩) := by
  cases h with
  | @nested outer _ j₀ before content _ type count closed houter hbegin htype hne hcontent
      hclosed =>
    refine ⟨before, content, type, rfl, rfl, ?_, ?_⟩
    · rw [isEmpty_beginFrames hbegin, ← houter.isEmpty_opened]
      exact Journal.finished_count _
    · intro pad hbody hpad
      have hfit : Record.Fits 0 ⟨[], type, content, pad⟩ := ⟨rfl, hbody, hpad⟩
      refine houter.value (r := ⟨[], type, content, pad⟩) hbegin hfit hne ?_
      intro c hc
      rcases List.mem_cons.mp hc with rfl | hc
      · exact Or.inr ⟨[], [], ⟨[], type, content, pad⟩, kind, by simp, rfl, hfit, hne, htype, rfl,
          hawaiting, hcontent⟩
      · rcases hclosed c hc with hout | ⟨_, hhoused⟩
        · exact Or.inl hout
        · have hbehind : Housed v (before.length + (headerBytes type content.length).length)
              (content ++ pad) c := by
            rw [length_headerBytes]
            exact hhoused.append pad
          exact Or.inr hbehind.prepend

end Draft

def Move.role : Move → Role
  | leaf _ _ | element _ | lock _ _ _ => .item
  | label _ => .label
  | enter kind _ _ => .opening kind.container
  | leave _ => .closing
  | skip _ => .gap
  | restart _ => .fresh

theorem Op.role_eq {v : Vocabulary} {frames : List Frame} {op : Op} {made : Move}
    (h : op.move v frames = .ok made) : op.role = made.role := by
  cases op with
  | reserve count | reset buffer =>
    cases h
    rfl
  | scalar type x | value x =>
    obtain ⟨bytes, _, hmade⟩ := bind_eq_ok_iff.mp h
    split at hmade
    · cases hmade
      rfl
    · obtain ⟨_, hmade⟩ := ensure_eq_ok_iff.mp hmade
      cases hmade
      rfl
    · cases hmade
      rfl
  | text form content | chunk body | atom type body =>
    obtain ⟨_, rfl⟩ := typedMove_eq_ok_iff.mp h
    rfl
  | literal content lang datatype =>
    obtain ⟨_, hmade⟩ := ensure_eq_ok_iff.mp h
    cases hmade
    rfl
  | pushVector childType width =>
    simp only [move] at h
    split at h
    · obtain ⟨_, rfl⟩ := enterMove_eq_ok_iff.mp h
      rfl
    · obtain ⟨_, hmade⟩ := ensure_eq_ok_iff.mp h
      obtain ⟨_, rfl⟩ := enterMove_eq_ok_iff.mp hmade
      rfl
  | pushTuple | pushObject id otype | pushSequence unit =>
    obtain ⟨_, rfl⟩ := enterMove_eq_ok_iff.mp h
    rfl
  | element bytes | property key context | stamp time =>
    simp only [move] at h
    split at h
    · obtain ⟨_, hmade⟩ := ensure_eq_ok_iff.mp h
      cases hmade
      rfl
    · cases h
  | pop =>
    obtain ⟨header, rfl⟩ := leaveMove_eq_ok h
    rfl
  | popHandle handle =>
    simp only [move] at h
    split at h
    · cases h
    · obtain ⟨_, hmade⟩ := ensure_eq_ok_iff.mp h
      obtain ⟨header, rfl⟩ := leaveMove_eq_ok hmade
      rfl

structure Tracks (w : Writer) (j : Journal) : Prop where
  draft : Draft w.vocabulary w.frames j w.written
  completed : w.completed = j.finished

namespace Tracks

variable {w w' : Writer} {j : Journal} {op : Op} {frames : List Frame}

theorem create (v : Vocabulary) (zeroPadding : Bool) (buffer : Bytes) :
    Tracks (Writer.create v zeroPadding buffer) Journal.empty :=
  ⟨@Draft.base v [] [] (by simp) (by simp), rfl⟩

theorem leaf {type : TypeId} {body : Bytes} (h : Tracks w j)
    (hallows : w.Allows op (.leaf type body) frames) :
    Tracks (w.perform frames (.leaf type body)) j.count := by
  obtain ⟨pad, hpad, heq⟩ := Writer.perform_leaf frames hallows.demand_le
  have hbegin : beginFrames w.frames = .ok frames := hallows.turn_eq
  have hfit : Record.Fits 0 ⟨[], type, body, pad⟩ := ⟨rfl, hallows.announced_le, hpad.1⟩
  have hdraft := h.draft.value (r := ⟨[], type, body, pad⟩) hbegin hfit hallows.sound
    (fun _ hc => Or.inl hc)
  rw [heq, Writer.finishAtom_eq]
  refine ⟨hdraft, ?_⟩
  rw [j.finished_count, h.draft.isEmpty_opened, ← isEmpty_beginFrames hbegin, ← h.completed]
  rfl

theorem element {bytes : Bytes} (h : Tracks w j) (hallows : w.Allows op (.element bytes) frames) :
    Tracks (w.perform frames (.element bytes)) j.count := by
  obtain ⟨type, width, header, outer, hframes, hlen⟩ := hallows.sound
  have hgrow : ∀ count content, Content (.vector (some (type, width))) count content →
      Content (.vector (some (type, width))) (count + 1) (content ++ bytes) := by
    rintro count content ⟨hwidth, elements, rfl, hcount⟩
    refine ⟨hwidth, elements ++ bytes, by simp, ?_⟩
    rw [List.length_append, hcount, hlen, Nat.add_mul, Nat.one_mul]
  have hdraft := h.draft
  rw [hframes] at hdraft
  obtain ⟨c, rest, hopened, hnext⟩ := hdraft.grow bytes 1 rfl hgrow
  have hcount : j.count = { j with opened := { c with count := c.count + 1 } :: rest } := by
    simp [Journal.count, hopened]
  rw [hcount]
  refine ⟨?_, h.completed⟩
  rw [← hframes] at hnext
  exact hnext

theorem lock {header : Nat} {type : TypeId} {bytes : Bytes} (h : Tracks w j)
    (hallows : w.Allows op (.lock header type bytes) frames) :
    Tracks (w.perform frames (.lock header type bytes)) j.count := by
  obtain ⟨htype, hlen, outer, hframes⟩ := hallows.sound
  have hdraft := h.draft
  rw [hframes] at hdraft
  obtain ⟨before, containerType, rfl, hwritten, hnext⟩ := hdraft.lock
  have hwidth : (UInt32.ofNat bytes.length).toNat = bytes.length :=
    toNat_ofNat_of_le (by unfold maxBody; omega)
  have hne : UInt32.ofNat bytes.length ≠ 0 := by
    intro hzero
    rw [hzero] at hwidth
    simp only [UInt32.toNat_zero] at hwidth
    omega
  have hturn := hallows.turn_eq
  rw [hframes] at hturn
  cases hturn
  rw [Writer.perform_lock hwritten]
  refine ⟨hnext type _ bytes htype hne hwidth.symm, ?_⟩
  rw [j.finished_count, hdraft.isEmpty_opened]
  exact h.completed

theorem label {bytes : Bytes} (h : Tracks w j) (hallows : w.Allows op (.label bytes) frames) :
    Tracks (w.perform frames (.label bytes)) j := by
  obtain ⟨hlen, kind, header, outer, hframes, hkind⟩ := hallows.sound
  have hgrow : ∀ count content, Content kind count content →
      Content kind.beginLabel (count + 0) (content ++ bytes) := by
    intro count content hcontent
    rcases hkind with rfl | ⟨unit, rfl⟩
    · exact Series.label hcontent hlen
    · exact Series.label hcontent hlen
  have hcontainer : kind.beginLabel.container = kind.container := by
    rcases hkind with rfl | ⟨unit, rfl⟩ <;> rfl
  have hdraft := h.draft
  rw [hframes] at hdraft
  obtain ⟨c, rest, hopened, hnext⟩ := hdraft.grow bytes 0 hcontainer hgrow
  have hsame : { j with opened := { c with count := c.count + 0 } :: rest } = j := by
    cases j
    simp_all
  rw [hsame] at hnext
  have hturn := hallows.turn_eq
  rw [hframes] at hturn
  cases hturn
  exact ⟨hnext, h.completed⟩

theorem enter {kind : FrameKind} {type : TypeId} {lead : Bytes} (h : Tracks w j)
    (hallows : w.Allows op (.enter kind type lead) frames) :
    Tracks (w.perform frames (.enter kind type lead)) (j.enter kind.container w.size) := by
  obtain ⟨hne, hkind⟩ := hallows.sound
  obtain ⟨_, hturn⟩ := ensure_eq_ok_iff.mp hallows.turn_eq
  obtain ⟨begun, hbegin, hframes⟩ := bind_eq_ok_iff.mp hturn
  cases hframes
  have hlead : type = w.vocabulary.id kind.container.term ∧ Content kind 0 lead := by
    rcases hkind with ⟨rfl, rfl, rfl⟩ | ⟨childType, width, hwidth, rfl, rfl, rfl⟩ |
      ⟨rfl, rfl, rfl⟩ | ⟨rfl, rfl, hlen⟩ | ⟨unit, rfl, rfl, hlen⟩
    · exact ⟨rfl, rfl, rfl⟩
    · exact ⟨rfl, hwidth, [], by simp, by simp⟩
    · exact ⟨rfl, [], rfl, by simp, rfl⟩
    · exact ⟨rfl, lead, [], [], hlen, rfl, by simp, rfl, by simp⟩
    · exact ⟨rfl, lead, [], [], hlen, rfl, by simp, rfl, by simp⟩
  exact ⟨h.draft.enter hbegin hlead.1 hne hlead.2, h.completed⟩

theorem leave {header : Nat} (h : Tracks w j) (hallows : w.Allows op (.leave header) frames) :
    Tracks (w.perform frames (.leave header)) j.leave := by
  obtain ⟨kind, outer, hframes, hawaiting⟩ := hallows.sound
  have hturn := hallows.turn_eq
  rw [hframes] at hturn
  cases hturn
  have hdraft := h.draft
  rw [hframes] at hdraft
  obtain ⟨before, content, type, rfl, hwritten, hfinished, hnext⟩ := hdraft.leave hawaiting
  have hbody := hallows.announced_le
  simp only [Writer.announced, Writer.size_sub_header hwritten] at hbody
  obtain ⟨pad, hpad, heq⟩ := Writer.perform_leave _ hwritten hallows.demand_le
  rw [heq, Writer.finishAtom_eq]
  refine ⟨hnext pad hbody hpad.1, ?_⟩
  rw [hfinished, ← h.completed]
  rfl

theorem step {answer : Except WireError Reply} (h : Tracks w j) (hop : op.role ≠ .gap)
    (hstep : w.step op = (answer, w')) : Tracks w' (j.note op answer) := by
  cases answer with
  | error e =>
    obtain ⟨exhausted, rfl⟩ := Writer.step_error hstep
    exact ⟨h.draft, h.completed⟩
  | ok reply =>
    obtain ⟨move, frames, hallows, rfl, rfl⟩ := Writer.step_ok hstep
    have hrole := Op.role_eq hallows.move_eq
    cases move with
    | skip count => exact absurd hrole hop
    | leaf type body => simpa [Journal.note, hrole, Move.role] using h.leaf hallows
    | element bytes => simpa [Journal.note, hrole, Move.role] using h.element hallows
    | lock header type bytes => simpa [Journal.note, hrole, Move.role] using h.lock hallows
    | label bytes => simpa [Journal.note, hrole, Move.role] using h.label hallows
    | enter kind type lead =>
      simpa [Journal.note, hrole, Move.role, Writer.reply] using h.enter hallows
    | leave header => simpa [Journal.note, hrole, Move.role] using h.leave hallows
    | restart buffer =>
      simpa [Journal.note, hrole, Move.role, Writer.perform, Writer.reset] using
        create w.vocabulary w.zeroPadding _

theorem run {ops : List Op} (h : Tracks w j) (hops : ∀ op ∈ ops, op.role ≠ .gap) :
    Tracks (w.run ops).2 (j.noteAll ops (w.run ops).1) := by
  induction ops generalizing w j with
  | nil => exact h
  | cons op rest ih =>
    have hstep := h.step (hops op List.mem_cons_self) rfl
    exact ih hstep (fun x hx => hops x (List.mem_cons_of_mem op hx))

end Tracks

theorem consecutive_place {records : List Record} (hfit : ∀ r ∈ records, r.Fits 0)
    (memory : Option Nat) (pos : Nat) :
    Consecutive pos ((Record.place pos records).map fun x => x.2.view memory x.1)
      (pos + (Record.flat records).length) := by
  induction records generalizing pos with
  | nil => rfl
  | cons r rest ih =>
    have hrest := ih (fun x hx => hfit x (List.mem_cons_of_mem r hx)) (pos + r.bytes.length)
    refine ⟨?_, ?_⟩
    · simp [Record.view, Record.lead_eq_nil (hfit r List.mem_cons_self)]
    · rw [Record.flat_cons, List.length_append, ← Nat.add_assoc]
      exact hrest

theorem clean_map {α β : Type} (xs : List α) (f : α → β) :
    Clean (xs.map fun x => (.ok (f x) : Except WireError β)) xs.length :=
  ⟨xs.map f, by simp, by simp⟩

theorem Series.clean {s : Source} {pos count : Nat} {r : Record} {α : Type} (layout : Layout α)
    (hshow : s.block.Shows pos r.bytes) (hfit : r.Fits 0) (hlayout : layout.lead = 8)
    (h : Series false count r.body) :
    8 ≤ r.body.length ∧
      Clean (s.regionOf (r.view s.block.memory pos) 8 layout).items count := by
  obtain ⟨lead, inner, label, hlead, rfl, hinner, hlabel, hbody⟩ := h
  obtain rfl := List.length_eq_zero_iff.mp hlabel
  rw [List.append_nil] at hbody
  have hitems := Source.items_regionOf layout hshow hfit hbody (by rwa [hlayout])
  rw [hlead] at hitems
  refine ⟨by simp [hbody, hlead], ?_⟩
  rw [hitems]
  simpa using clean_map (Record.place (pos + r.lead.length + headerSize + 8) inner) _

/-- A container that stands closed in the block reads back. -/
theorem Housed.readBack {s : Source} {c : Container}
    (h : Housed s.vocabulary 0 s.block.bytes c) : c.ReadBack s := by
  obtain ⟨before, after, r, kind, hbytes, hheader, hfit, hne, htype, hkind, hawaiting,
    hcontent⟩ := h
  have hshow : s.block.Shows c.header r.bytes := by
    rw [hheader, Nat.zero_add]
    exact ⟨after, by rw [hbytes, List.drop_left]⟩
  have hatom := Source.atomAt_record hshow hfit
  unfold Container.ReadBack
  rw [hatom, ← hkind]
  rw [← hkind] at htype
  cases kind with
  | vector lock =>
    cases lock with
    | none =>
      obtain ⟨hcount, hbody⟩ := hcontent
      have hwords : r.body = word32 0 ++ (word32 0 ++ []) := by simpa using hbody
      obtain ⟨span, hvector, hspan⟩ := Source.vector_record hshow hfit htype hwords (by simp)
      exact ⟨_, hvector, by simp [VectorView.items, VectorView.size, hspan, hcount]⟩
    | some locked =>
      obtain ⟨childType, width⟩ := locked
      obtain ⟨⟨_, hwidth⟩, elements, hbody, hlen⟩ := hcontent
      have hpos : 0 < width.toNat := Nat.pos_of_ne_zero fun hzero =>
        hwidth (UInt32.toNat_inj.mp (by simpa using hzero))
      obtain ⟨span, hvector, hspan⟩ := Source.vector_record hshow hfit htype hbody
        (by simp [hwidth, hlen])
      refine ⟨_, hvector, ?_⟩
      simp [VectorView.items, VectorView.size, hspan, hlen, Nat.mul_div_cancel _ hpos]
  | tuple =>
    obtain ⟨inner, hcount, hinner, hbody⟩ := hcontent
    have hfront : r.body = [] ++ Record.flat inner := hbody
    have hitems := Source.items_regionOf (Layout.atoms .malformedContainer) hshow hfit hfront
      hinner
    refine ⟨_, Source.tuple_record hshow hfit htype, ?_⟩
    rw [← hcount]
    rw [List.length_nil] at hitems
    rw [hitems]
    simpa using clean_map (Record.place (c.header + r.lead.length + headerSize + 0) inner) _
  | object awaiting =>
    cases awaiting with
    | true => cases hawaiting
    | false =>
      obtain ⟨hbody, hclean⟩ := Series.clean Layout.properties hshow hfit rfl hcontent
      have hobject : s.vocabulary.isObject r.type = true := by
        simpa [Vocabulary.isObject, htype] using ⟨htype ▸ hne, Or.inl rfl⟩
      exact ⟨_, Source.object_record hshow hfit hobject hbody, hclean⟩
  | sequence unit awaiting =>
    cases awaiting with
    | true => cases hawaiting
    | false =>
      obtain ⟨hbody, hclean⟩ := Series.clean (Layout.events (s.unitOf (getWord32 r.body)))
        hshow hfit rfl hcontent
      exact ⟨_, Source.sequence_record hshow hfit htype hbody, hclean⟩

theorem Draft.readBack {s : Source} {j : Journal} (h : Draft s.vocabulary [] j s.block.bytes) :
    ∃ views, (s.atoms 0).items = views.map .ok ∧ views.length = j.finished ∧
      (∀ view ∈ views, view.type ≠ 0) ∧ Consecutive 0 views s.size ∧
      ∀ c ∈ j.closed, c.ReadBack s := by
  generalize hbytes : s.block.bytes = bytes at h
  cases h with
  | @base records closed hfit hclosed =>
    have hshow : s.block.Shows 0 (Record.flat records) := by simp [Block.Shows, hbytes]
    have hfits : ∀ r ∈ records, r.Fits 0 := fun r hr => (hfit r hr).1
    have hsize : s.size = 0 + (Record.flat records).length := by
      simp [Source.size, Block.size, hbytes]
    have hitems := Region.itemsFrom_records (r := s.atoms 0) hfits hshow hsize
    refine ⟨(Record.place 0 records).map fun x => x.2.view s.block.memory x.1, ?_, by simp, ?_,
      ?_, ?_⟩
    · rw [List.map_map]
      exact hitems
    · intro view hview
      obtain ⟨x, hx, rfl⟩ := List.mem_map.mp hview
      exact (hfit x.2 (Record.mem_of_mem_place hx)).2
    · rw [hsize]
      exact consecutive_place hfits s.block.memory 0
    · intro c hc
      exact Housed.readBack (hbytes ▸ hclosed c hc)

/-- After any calls but bare reservations, failed ones and resets among them: once no
container is open, the bytes are the finished atoms one after another, and every container
that was opened and closed since the last reset reads back with all its items. -/
theorem run_readBack (v : Vocabulary) (zeroPadding : Bool) (buffer : Bytes) (ops : List Op)
    (hops : ∀ count, Op.reserve count ∉ ops) (memory : Option Nat)
    (hdepth : ((Writer.create v zeroPadding buffer).run ops).2.depth = 0) :
    let run := (Writer.create v zeroPadding buffer).run ops
    let journal := Journal.empty.noteAll ops run.1
    let s : Source := ⟨v, ⟨memory, run.2.written⟩⟩
    ∃ views, (s.atoms 0).items = views.map .ok ∧ views.length = run.2.completed ∧
      run.2.completed = journal.finished ∧ (∀ view ∈ views, view.type ≠ 0) ∧
      Consecutive 0 views run.2.size ∧ ∀ c ∈ journal.closed, c.ReadBack s := by
  intro run journal s
  have htracks : Tracks run.2 journal := by
    apply (Tracks.create v zeroPadding buffer).run
    intro op hop hgap
    obtain ⟨count, rfl⟩ := Op.eq_reserve_of_role hgap
    exact hops count hop
  have hframes : run.2.frames = [] := List.length_eq_zero_iff.mp hdepth
  have hvocabulary : run.2.vocabulary = v := Writer.run_vocabulary _ ops
  have hdraft := htracks.draft
  rw [hframes, hvocabulary] at hdraft
  obtain ⟨views, hitems, hlen, htypes, hchain, hclosed⟩ := Draft.readBack (s := s) hdraft
  exact ⟨views, hitems, hlen.trans htracks.completed.symm, htracks.completed, htypes, hchain,
    hclosed⟩

theorem run_readBack_object :
    let v : Vocabulary := ⟨fun term => if term = .object then 1 else 2⟩
    let ops : List Op := [.pushObject 3 4, .pop, .pushObject 3 4, .property 5 0, .pop, .pushTuple,
      .atom 6 [7], .pop, .pop, .pop]
    let run := (Writer.create v true (List.replicate 64 0)).run ops
    run.2.depth = 0 ∧ ∃ views : List AtomView,
      ((Source.mk v ⟨some 0, run.2.written⟩).atoms 0).items = views.map .ok ∧ views.length = 2 := by
  intro v ops run
  have hdepth : run.2.depth = 0 := by decide +kernel
  obtain ⟨views, hitems, hlen, _⟩ := run_readBack v true (List.replicate 64 0) ops
    (by simp [ops]) (some 0) hdepth
  refine ⟨hdepth, views, hitems, ?_⟩
  rw [hlen]
  decide +kernel

end AtomWire

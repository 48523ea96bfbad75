import AtomWire.Proofs.Capacity
import AtomWire.Proofs.Twins

/-!
# Old bytes leave no trace

Two writers get the same calls over buffers that hold different bytes. Whatever stood in
the buffers, and whatever the writers did before their last reset, all answers are the
same and so is every byte below the cursor, up to padding that is not zeroed. The proof
keeps the two drafts side by side, as `Draft` follows a single one.
-/

namespace AtomWire

set_option autoImplicit false

/-- Where the header of an atom stands, and how large its body is. -/
structure Extent where
  header : Nat
  body : Nat
deriving DecidableEq

/-- The position lies in the padding of one of the atoms. -/
def InPadding (atoms : List Extent) (pos : Nat) : Prop :=
  ∃ e ∈ atoms, e.header + headerSize + e.body ≤ pos ∧
    pos < e.header + headerSize + e.body + padding e.body

namespace Writer

/-- The atoms finished after a move, given those before it. A reset forgets them all. -/
def extents (w : Writer) (atoms : List Extent) : Move → List Extent
  | .leaf _ body => ⟨w.size, body.length⟩ :: atoms
  | .leave header => ⟨header, w.size - (header + headerSize)⟩ :: atoms
  | .restart _ => []
  | _ => atoms

/-- The atoms finished after a call, which a failure leaves as they are. -/
def noteAtom (w : Writer) (atoms : List Extent) (op : Op) : List Extent :=
  match (w.step op).1, op.move w.vocabulary w.frames with
  | .ok _, .ok move => w.extents atoms move
  | _, _ => atoms

/-- The atoms finished since the last reset, containers among them. -/
def finishedAtoms (w : Writer) (atoms : List Extent) : List Op → List Extent
  | [] => atoms
  | op :: rest => (w.step op).2.finishedAtoms (w.noteAtom atoms op) rest

end Writer

/-- The bytes are the same outside of the padding of the atoms. -/
structure Agrees (atoms : List Extent) (x y : Bytes) : Prop where
  length_eq : x.length = y.length
  getElem?_eq : ∀ pos, ¬ InPadding atoms pos → x[pos]? = y[pos]?

namespace Agrees

variable {atoms : List Extent} {x y : Bytes}

theorem append (h : Agrees atoms x y) (z : Bytes) : Agrees atoms (x ++ z) (y ++ z) := by
  refine ⟨by simp [h.length_eq], ?_⟩
  intro pos hpos
  rw [List.getElem?_append, List.getElem?_append, h.length_eq, h.getElem?_eq pos hpos]

theorem pad {e : Extent} {p q : Bytes} (h : Agrees atoms x y)
    (hend : e.header + headerSize + e.body = x.length) (hp : p.length = padding e.body)
    (hq : q.length = padding e.body) : Agrees (e :: atoms) (x ++ p) (y ++ q) := by
  refine ⟨by simp [h.length_eq, hp, hq], ?_⟩
  intro pos hpos
  have hold : ¬ InPadding atoms pos := by
    rintro ⟨a, ha, hin⟩
    exact hpos ⟨a, List.mem_cons_of_mem e ha, hin⟩
  have hnew : ¬ (x.length ≤ pos ∧ pos < x.length + padding e.body) := by
    intro hin
    rw [← hend] at hin
    exact hpos ⟨e, List.mem_cons_self, hin⟩
  have hlen := h.length_eq
  by_cases hlt : pos < x.length
  · rw [List.getElem?_append_left hlt, List.getElem?_append_left (hlen ▸ hlt),
      h.getElem?_eq pos hold]
  · rw [List.getElem?_eq_none (by rw [List.length_append]; omega),
      List.getElem?_eq_none (by rw [List.length_append]; omega)]

theorem replace {a b m n c d : Bytes} (h : Agrees atoms (a ++ (m ++ c)) (b ++ (m ++ d)))
    (hlen : a.length = b.length) (hm : n.length = m.length) :
    Agrees atoms (a ++ (n ++ c)) (b ++ (n ++ d)) := by
  have htotal := h.length_eq
  simp only [List.length_append] at htotal
  refine ⟨by simp only [List.length_append]; omega, ?_⟩
  intro pos hpos
  have hget := h.getElem?_eq pos hpos
  simp only [List.getElem?_append, hlen, hm] at hget ⊢
  split
  · rename_i hlt
    rwa [if_pos hlt, if_pos hlt] at hget
  · rename_i hle
    rw [if_neg hle, if_neg hle] at hget
    split
    · rfl
    · rename_i hle'
      rwa [if_neg hle', if_neg hle'] at hget

end Agrees

/-- The contents of an open container in two drafts. -/
def TwinContents (v : Vocabulary) : FrameKind → Bytes → Bytes → Prop
  | .vector none, x, y => x = word32 0 ++ word32 0 ∧ y = x
  | .vector (some _), x, y => y = x
  | .tuple, x, y => ∃ records others, Twins v 0 records others ∧
    x = Record.flat records ∧ y = Record.flat others
  | .object awaiting, x, y | .sequence _ awaiting, x, y => ∃ front label records others,
    front.length = 8 ∧ label.length = (if awaiting then 8 else 0) ∧ Twins v 8 records others ∧
    x = front ++ (Record.flat records ++ label) ∧ y = front ++ (Record.flat others ++ label)

/-- Drafts with the same containers open that differ in padding alone. -/
inductive TwinDrafts (v : Vocabulary) : List Frame → Bytes → Bytes → Prop where
  | base {records others : List Record} (h : Twins v 0 records others) :
      TwinDrafts v [] (Record.flat records) (Record.flat others)
  | nested {outer begun : List Frame} {before before' content content' : Bytes}
      {kind : FrameKind} {type : TypeId} (houter : TwinDrafts v outer before before')
      (hbegin : beginFrames outer = .ok begun) (htype : type = v.id kind.container.term)
      (hcontent : TwinContents v kind content content') :
      TwinDrafts v (⟨kind, before.length⟩ :: begun) (before ++ (headerBytes type 0 ++ content))
        (before' ++ (headerBytes type 0 ++ content'))

theorem Twins.relabel {v : Vocabulary} {r q : Record} {label : Bytes} {lead : Nat}
    (h : Twins v 0 [r] [q]) (hlabel : label.length = lead) :
    Twins v lead [{ r with lead := label }] [{ q with lead := label }] := by
  cases h with
  | leaf hleft hright _ =>
    exact .leaf ⟨hlabel, hleft.body_le, hleft.length_pad⟩
      ⟨hlabel, hright.body_le, hright.length_pad⟩ .nil
  | container hhouses hfront hleft hright hinner _ =>
    exact .container hhouses hfront ⟨hlabel, hleft.body_le, hleft.length_pad⟩
      ⟨hlabel, hright.body_le, hright.length_pad⟩ hinner .nil

namespace TwinContents

variable {v : Vocabulary} {kind kind' : FrameKind} {x y : Bytes}

theorem length_eq (h : TwinContents v kind x y) : x.length = y.length := by
  cases kind with
  | vector lock =>
    cases lock with
    | none => rw [h.2]
    | some locked => rw [h]
  | tuple =>
    obtain ⟨records, others, htwins, rfl, rfl⟩ := h
    exact htwins.length_flat
  | object awaiting | sequence unit awaiting =>
    obtain ⟨front, label, records, others, _, _, htwins, rfl, rfl⟩ := h
    simp [htwins.length_flat]

theorem value {r q : Record} (h : TwinContents v kind x y) (hbegin : kind.beginValue = .ok kind')
    (hr : Twins v 0 [r] [q]) : TwinContents v kind' (x ++ r.bytes) (y ++ q.bytes) := by
  have hleads : r.lead = [] ∧ q.lead = [] :=
    ⟨Record.lead_eq_nil (hr.fits_left r List.mem_cons_self),
      Record.lead_eq_nil (hr.fits_right q List.mem_cons_self)⟩
  cases kind with
  | vector lock => cases hbegin
  | tuple =>
    cases hbegin
    obtain ⟨records, others, htwins, rfl, rfl⟩ := h
    exact ⟨records ++ [r], others ++ [q], htwins.append hr, by simp, by simp⟩
  | object awaiting | sequence unit awaiting =>
    cases awaiting <;> cases hbegin
    obtain ⟨front, label, records, others, hfront, hlabel, htwins, rfl, rfl⟩ := h
    have hled : label.length = 8 := hlabel
    refine ⟨front, [], records ++ [{ r with lead := label }], others ++ [{ q with lead := label }],
      hfront, rfl, htwins.append (hr.relabel hled), ?_, ?_⟩
    · simp [Record.bytes, hleads.1]
    · simp [Record.bytes, hleads.2]

theorem label {bytes : Bytes} (h : TwinContents v kind x y)
    (hkind : kind = .object false ∨ ∃ unit, kind = .sequence unit false)
    (hlen : bytes.length = 8) : TwinContents v kind.beginLabel (x ++ bytes) (y ++ bytes) := by
  rcases hkind with rfl | ⟨unit, rfl⟩ <;>
  · obtain ⟨front, label, records, others, hfront, hlabel, htwins, rfl, rfl⟩ := h
    obtain rfl := List.length_eq_zero_iff.mp hlabel
    exact ⟨front, bytes, records, others, hfront, hlen, htwins, by simp, by simp⟩

/-- A container starts with the same words in both drafts. -/
theorem enter {frames : List Frame} {type : TypeId} {lead : Bytes}
    (h : (Move.enter kind type lead).Sound v frames) :
    type = v.id kind.container.term ∧ TwinContents v kind lead lead := by
  rcases h.2 with ⟨rfl, rfl, rfl⟩ | ⟨childType, width, _, rfl, rfl, rfl⟩ | ⟨rfl, rfl, rfl⟩ |
    ⟨rfl, rfl, hlen⟩ | ⟨unit, rfl, rfl, hlen⟩
  · exact ⟨rfl, rfl, rfl⟩
  · exact ⟨rfl, rfl⟩
  · exact ⟨rfl, [], [], .nil, rfl, rfl⟩
  · exact ⟨rfl, lead, [], [], [], hlen, rfl, .nil, by simp, by simp⟩
  · exact ⟨rfl, lead, [], [], [], hlen, rfl, .nil, by simp, by simp⟩

/-- A closed container is one record among the others. -/
theorem record {pad pad' : Bytes} (h : TwinContents v kind x y) (hawaiting : kind.awaiting = false)
    (hx : Record.Fits 0 ⟨[], v.id kind.container.term, x, pad⟩)
    (hy : Record.Fits 0 ⟨[], v.id kind.container.term, y, pad'⟩) :
    Twins v 0 [⟨[], v.id kind.container.term, x, pad⟩]
      [⟨[], v.id kind.container.term, y, pad'⟩] := by
  cases kind with
  | vector lock =>
    have hsame : y = x := by
      cases lock with
      | none => exact h.2
      | some locked => exact h
    subst hsame
    exact .leaf hx hy .nil
  | tuple =>
    obtain ⟨records, others, htwins, rfl, rfl⟩ := h
    have hfront : ([] : Bytes).length = 0 := rfl
    exact .container (Or.inl ⟨rfl, rfl⟩) hfront hx hy htwins .nil
  | object awaiting | sequence unit awaiting =>
    obtain rfl : awaiting = false := hawaiting
    obtain ⟨front, label, records, others, hfront, hlabel, htwins, rfl, rfl⟩ := h
    obtain rfl := List.length_eq_zero_iff.mp hlabel
    simp only [List.append_nil] at hx hy ⊢
    exact .container (Or.inr ⟨by simp [FrameKind.container, ContainerKind.term], rfl⟩) hfront hx hy
      htwins .nil

end TwinContents

namespace TwinDrafts

variable {v : Vocabulary} {frames begun : List Frame} {x y : Bytes}

theorem exists_twins (h : TwinDrafts v [] x y) :
    ∃ records others, Twins v 0 records others ∧ x = Record.flat records ∧
      y = Record.flat others := by
  cases h with
  | base h => exact ⟨_, _, h, rfl, rfl⟩

theorem length_eq (h : TwinDrafts v frames x y) : x.length = y.length := by
  induction h with
  | base h => exact h.length_flat
  | nested _ _ _ hcontent ih => simp [ih, hcontent.length_eq]

theorem value {r q : Record} (h : TwinDrafts v frames x y) (hbegin : beginFrames frames = .ok begun)
    (hr : Twins v 0 [r] [q]) : TwinDrafts v begun (x ++ r.bytes) (y ++ q.bytes) := by
  cases h with
  | @base records others h =>
    cases hbegin
    have hflat := TwinDrafts.base (h.append hr)
    simpa using hflat
  | @nested outer begun₀ before before' content content' kind type houter hbegin₀ htype hcontent =>
    obtain ⟨kind', hkind, hbegun⟩ := bind_eq_ok_iff.mp hbegin
    cases hbegun
    obtain ⟨hcontainer, _⟩ := container_of_beginValue hkind
    rw [← hcontainer] at htype
    have hnext := TwinDrafts.nested houter hbegin₀ htype (hcontent.value hkind hr)
    simpa using hnext

/-- The innermost container may go on by itself, as long as it stays of its kind. -/
theorem grow {kind kind' : FrameKind} {header : Nat} (more : Bytes)
    (h : TwinDrafts v (⟨kind, header⟩ :: frames) x y) (hkind : kind'.container = kind.container)
    (hcontent : ∀ content content', TwinContents v kind content content' →
      TwinContents v kind' (content ++ more) (content' ++ more)) :
    TwinDrafts v (⟨kind', header⟩ :: frames) (x ++ more) (y ++ more) := by
  cases h with
  | nested houter hbegin htype hold =>
    rw [← hkind] at htype
    have hnext := TwinDrafts.nested houter hbegin htype (hcontent _ _ hold)
    simpa using hnext

theorem lock {header : Nat} (h : TwinDrafts v (⟨.vector none, header⟩ :: frames) x y) :
    ∃ (before before' : Bytes) (type : TypeId), header = before.length ∧ header = before'.length ∧
      x = before ++ (headerBytes type 0 ++ (word32 0 ++ word32 0)) ∧
      y = before' ++ (headerBytes type 0 ++ (word32 0 ++ word32 0)) ∧
      ∀ locked content, TwinDrafts v (⟨.vector (some locked), header⟩ :: frames)
        (before ++ (headerBytes type 0 ++ content))
        (before' ++ (headerBytes type 0 ++ content)) := by
  cases h with
  | @nested outer _ before before' content content' _ type houter hbegin htype hold =>
    obtain ⟨rfl, rfl⟩ := hold
    refine ⟨before, before', type, rfl, houter.length_eq, rfl, rfl, ?_⟩
    intro locked content
    exact TwinDrafts.nested houter hbegin htype rfl

theorem leave {kind : FrameKind} {header : Nat}
    (h : TwinDrafts v (⟨kind, header⟩ :: frames) x y) (hawaiting : kind.awaiting = false) :
    ∃ (before before' content content' : Bytes) (type : TypeId), header = before.length ∧
      header = before'.length ∧ content.length = content'.length ∧
      x = before ++ (headerBytes type 0 ++ content) ∧
      y = before' ++ (headerBytes type 0 ++ content') ∧
      ∀ pad pad', content.length ≤ maxBody → pad.length = padding content.length →
        pad'.length = padding content.length →
        TwinDrafts v frames (before ++ Record.bytes ⟨[], type, content, pad⟩)
          (before' ++ Record.bytes ⟨[], type, content', pad'⟩) := by
  cases h with
  | @nested outer _ before before' content content' _ type houter hbegin htype hcontent =>
    have hlen := hcontent.length_eq
    refine ⟨before, before', content, content', type, rfl, houter.length_eq, hlen, rfl, rfl, ?_⟩
    intro pad pad' hbody hpad hpad'
    subst htype
    apply houter.value hbegin
    exact hcontent.record hawaiting ⟨rfl, hbody, hpad⟩ ⟨rfl, hlen ▸ hbody, hlen ▸ hpad'⟩

end TwinDrafts

/-- What is written by two writers, up to padding that is not zeroed. -/
structure Level (v : Vocabulary) (zero : Bool) (frames : List Frame) (atoms : List Extent)
    (x y : Bytes) : Prop where
  drafts : TwinDrafts v frames x y
  agrees : Agrees atoms x y
  zeros : zero = true → y = x

namespace Level

variable {v : Vocabulary} {zero : Bool} {frames begun : List Frame} {atoms : List Extent}
  {x y : Bytes}

theorem start : Level v zero [] [] [] [] :=
  ⟨TwinDrafts.base .nil, ⟨rfl, fun _ _ => rfl⟩, fun _ => rfl⟩

theorem append (h : Level v zero frames atoms x y) {more : Bytes}
    (hdrafts : TwinDrafts v begun (x ++ more) (y ++ more)) :
    Level v zero begun atoms (x ++ more) (y ++ more) :=
  ⟨hdrafts, h.agrees.append more, fun hzero => congrArg (· ++ more) (h.zeros hzero)⟩

theorem leaf {type : TypeId} {body pad pad' : Bytes} (h : Level v zero frames atoms x y)
    (hbegin : beginFrames frames = .ok begun) (hbody : body.length ≤ maxBody)
    (hpad : IsPadding zero (padding body.length) pad)
    (hpad' : IsPadding zero (padding body.length) pad') :
    Level v zero begun (⟨x.length, body.length⟩ :: atoms)
      (x ++ Record.bytes ⟨[], type, body, pad⟩) (y ++ Record.bytes ⟨[], type, body, pad'⟩) := by
  refine ⟨?_, ?_, ?_⟩
  · apply h.drafts.value hbegin
    exact .leaf ⟨rfl, hbody, hpad.1⟩ ⟨rfl, hbody, hpad'.1⟩ .nil
  · have hagrees := h.agrees.append (headerBytes type body.length ++ body)
    have hnext := hagrees.pad (e := ⟨x.length, body.length⟩) (by simp [headerSize]; omega)
      hpad.1 hpad'.1
    simpa [Record.bytes] using hnext
  · intro hzero
    rw [h.zeros hzero, hpad.2 hzero, hpad'.2 hzero]

theorem lock {header : Nat} (type : TypeId) (bytes : Bytes)
    (h : Level v zero (⟨.vector none, header⟩ :: frames) atoms x y) :
    ∃ (before before' : Bytes) (containerType : TypeId), header = before.length ∧
      header = before'.length ∧
      x = before ++ (headerBytes containerType 0 ++ (word32 0 ++ word32 0)) ∧
      y = before' ++ (headerBytes containerType 0 ++ (word32 0 ++ word32 0)) ∧
      ∀ width, Level v zero (⟨.vector (some (type, width)), header⟩ :: frames) atoms
        (before ++ (headerBytes containerType 0 ++ (word32 type ++ (word32 width ++ bytes))))
        (before' ++ (headerBytes containerType 0 ++ (word32 type ++ (word32 width ++ bytes)))) := by
  obtain ⟨before, before', containerType, hbefore, hbefore', rfl, rfl, hdrafts⟩ := h.drafts.lock
  refine ⟨before, before', containerType, hbefore, hbefore', rfl, rfl, ?_⟩
  intro width
  have hlen : before.length = before'.length := hbefore.symm.trans hbefore'
  refine ⟨hdrafts _ _, ?_, ?_⟩
  · have hwords : Agrees atoms
        (before ++ ((headerBytes containerType 0 ++ (word32 0 ++ word32 0)) ++ []))
        (before' ++ ((headerBytes containerType 0 ++ (word32 0 ++ word32 0)) ++ [])) := by
      simpa only [List.append_nil] using h.agrees
    have hlocked := hwords.replace
      (n := headerBytes containerType 0 ++ (word32 type ++ word32 width)) hlen (by simp)
    simpa using hlocked.append bytes
  · intro hzero
    have hsame := List.append_inj (h.zeros hzero) hlen.symm
    rw [hsame.1]

theorem leave {kind : FrameKind} {header : Nat}
    (h : Level v zero (⟨kind, header⟩ :: frames) atoms x y) (hawaiting : kind.awaiting = false) :
    ∃ (before before' content content' : Bytes) (type : TypeId), header = before.length ∧
      header = before'.length ∧ content.length = content'.length ∧
      x = before ++ (headerBytes type 0 ++ content) ∧
      y = before' ++ (headerBytes type 0 ++ content') ∧
      ∀ pad pad', content.length ≤ maxBody → IsPadding zero (padding content.length) pad →
        IsPadding zero (padding content.length) pad' →
        Level v zero frames (⟨header, content.length⟩ :: atoms)
          (before ++ Record.bytes ⟨[], type, content, pad⟩)
          (before' ++ Record.bytes ⟨[], type, content', pad'⟩) := by
  obtain ⟨before, before', content, content', type, hbefore, hbefore', hlen, rfl, rfl, hdrafts⟩ :=
    h.drafts.leave hawaiting
  refine ⟨before, before', content, content', type, hbefore, hbefore', hlen, rfl, rfl, ?_⟩
  intro pad pad' hbody hpad hpad'
  have hsame : before.length = before'.length := hbefore.symm.trans hbefore'
  refine ⟨hdrafts pad pad' hbody hpad.1 hpad'.1, ?_, ?_⟩
  · -- The size goes into the header, then the padding comes behind the body.
    have hsized := h.agrees.replace (n := headerBytes type content.length) hsame (by simp)
    have hnext := hsized.pad (e := ⟨header, content.length⟩)
      (by simp [headerSize, hbefore]; omega) hpad.1 hpad'.1
    simpa [Record.bytes, hlen] using hnext
  · intro hzero
    obtain ⟨hfront, hrest⟩ := List.append_inj (h.zeros hzero) hsame.symm
    have hcontent : content' = content := (List.append_inj hrest rfl).2
    rw [hfront, hcontent, hpad.2 hzero, hpad'.2 hzero]

end Level

namespace Writer

variable {w u : Writer} {op : Op} {move : Move} {frames : List Frame} {atoms : List Extent}

/-- Two writers that nobody can tell apart but by bytes of padding. -/
structure Abreast (w u : Writer) (atoms : List Extent) : Prop where
  setup : u.setup = w.setup
  frames : u.frames = w.frames
  completed : u.completed = w.completed
  exhausted : u.exhausted = w.exhausted
  spare : u.spare.length = w.spare.length
  level : Level w.vocabulary w.zeroPadding w.frames atoms w.written u.written

theorem step_reset (w : Writer) (buffer : Option Bytes) :
    w.step (.reset buffer) = (.ok .done, w.reset (buffer.getD w.buffer)) := by
  simp [step, Op.isReset, attempt]

theorem completed_perform (h : u.completed = w.completed) (frames : List Frame) (move : Move) :
    (u.perform frames move).completed = (w.perform frames move).completed := by
  cases move with
  | leaf type body | leave header =>
    rw [perform, perform, finishAtom_eq, finishAtom_eq]
    exact congrArg (fun count => if frames.isEmpty then count + 1 else count) h
  | restart buffer => rfl
  | _ => exact h

namespace Abreast

theorem vocabulary (h : w.Abreast u atoms) : u.vocabulary = w.vocabulary :=
  congrArg Prod.fst h.setup

theorem zeroPadding (h : w.Abreast u atoms) : u.zeroPadding = w.zeroPadding :=
  congrArg Prod.snd h.setup

theorem size (h : w.Abreast u atoms) : u.size = w.size := h.level.agrees.length_eq.symm

theorem isComplete (h : w.Abreast u atoms) : u.isComplete = w.isComplete := by
  rw [Writer.isComplete, Writer.isComplete, h.frames, h.exhausted, h.completed]

theorem create (v : Vocabulary) (zeroPadding : Bool) {buffer other : Bytes}
    (h : other.length = buffer.length) :
    (Writer.create v zeroPadding buffer).Abreast (Writer.create v zeroPadding other) [] :=
  ⟨rfl, rfl, rfl, rfl, h, Level.start⟩

/-- Nothing but padding depends on what stood in the buffer. -/
theorem level_perform (h : w.Abreast u atoms) (hw : w.Allows op move frames)
    (hu : u.Allows op move frames) (hgap : ∀ count, move ≠ .skip count)
    (hmove : ∀ buffer, move ≠ .restart buffer) :
    Level w.vocabulary w.zeroPadding frames (w.extents atoms move) (w.perform frames move).written
      (u.perform frames move).written := by
  have hsound := hw.sound
  have hturn := hw.turn_eq
  cases move with
  | skip count => exact absurd rfl (hgap count)
  | leaf type body =>
    obtain ⟨pad, hpad, heq⟩ := perform_leaf frames hw.demand_le
    obtain ⟨pad', hpad', heq'⟩ := perform_leaf frames hu.demand_le
    rw [h.zeroPadding] at hpad'
    rw [heq, heq', finishAtom_eq, finishAtom_eq]
    exact h.level.leaf hturn hw.announced_le hpad hpad'
  | element bytes =>
    obtain ⟨type, width, header, outer, hframes, _⟩ := hsound
    cases hturn
    apply h.level.append
    have hdrafts := h.level.drafts
    rw [hframes] at hdrafts ⊢
    exact hdrafts.grow bytes rfl fun content content' hcontent => congrArg (· ++ bytes) hcontent
  | lock header type bytes =>
    obtain ⟨_, _, outer, hframes⟩ := hsound
    have hlevel := h.level
    rw [hframes] at hlevel hturn
    cases hturn
    obtain ⟨before, before', containerType, hbefore, hbefore', hx, hy, hnext⟩ :=
      hlevel.lock type bytes
    have hwritten : ∀ {p : Writer} {front : Bytes}, header = front.length →
        p.written = front ++ (headerBytes containerType 0 ++ (word32 0 ++ word32 0)) →
        ∀ after, (p.perform after (.lock header type bytes)).written = front ++
          (headerBytes containerType 0 ++
            (word32 type ++ (word32 (UInt32.ofNat bytes.length) ++ bytes))) := by
      intro p front hfront hp after
      rw [hfront, perform_lock hp]
    rw [hwritten hbefore hx, hwritten hbefore' hy]
    exact hnext _
  | label bytes =>
    obtain ⟨hlen, kind, header, outer, hframes, hkind⟩ := hsound
    have hdrafts := h.level.drafts
    rw [hframes] at hdrafts hturn
    cases hturn
    apply h.level.append
    apply hdrafts.grow bytes
    · rcases hkind with rfl | ⟨unit, rfl⟩ <;> rfl
    · intro content content' hcontent
      exact hcontent.label hkind hlen
  | enter kind type lead =>
    obtain ⟨_, hturn⟩ := ensure_eq_ok_iff.mp hturn
    obtain ⟨begun, hbegin, hframes⟩ := bind_eq_ok_iff.mp hturn
    cases hframes
    obtain ⟨htype, hlead⟩ := TwinContents.enter hsound
    apply h.level.append
    exact TwinDrafts.nested h.level.drafts hbegin htype hlead
  | leave header =>
    obtain ⟨kind, outer, hframes, hawaiting⟩ := hsound
    have hlevel := h.level
    rw [hframes] at hlevel hturn
    cases hturn
    obtain ⟨before, before', content, content', type, hbefore, hbefore', hlen, hx, hy, hnext⟩ :=
      hlevel.leave hawaiting
    have hcount : w.size - (header + headerSize) = content.length := by
      rw [hbefore]
      exact size_sub_header hx
    have hbody : content.length ≤ maxBody := hcount ▸ hw.announced_le
    obtain ⟨pad, hpad, heq⟩ := perform_leave outer hx (hbefore ▸ hw.demand_le)
    obtain ⟨pad', hpad', heq'⟩ := perform_leave outer hy (hbefore' ▸ hu.demand_le)
    rw [h.zeroPadding, ← hlen] at hpad'
    rw [← hbefore, finishAtom_eq] at heq
    rw [← hbefore', finishAtom_eq] at heq'
    rw [extents, hcount]
    change Level _ _ outer _ (w.perform outer (.leave header)).written
      (u.perform outer (.leave header)).written
    rw [heq, heq']
    exact hnext pad pad' hbody hpad hpad'
  | restart buffer => exact absurd rfl (hmove buffer)

theorem announced_eq (h : w.Abreast u atoms) (move : Move) :
    u.announced move = w.announced move := by
  cases move with
  | leave header => rw [announced, announced, h.size]
  | _ => rfl

theorem demand_eq (h : w.Abreast u atoms) (move : Move) : u.demand move = w.demand move := by
  cases move with
  | leave header => rw [demand, demand, h.size]
  | _ => rfl

theorem reply_eq (h : w.Abreast u atoms) (move : Move) : u.reply move = w.reply move := by
  cases move with
  | skip count => rw [reply, reply, h.size]
  | enter kind type lead => rw [reply, reply, h.size, depth, depth, h.frames]
  | _ => rfl

theorem plan_eq (h : w.Abreast u atoms) (op : Op) : u.plan op = w.plan op := by
  simp only [plan, h.vocabulary, h.frames, h.size, h.announced_eq]

theorem perform (h : w.Abreast u atoms) (hroot : w.Rooted) (hspace : w.exhausted = false)
    (hw : w.Allows op move frames) (hu : u.Allows op move frames)
    (hgap : ∀ count, move ≠ .skip count) (hmove : ∀ buffer, move ≠ .restart buffer) :
    (w.perform frames move).Abreast (u.perform frames move) (w.extents atoms move) := by
  have hsetup := perform_setup w frames move
  have hzero : (w.perform frames move).zeroPadding = w.zeroPadding := congrArg Prod.snd hsetup
  have hframes := perform_frames hw.turn_eq
  have hpatch := hroot.patchEnd_le hw.sound
  refine ⟨?_, ?_, completed_perform h.completed frames move, ?_, ?_, ?_⟩
  · rw [hsetup, perform_setup, h.setup]
  · rw [hframes, perform_frames hu.turn_eq]
  · rw [perform_exhausted hspace, perform_exhausted (h.exhausted.trans hspace)]
  · rw [(size_perform hw.demand_le hpatch hmove).2,
      (size_perform hu.demand_le (h.size ▸ hpatch) hmove).2, h.demand_eq, h.spare]
  · rw [hframes, perform_vocabulary, hzero]
    exact h.level_perform hw hu hgap hmove

theorem reset (h : w.Abreast u atoms) (buffer : Option Bytes) :
    (w.reset (buffer.getD w.buffer)).Abreast (u.reset (buffer.getD u.buffer)) [] := by
  have hlen : (buffer.getD u.buffer).length = (buffer.getD w.buffer).length := by
    cases buffer with
    | some buffer => rfl
    | none =>
      have hsize : u.written.length = w.written.length := h.size
      simp only [Option.getD_none, Writer.buffer, List.length_append, hsize, h.spare]
  rw [Writer.reset, Writer.reset, h.vocabulary, h.zeroPadding]
  exact create _ _ hlen

theorem exhaust (h : w.Abreast u atoms) :
    { w with exhausted := true }.Abreast { u with exhausted := true } atoms :=
  ⟨h.setup, h.frames, h.completed, rfl, h.spare, h.level⟩

theorem step_of_error {w' u' : Writer} {e : WireError} (hw : w.step op = (.error e, w'))
    (hu : u.step op = (.error e, u')) (hnext : w'.Abreast u' atoms) :
    (u.step op).1 = (w.step op).1 ∧ (w.step op).2.Abreast (u.step op).2 (w.noteAtom atoms op) := by
  rw [noteAtom, hw, hu]
  exact ⟨rfl, hnext⟩

theorem step_of_space (h : w.Abreast u atoms) (hroot : w.Rooted) (hspace : w.exhausted = false)
    (hreset : op.isReset = false) (hop : ∀ count, op ≠ .reserve count) :
    (u.step op).1 = (w.step op).1 ∧ (w.step op).2.Abreast (u.step op).2 (w.noteAtom atoms op) := by
  have hspace' : u.exhausted = false := h.exhausted.trans hspace
  have hplan' := h.plan_eq op
  cases hplan : w.plan op with
  | error e =>
    rw [hplan] at hplan'
    by_cases he : e = .outOfSpace
    · subst he
      exact step_of_error (step_of_full hspace (Or.inl hplan))
        (step_of_full hspace' (Or.inl hplan')) h.exhaust
    · exact step_of_error (step_of_refused hspace he hplan) (step_of_refused hspace' he hplan') h
  | ok p =>
    obtain ⟨move, frames⟩ := p
    rw [hplan] at hplan'
    by_cases hroom : w.demand move ≤ w.spare.length
    · have hw := allows_of_plan hplan hroom
      have hu : u.Allows op move frames := allows_of_plan hplan' (by rwa [h.demand_eq, h.spare])
      have hgap : ∀ count, move ≠ .skip count := by
        rintro count rfl
        obtain ⟨count, rfl⟩ := Op.eq_reserve_of_role (Op.role_eq hw.move_eq)
        exact hop count rfl
      have hnext := h.perform hroot hspace hw hu hgap (hw.ne_restart hreset)
      rw [noteAtom, step_of_allows hspace hw, step_of_allows hspace' hu, hw.move_eq, h.reply_eq]
      exact ⟨rfl, hnext⟩
    · have hfull : w.spare.length < w.demand move := Nat.lt_of_not_le hroom
      have hfull' : u.spare.length < u.demand move := by rwa [h.demand_eq, h.spare]
      exact step_of_error (step_of_full hspace (Or.inr ⟨_, hplan, hfull⟩))
        (step_of_full hspace' (Or.inr ⟨_, hplan', hfull'⟩)) h.exhaust

theorem step (h : w.Abreast u atoms) (hroot : w.Rooted) (hop : ∀ count, op ≠ .reserve count) :
    (u.step op).1 = (w.step op).1 ∧ (w.step op).2.Abreast (u.step op).2 (w.noteAtom atoms op) := by
  cases hreset : op.isReset with
  | true =>
    cases op with
    | reset buffer =>
      rw [noteAtom, step_reset, step_reset]
      exact ⟨rfl, h.reset buffer⟩
    | _ => cases hreset
  | false =>
    cases hspace : w.exhausted with
    | true =>
      exact step_of_error (step_exhausted hspace hreset)
        (step_exhausted (h.exhausted.trans hspace) hreset) h
    | false => exact h.step_of_space hroot hspace hreset hop

theorem run (h : w.Abreast u atoms) (hroot : w.Rooted) {ops : List Op}
    (hops : ∀ count, Op.reserve count ∉ ops) :
    (u.run ops).1 = (w.run ops).1 ∧
      (w.run ops).2.Abreast (u.run ops).2 (w.finishedAtoms atoms ops) := by
  induction ops generalizing w u atoms with
  | nil => exact ⟨rfl, h⟩
  | cons op rest ih =>
    have hop : ∀ count, op ≠ .reserve count :=
      fun count heq => hops count (heq ▸ List.mem_cons_self)
    have hrest : ∀ count, Op.reserve count ∉ rest :=
      fun count hmem => hops count (List.mem_cons_of_mem op hmem)
    obtain ⟨hanswer, hnext⟩ := h.step hroot hop
    obtain ⟨hanswers, hend⟩ := ih hnext (hroot.step op) hrest
    rw [Writer.run, Writer.run, hanswer, hanswers]
    exact ⟨rfl, hend⟩

end Abreast

theorem executeAll_concat (w : Writer) (ops : List Op) (op : Op) :
    (w.executeAll (ops ++ [op])).2 = ((w.executeAll ops).2.execute op).2 := by
  rw [executeAll_append]
  rfl

/-- A reset makes a writer as good as new, whatever it did before. -/
theorem executeAll_reset (v : Vocabulary) (zeroPadding : Bool) (old : Bytes) (history : List Op)
    (again : Option Bytes) :
    let used := ((create v zeroPadding old).executeAll (history ++ [.reset again])).2
    ∃ buffer, used = create v zeroPadding buffer ∧ used.capacity = buffer.length := by
  intro used
  let w := ((create v zeroPadding old).executeAll history).2
  have hsetup : w.setup = (v, zeroPadding) := executeAll_setup v zeroPadding old history
  have hvocabulary : w.vocabulary = v := executeAll_vocabulary v zeroPadding old history
  have hzero : w.zeroPadding = zeroPadding := congrArg Prod.snd hsetup
  have hreset : used = w.reset (again.getD w.buffer) := executeAll_concat _ history (.reset again)
  have hnew : used = create v zeroPadding (again.getD w.buffer) := by
    rw [hreset, reset, hvocabulary, hzero]
  refine ⟨again.getD w.buffer, hnew, ?_⟩
  rw [hnew]
  rfl

end Writer

/-- A writer is new, another one has been used and reset over as large a buffer; all else
that they share are vocabulary and options. Any calls but bare reservations are answered
alike and leave the same bytes behind, padding apart that is not zeroed. Once no container
is open, a survey of either to any depth finds the same. -/
theorem executeAll_trackless (v : Vocabulary) (zeroPadding : Bool) (buffer old : Bytes)
    (history : List Op) (again : Option Bytes) (ops : List Op)
    (hops : ∀ count, Op.reserve count ∉ ops) :
    let fresh := Writer.create v zeroPadding buffer
    let used := ((Writer.create v zeroPadding old).executeAll (history ++ [.reset again])).2
    used.capacity = buffer.length →
      let left := fresh.executeAll ops
      let right := used.executeAll ops
      let atoms := fresh.finishedAtoms [] ops
      right.1 = left.1 ∧ right.2.size = left.2.size ∧ right.2.depth = left.2.depth ∧
      right.2.exhausted = left.2.exhausted ∧ right.2.isComplete = left.2.isComplete ∧
      (zeroPadding = true → right.2.written = left.2.written) ∧
      (∀ pos, ¬ InPadding atoms pos → right.2.written[pos]? = left.2.written[pos]?) ∧
      (left.2.depth = 0 → ∀ t : UriTable, t.resolve.2.size < UInt32.size → v = t.resolve.1 →
        ∀ memory memory' levels,
          (Source.mk v ⟨memory', right.2.written⟩).surveysTo levels =
            (Source.mk v ⟨memory, left.2.written⟩).surveysTo levels) := by
  intro fresh used hcapacity left right atoms
  obtain ⟨other, hused, hother⟩ := Writer.executeAll_reset v zeroPadding old history again
  have hlength : other.length = buffer.length := hother.symm.trans hcapacity
  have hroot := Writer.Rooted.create v zeroPadding buffer
  obtain ⟨hleftAnswers, hleft⟩ : left.1 = _ ∧ left.2.Mirrors _ :=
    (Writer.Mirrors.refl _).executeAll hroot ops
  obtain ⟨hrightAnswers, hright⟩ : right.1 = _ ∧ right.2.Mirrors _ := by
    simp only [right, used, hused]
    exact (Writer.Mirrors.refl _).executeAll (Writer.Rooted.create v zeroPadding other) ops
  -- The computed runs go side by side, and those in place mirror them.
  obtain ⟨hanswers, hend⟩ := (Writer.Abreast.create v zeroPadding hlength).run hroot hops
  have hlevel := hend.level
  rw [Writer.run_vocabulary, Writer.run_zeroPadding, ← hleft.written, ← hright.written] at hlevel
  refine ⟨?_, hright.size.trans (hend.size.trans hleft.size.symm), ?_,
    hright.exhausted.trans (hend.exhausted.trans hleft.exhausted.symm),
    hright.isComplete.trans (hend.isComplete.trans hleft.isComplete.symm), hlevel.zeros, ?_, ?_⟩
  · rw [hleftAnswers, hrightAnswers, hanswers]
  · have hdepth := congrArg List.length hend.frames
    exact hright.depth.trans (hdepth.trans hleft.depth.symm)
  · intro pos hpos
    exact (hlevel.agrees.getElem?_eq pos hpos).symm
  · rintro hdepth t hsize rfl memory memory' levels
    have hframes := List.length_eq_zero_iff.mp (hleft.depth.symm.trans hdepth)
    have hdrafts := hlevel.drafts
    rw [hframes] at hdrafts
    obtain ⟨records, others, htwins, hx, hy⟩ := hdrafts.exists_twins
    symm
    exact htwins.surveysTo_eq (s := ⟨_, ⟨memory, left.2.written⟩⟩)
      (t := ⟨_, ⟨memory', right.2.written⟩⟩) (UriTable.resolved_of_size_lt hsize) rfl hx hy levels

/-- Space ran out before the reset, with a typed vector open in a tuple. The padding behind
a value still shows the old bytes. -/
theorem executeAll_trackless_dirty :
    let v := UriTable.empty.resolve.1
    let buffer : Bytes := List.replicate 48 7
    let old : Bytes := List.replicate 48 9
    let history : List Op := .pushTuple :: .pushVector 0 0 :: List.replicate 7 (.value (.int 1))
    let ops : List Op := [.pushObject 3 0, .property 9 0, .value (.int 5), .pop]
    let dirty := ((Writer.create v false old).executeAll history).2
    let used := ((Writer.create v false old).executeAll (history ++ [.reset none])).2
    let left := (Writer.create v false buffer).executeAll ops
    let right := used.executeAll ops
    dirty.exhausted = true ∧ dirty.depth = 2 ∧ used.capacity = buffer.length ∧
      right.1 = left.1 ∧ right.2.written[35]? = left.2.written[35]? ∧
      right.2.written[36]? ≠ left.2.written[36]? ∧
      (Source.mk v ⟨some 1, right.2.written⟩).surveysTo 3 =
        (Source.mk v ⟨some 0, left.2.written⟩).surveysTo 3 := by
  intro v buffer old history ops dirty used left right
  have hruns : dirty.exhausted = true ∧ dirty.depth = 2 ∧ used.capacity = buffer.length ∧
      left.2.depth = 0 ∧ right.2.written[36]? ≠ left.2.written[36]? ∧
      (Writer.create v false buffer).finishedAtoms [] ops = [⟨0, 32⟩, ⟨24, 4⟩] := by
    decide +kernel
  obtain ⟨hexhausted, hdirty, hcapacity, hdepth, hpadding, hatoms⟩ := hruns
  obtain ⟨hanswers, _, _, _, _, _, hbytes, hsurveys⟩ :=
    executeAll_trackless v false buffer old history none ops (by simp [ops]) hcapacity
  have hbody : ¬ InPadding ((Writer.create v false buffer).finishedAtoms [] ops) 35 := by
    rw [hatoms]
    simp [InPadding, headerSize, padding]
  refine ⟨hexhausted, hdirty, hcapacity, hanswers, ?_, hpadding, ?_⟩
  · simp only [right, used, left]
    exact hbytes 35 hbody
  · simp only [right, used, left] at hdepth ⊢
    exact hsurveys hdepth UriTable.empty (by decide +kernel) rfl (some 0) (some 1) 3

end AtomWire

import AtomWire.Host.Write
import AtomWire.Proofs.Footprints
import AtomWire.Proofs.RoundTrip
import AtomWire.Proofs.Routines

/-!
# What calls leave in the memory of the caller

A call with one result stores it exactly if it succeeds. A call for a text tells the length
of every text there is, and copies the text, with a zero byte behind it, only into room
that holds both; so a call that found too little room can be repeated with enough. Texts
that were written or mapped by a host are found again, whatever the host does afterwards.
-/

namespace AtomWire

set_option autoImplicit false

namespace UriTable

variable {t t' : UriTable} {uri : Bytes}

theorem size_map_le (t : UriTable) (uri : Bytes) : (t.map uri).2.size ≤ t.size + 1 := by
  unfold map
  split
  · exact Nat.le_succ _
  · split <;> simp [size]

/-- The id of a URI leads back to it, also in a table that has grown since. -/
theorem unmap_of_map (hid : (t.map uri).1 ≠ 0) (hsize : t.size < UInt32.size)
    (hgrown : (t.map uri).2.uris <+: t'.uris) : t'.unmap (t.map uri).1 = some uri := by
  have huri : uri ≠ [] := fun hempty => hid (by rw [hempty]; rfl)
  obtain ⟨index, heq, hplaces, _⟩ := map_places huri
  have hlt := Nat.lt_of_lt_of_le hplaces.lt_size (t.size_map_le uri)
  -- The last id that there could be is 0 again.
  have hlast : index + 1 ≠ UInt32.size := fun hlast => hid (by rw [heq, hlast]; rfl)
  have hnat : (t.map uri).1.toNat = index + 1 := by
    rw [heq]
    exact UInt32.toNat_ofNat_of_lt' (by omega)
  rw [unmap, if_neg hid, hnat, Nat.add_sub_cancel]
  exact (hplaces.extend hgrown).getElem?

end UriTable

namespace Host

variable {α : Type} {lexicon : Option Lexicon} {memory : Memory} {offset : Nat}

namespace Routine

/-- The routine ends as the answer does and stores what is answered, all of it and nothing
else; it stores exactly if it succeeds. -/
structure Delivers (p : Routine Unit) (a : Answer α) (record : α → List Store) : Prop where
  status_eq : p.status = a.status
  stores_eq : p.stores = (a.stored.map record).getD []
  ok_iff : p.status = .ok ↔ p.stores ≠ []

theorem delivers_ofAnswer {a : Answer α} {record : α → List Store} (ha : a.Sound)
    (hrecord : ∀ value, record value ≠ []) :
    (ofAnswer a >>= fun value => storeAll (record value)).Delivers a record := by
  cases hstored : a.stored with
  | none =>
    have hstatus : a.status ≠ .ok := fun hok => by simpa [hstored] using ha.mp hok
    constructor <;> simp [ofAnswer, hstored, hstatus]
  | some value =>
    have hstatus : a.status = .ok := ha.mpr (by rw [hstored]; rfl)
    constructor <;> simp [ofAnswer, storeAll, status, hstored, hstatus, hrecord]

/-- The routine stores at an index of the room for a text. -/
def Touches (p : Routine Unit) (index : Nat) : Prop :=
  ∃ start bytes, .bytes start bytes ∈ p.stores ∧ start ≤ index ∧ index < start + bytes.length

theorem touches_copyText {text : Bytes} {room : Bool} {capacity index : Nat} :
    (copyText text room capacity).Touches index ↔
      room = true ∧ text.length < capacity ∧ index < text.length + 1 := by
  simp only [Touches, stores_copyText]
  by_cases hfits : (room && text.length < capacity) = true
  · rw [if_pos hfits]
    simp only [Bool.and_eq_true, decide_eq_true_eq] at hfits
    constructor
    · rintro ⟨start, bytes, hmem, hfirst, hlast⟩
      simp at hmem
      rcases hmem with ⟨rfl, rfl⟩ | ⟨rfl, rfl⟩
      · exact ⟨hfits.1, hfits.2, by omega⟩
      · exact ⟨hfits.1, hfits.2, by simpa using hlast⟩
    · rintro ⟨_, _, hindex⟩
      by_cases hlast : index < text.length
      · exact ⟨0, text, by simp, by omega, by omega⟩
      · exact ⟨text.length, [0], by simp, by omega, by simpa using hindex⟩
  · rw [if_neg hfits]
    simp only [Bool.and_eq_true, decide_eq_true_eq] at hfits
    constructor
    · rintro ⟨start, bytes, hmem, _⟩
      simp at hmem
    · rintro ⟨hroom, hlt, _⟩
      exact absurd ⟨hroom, hlt⟩ hfits

/-- How a text is handed out, if there is one, by a call that is given some room or none. -/
structure HandsOut (text : Option Bytes) (call : Bool → Nat → Routine Unit) : Prop where
  /-- The length is stored if there is a text, and nothing else is ever stored as a length. -/
  told : ∀ room capacity length, .length length ∈ (call room capacity).stores ↔
    ∃ t, text = some t ∧ length = t.length
  found : ∀ room capacity,
    ((call room capacity).status = .ok ∨ (call room capacity).status = .bufferTooSmall) ↔
      text.isSome = true
  small : ∀ room capacity, (call room capacity).status = .bufferTooSmall ↔
    ∃ t, text = some t ∧ (room = false ∨ capacity ≤ t.length)
  /-- Only a success touches the room. -/
  spared : ∀ room capacity index, (call room capacity).Touches index →
    (call room capacity).status = .ok
  copied : ∀ room capacity, (call room capacity).status = .ok → ∃ t, text = some t ∧
    (∀ index, (call room capacity).Touches index ↔ index < t.length + 1) ∧
    ∀ bytes, (call room capacity).fill bytes = t ++ 0 :: bytes.drop (t.length + 1)
  /-- After too little room the length that was told is enough. -/
  repeated : ∀ room capacity length, (call room capacity).status = .bufferTooSmall →
    .length length ∈ (call room capacity).stores → (call true (length + 1)).status = .ok

theorem handsOut_of_eq {text : Option Bytes} {call : Bool → Nat → Routine Unit} (status : Status)
    (hok : status ≠ .ok) (hsmall : status ≠ .bufferTooSmall)
    (h : ∀ room capacity, call room capacity =
      text.elim (fail status) fun t => copyText t room capacity) : HandsOut text call := by
  cases text with
  | none =>
    replace h : ∀ room capacity, call room capacity = fail status := h
    constructor <;> simp [h, hok, hsmall, Touches]
  | some t =>
    replace h : ∀ room capacity, call room capacity = copyText t room capacity := h
    constructor
    · intro room capacity length
      rw [h, stores_copyText]
      split <;> simp
    · intro room capacity
      rw [h, status_copyText]
      split <;> simp
    · intro room capacity
      rw [h, status_copyText]
      cases room <;> simp
    · intro room capacity index htouches
      rw [h] at htouches ⊢
      obtain ⟨hroom, hlt, _⟩ := touches_copyText.mp htouches
      simp [status_copyText, hroom, hlt]
    · intro room capacity hstatus
      rw [h] at hstatus ⊢
      rw [status_copyText] at hstatus
      split at hstatus
      · rename_i hfits
        refine ⟨t, rfl, ?_, ?_⟩
        · simp only [Bool.and_eq_true, decide_eq_true_eq] at hfits
          simp [touches_copyText, hfits]
        · intro bytes
          rw [fill_copyText, if_pos hfits]
          simp [overwrite]
      · cases hstatus
    · intro room capacity length _ hlength
      rw [h, stores_copyText] at hlength
      have hsame : length = t.length := by
        split at hlength <;> simpa using hlength
      rw [h, status_copyText]
      simp [hsame]

end Routine

/-- The URI of an id, if there is one. -/
def uriOf (lexicon : Option Lexicon) (id : TypeId) : Option Bytes :=
  lexicon.bind fun l => l.table.unmap id

/-- The text of the string at an offset, if there is one. -/
def stringAt (lexicon : Option Lexicon) (memory : Memory) (offset : Nat) : Option Bytes :=
  (sourceOf lexicon memory).bind fun s => (s.atomAt offset >>= s.text .string).toOption

open Routine (HandsOut handsOut_of_eq)

theorem handsOut_unmapUri (lexicon : Option Lexicon) (id : TypeId) :
    HandsOut (uriOf lexicon id) fun room capacity =>
      Routine.unmapUri lexicon id room capacity true := by
  cases lexicon with
  | none => exact handsOut_of_eq .nullPointer nofun nofun fun _ _ => rfl
  | some l =>
    refine handsOut_of_eq .notFound nofun nofun fun room capacity => ?_
    cases huri : l.table.unmap id <;> simp [Routine.unmapUri, uriOf, huri]

theorem handsOut_readString (lexicon : Option Lexicon) (memory : Memory) (offset : Nat) :
    HandsOut (stringAt lexicon memory offset) fun room capacity =>
      Routine.readString lexicon memory offset room capacity true := by
  cases hsource : sourceOf lexicon memory with
  | none =>
    refine handsOut_of_eq .nullPointer nofun nofun fun room capacity => ?_
    simp [Routine.readString, Routine.atomAt, stringAt, hsource]
  | some s =>
    have hread : ∀ room capacity,
        Routine.readString lexicon memory offset room capacity true =
          Routine.check (s.atomAt offset >>= s.text .string) >>= fun text =>
            Routine.copyText text room capacity := by
      intro room capacity
      rw [Routine.readString_eq, readAtom_of_source hsource, Routine.ofAnswer_ofExcept]
    simp only [hread, stringAt, hsource, Option.bind_some]
    cases s.atomAt offset >>= s.text .string with
    | error e => exact handsOut_of_eq (.wire e) nofun nofun fun _ _ => rfl
    | ok text => exact handsOut_of_eq .nullPointer nofun nofun fun _ _ => rfl

/-- The lexicon after some calls that map a URI, with a place for its id or without one. -/
def mapAll (lexicon : Option Lexicon) (calls : List (Option Bytes × Bool)) : Option Lexicon :=
  calls.foldl (fun l call => (mapUri l call.1 call.2).2) lexicon

theorem mapUri_extends (l : Lexicon) (uri : Option Bytes) (wanted : Bool) :
    ∃ l', (mapUri (some l) uri wanted).2 = some l' ∧ l.table.uris <+: l'.table.uris := by
  unfold mapUri
  split
  · rename_i l uri hl
    cases hl
    refine ⟨_, rfl, ?_⟩
    by_cases huri : untilZero uri = []
    · simp [UriTable.map, huri]
    · obtain ⟨_, _, _, hgrown⟩ := UriTable.map_places huri
      exact hgrown
  · exact ⟨l, rfl, List.prefix_refl _⟩

theorem mapAll_extends (l : Lexicon) (calls : List (Option Bytes × Bool)) :
    ∃ l', mapAll (some l) calls = some l' ∧ l.table.uris <+: l'.table.uris := by
  induction calls generalizing l with
  | nil => exact ⟨l, rfl, List.prefix_refl _⟩
  | cons call rest ih =>
    obtain ⟨next, hnext, hfirst⟩ := mapUri_extends l call.1 call.2
    obtain ⟨last, hlast, hrest⟩ := ih next
    refine ⟨last, ?_, hfirst.trans hrest⟩
    rw [← hlast, ← hnext]
    rfl

theorem mapUri_eq_ok {l l' : Lexicon} {uri : Bytes} {id : TypeId}
    (h : mapUri (some l) (some uri) true = (⟨.ok, some id⟩, some l')) :
    id ≠ 0 ∧ id = (l.table.map (untilZero uri)).1 ∧
      l'.table = (l.table.map (untilZero uri)).2 := by
  obtain ⟨hanswer, hnext⟩ := Prod.mk.inj h
  split at hanswer
  · cases hanswer
  · rename_i hid
    cases hanswer
    cases hnext
    exact ⟨hid, rfl, rfl⟩

/-- As long as ids are left, a URI is found under the id that it got, ever after. -/
theorem uriOf_mapAll {l l' : Lexicon} {uri : Bytes} {id : TypeId}
    (h : mapUri (some l) (some uri) true = (⟨.ok, some id⟩, some l'))
    (hsize : l.table.size < UInt32.size) (later : List (Option Bytes × Bool)) :
    uriOf (mapAll (some l') later) id = some (untilZero uri) := by
  obtain ⟨hid, rfl, htable⟩ := mapUri_eq_ok h
  obtain ⟨last, hlast, hgrown⟩ := mapAll_extends l' later
  rw [htable] at hgrown
  rw [hlast]
  exact UriTable.unmap_of_map hid hsize hgrown

/-- A writer that a host has made with the lexicon and used in any way. -/
inductive Held (l : Lexicon) : Writer → Prop where
  | created {memory : Memory} {w : Writer} (h : createWriter (some l) memory true = ⟨.ok, some w⟩) :
      Held l w
  | written {w w' : Writer} (call : Call) (hw : Held l w) (h : (write (some w) call).2 = some w') :
      Held l w'
  | restarted {w w' : Writer} (memory : Memory) (hw : Held l w)
      (h : (resetWriter (some w) memory).2 = some w') : Held l w'

def writeAll (writer : Option Writer) (calls : List Call) : Option Writer :=
  calls.foldl (fun w call => (write w call).2) writer

/-- The writer after a call: that of the operation, if the arguments make one. -/
theorem write_writer (w : Writer) (call : Call) :
    (write (some w) call).2 = some (call.op.toOption.elim w fun op => (w.step op).2) := by
  unfold write
  cases call.op with
  | error status => rfl
  | ok op =>
    cases hstep : w.step op with
    | mk answer next => cases answer <;> simp [hstep, Except.toOption]

/-- No call of these starts anew. -/
theorem Call.isReset_of_op {call : Call} {op : Op} (h : call.op = .ok op) : op.isReset = false := by
  cases call with
  | string text =>
    cases text <;> cases h
    rfl
  | pushSequence unit =>
    simp only [Call.op] at h
    split at h
    · cases h
      rfl
    · split at h <;> cases h
      rfl
  | element memory =>
    simp only [Call.op] at h
    split at h <;> cases h
    rfl
  | _ => cases h; rfl

theorem writeAll_eq (w : Writer) (calls : List Call) :
    writeAll (some w) calls = some (w.run (calls.filterMap fun call => call.op.toOption)).2 := by
  induction calls generalizing w with
  | nil => rfl
  | cons call rest ih =>
    rw [writeAll, List.foldl_cons, write_writer, List.filterMap_cons]
    cases call.op with
    | error status => exact ih w
    | ok op => exact ih (w.step op).2

theorem Held.sealed {l : Lexicon} {w : Writer} (h : Held l w) :
    w.vocabulary = l.vocabulary ∧ w.Rooted ∧ ∃ atoms, w.Sealed atoms := by
  induction h with
  | @created memory w h =>
    cases hbytes : memory.bytes? with
    | none => simp [createWriter, hbytes, Answer.fail] at h
    | some buffer =>
      simp only [createWriter, hbytes, Answer.mk.injEq, Option.some.injEq, true_and] at h
      subst h
      exact ⟨rfl, Writer.Rooted.create _ _ _, [], Writer.Sealed.create _ _ _⟩
  | @written w w' call _ h ih =>
    obtain ⟨hvocabulary, hroot, atoms, hsealed⟩ := ih
    rw [write_writer] at h
    cases hop : call.op with
    | error status =>
      simp only [hop, Except.toOption, Option.elim, Option.some.injEq] at h
      subst h
      exact ⟨hvocabulary, hroot, atoms, hsealed⟩
    | ok op =>
      simp only [hop, Except.toOption, Option.elim, Option.some.injEq] at h
      subst h
      have hsetup : (w.step op).2.vocabulary = w.vocabulary := congrArg Prod.fst (w.step_setup op)
      exact ⟨hsetup.trans hvocabulary, hroot.step op, _, hsealed.step hroot op⟩
  | @restarted w w' memory _ h ih =>
    obtain ⟨hvocabulary, hroot, atoms, hsealed⟩ := ih
    cases hbytes : memory.bytes? with
    | none =>
      simp only [resetWriter, hbytes, Option.some.injEq] at h
      subst h
      exact ⟨hvocabulary, hroot, atoms, hsealed⟩
    | some buffer =>
      simp only [resetWriter, hbytes, Option.some.injEq] at h
      subst h
      exact ⟨hvocabulary, Writer.Rooted.create _ _ _, [], Writer.Sealed.create _ _ _⟩

end Host

namespace Writer

variable {w w' : Writer}

/-- A text that is written stands as a record behind what was written before. -/
theorem step_text {form : TextForm} {content : Bytes} {reply : Reply}
    (h : w.step (.text form content) = (.ok reply, w')) :
    w.vocabulary.id form.term ≠ 0 ∧ ∃ record : Record, record.Fits 0 ∧
      record.type = w.vocabulary.id form.term ∧ record.body = content ++ [0] ∧
      w'.written = w.written ++ record.bytes ∧
      ∀ atoms, ⟨w.size, record.body.length⟩ ∈ w.noteAtom atoms (.text form content) := by
  obtain ⟨move, frames, hallows, _, rfl⟩ := step_ok h
  obtain ⟨hid, rfl⟩ := Op.typedMove_eq_ok_iff.mp hallows.move_eq
  obtain ⟨pad, hpad, hperform⟩ := perform_leaf frames hallows.demand_le
  refine ⟨hid, ⟨[], w.vocabulary.id form.term, content ++ [0], pad⟩,
    ⟨rfl, hallows.announced_le, hpad.1⟩, rfl, rfl, ?_, ?_⟩
  · rw [hperform, finishAtom_eq]
    rfl
  · intro atoms
    rw [noteAtom, h, hallows.move_eq]
    exact List.mem_cons_self

/-- Text that is written can be read at its place from then on, whatever is written later. -/
theorem Sealed.shows_text {form : TextForm} {content : Bytes} {reply : Reply} {ops : List Op}
    {atoms : List Extent} (hsealed : w.Sealed atoms) (hroot : w.Rooted)
    (h : w.step (.text form content) = (.ok reply, w'))
    (hreset : ∀ op ∈ ops, op.isReset = false) {count : Nat} (hcount : w'.size ≤ count) :
    w.vocabulary.id form.term ≠ 0 ∧ ∃ record : Record, record.Fits 0 ∧
      record.type = w.vocabulary.id form.term ∧ record.body = content ++ [0] ∧
      ∀ memory, (Block.mk memory ((w'.run ops).2.buffer.take count)).Shows w.size
        record.bytes := by
  obtain ⟨hid, record, hfit, htype, hbody, hwritten, hnoted⟩ := step_text h
  refine ⟨hid, record, hfit, htype, hbody, fun memory => ?_⟩
  have hnext := hsealed.step hroot (.text form content)
  rw [h] at hnext
  have hroot' := hroot.step (.text form content)
  rw [h] at hroot'
  have hlen := Record.length_bytes hfit
  have hsize : w'.size = w.size + record.bytes.length := by
    rw [size, hwritten, List.length_append]
    rfl
  -- The later calls leave the finished atom alone.
  have hkept : slice (w'.run ops).2.buffer w.size record.bytes.length =
      slice w'.buffer w.size record.bytes.length := by
    apply slice_congr
    intro pos hfirst hstop
    apply hnext.getElem?_run hroot' hreset (hnoted atoms) hfirst
    simp only [Extent.stop]
    omega
  have hshown : slice w'.buffer w.size record.bytes.length = record.bytes := by
    rw [slice, buffer, hwritten, size, List.append_assoc, List.drop_left, List.take_left]
  have hinside : w.size + record.bytes.length ≤ count := by omega
  rw [Block.Shows, List.drop_take, ← hshown, ← hkept, slice]
  exact List.take_prefix_take_left (by omega)

end Writer

namespace Host

theorem step_of_write_ok {w w' : Writer} {call : Call} {op : Op} (hop : call.op = .ok op)
    (h : write (some w) call = (.ok, some w')) : ∃ reply, w.step op = (.ok reply, w') := by
  simp only [write, hop] at h
  cases hstep : w.step op with
  | mk answer next =>
    rw [hstep] at h
    cases answer with
    | error e => cases h
    | ok reply =>
      cases h
      exact ⟨reply, rfl⟩

theorem stringAt_of_write {l l' : Lexicon} {w w' w'' : Writer} {text : Bytes} {later : List Call}
    {count : Nat} (hheld : Held l w) (h : write (some w) (.string (some text)) = (.ok, some w'))
    (hlater : writeAll (some w') later = some w'') (hl : l'.vocabulary = l.vocabulary)
    (hcount : w'.size ≤ count) :
    stringAt (some l') (.given (w''.buffer.take count)) w.size = some (untilZero text) := by
  obtain ⟨hvocabulary, hroot, atoms, hsealed⟩ := hheld.sealed
  obtain ⟨reply, hstep⟩ := step_of_write_ok rfl h
  rw [writeAll_eq] at hlater
  cases hlater
  have hreset : ∀ op ∈ later.filterMap fun call => call.op.toOption, op.isReset = false := by
    intro op hop
    obtain ⟨call, _, hcall⟩ := List.mem_filterMap.mp hop
    cases hmade : call.op with
    | error status => simp [hmade, Except.toOption] at hcall
    | ok made =>
      simp only [hmade, Except.toOption, Option.some.injEq] at hcall
      exact Call.isReset_of_op (hcall ▸ hmade)
  obtain ⟨hid, record, hfit, htype, hbody, hshows⟩ :=
    hsealed.shows_text hroot hstep hreset hcount
  rw [hvocabulary, ← hl] at hid htype
  simp only [stringAt, sourceOf, Option.bind_some]
  rw [Source.atomAt_record (hshows (some 0)) hfit, ok_bind,
    Source.text_record hid (hshows (some 0)) hfit htype hbody]
  rfl

end Host

end AtomWire

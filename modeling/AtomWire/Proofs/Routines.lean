import AtomWire.Host.Routine
import AtomWire.Proofs.Moves

/-!
# Routines and answers

A routine comes to its result before it stores anything. So it is the answer of the same
call, followed by the stores of what is answered.
-/

namespace AtomWire.Host

set_option autoImplicit false

variable {α β : Type} {lexicon : Option Lexicon} {memory : Memory} {offset : Nat} {wanted : Bool}

namespace Answer

/-- A value is stored exactly if the call succeeds. -/
def Sound (a : Answer α) : Prop := a.status = .ok ↔ a.stored.isSome = true

theorem sound_fail {status : Status} (h : status ≠ .ok) : (fail status : Answer α).Sound := by
  simp [Sound, fail, h]

theorem sound_ofExcept (x : Except WireError α) : (ofExcept x).Sound := by
  cases x with
  | ok a => simp [Sound, ofExcept]
  | error e => exact sound_fail nofun

end Answer

theorem sound_readAtom (lexicon : Option Lexicon) (memory : Memory) (offset : Nat) (wanted : Bool)
    (f : Source → AtomView → Except WireError α) :
    (readAtom lexicon memory offset wanted f).Sound := by
  unfold readAtom
  split
  · exact Answer.sound_ofExcept _
  · exact Answer.sound_fail nofun

theorem readAtom_of_source {s : Source} (hsource : sourceOf lexicon memory = some s)
    (f : Source → AtomView → Except WireError α) :
    readAtom lexicon memory offset true f = .ofExcept (s.atomAt offset >>= f s) := by
  simp only [readAtom, hsource]

theorem sound_mapUri (lexicon : Option Lexicon) (uri : Option Bytes) (wanted : Bool) :
    (mapUri lexicon uri wanted).1.Sound := by
  unfold mapUri
  split
  · dsimp only
    split
    · exact Answer.sound_fail nofun
    · simp [Answer.Sound]
  · exact Answer.sound_fail nofun

namespace Routine

@[simp] theorem pure_bind (a : α) (f : α → Routine β) : (pure a >>= f) = f a := rfl

@[simp] theorem fail_bind (status : Status) (f : α → Routine β) :
    (fail status >>= f) = fail status := rfl

@[simp] theorem stores_store_bind (s : Store) (f : Unit → Routine Unit) :
    (store s >>= f).stores = s :: (f ()).stores := rfl

@[simp] theorem status_store_bind (s : Store) (f : Unit → Routine Unit) :
    (store s >>= f).status = (f ()).status := rfl

@[simp] theorem require_bind (condition : Bool) (status : Status) (f : Unit → Routine α) :
    (require condition status >>= f) = if condition then f () else fail status := by
  cases condition <;> rfl

@[simp] theorem status_fail (status : Status) : (fail status : Routine Unit).status = status := rfl

@[simp] theorem stores_fail (status : Status) : (fail status : Routine α).stores = [] := rfl

@[simp] theorem given_some_bind (a : α) (f : α → Routine β) : (given (some a) >>= f) = f a := rfl

@[simp] theorem given_none_bind (f : α → Routine β) :
    (given none >>= f) = fail .nullPointer := rfl

@[simp] theorem check_ok (a : α) : check (.ok a) = pure a := rfl

@[simp] theorem check_error (e : WireError) : (check (.error e) : Routine α) = fail (.wire e) := rfl

/-- Ends as an answer does, without a store. -/
def ofAnswer (a : Answer α) : Routine α :=
  match a.stored with
  | some value => pure value
  | none => fail a.status

def storeAll (stores : List Store) : Routine Unit := ⟨stores, .ok ()⟩

theorem ofAnswer_ofExcept (x : Except WireError α) : ofAnswer (.ofExcept x) = check x := by
  cases x <;> rfl

/-- What is read of an atom is read before anything is stored. -/
theorem atomAt_bind (f : Source → AtomView → Except WireError α) (g : α → Routine β) :
    (atomAt lexicon memory offset wanted >>= fun x => check (f x.1 x.2) >>= g) =
      ofAnswer (readAtom lexicon memory offset wanted f) >>= g := by
  unfold atomAt readAtom
  cases wanted with
  | false => cases sourceOf lexicon memory <;> rfl
  | true =>
    cases hsource : sourceOf lexicon memory with
    | none => rfl
    | some s =>
      rw [ofAnswer_ofExcept]
      cases hatom : s.atomAt offset <;> simp [hatom]

theorem readHeader_eq : readHeader lexicon memory offset wanted =
    ofAnswer (Host.readHeader lexicon memory offset wanted) >>= fun h =>
      storeAll [.type h.type, .bodySize h.bodySize, .next h.next] :=
  atomAt_bind (fun _ view => .ok (⟨view.type, view.bodySize, view.next⟩ : Header)) fun h =>
    storeAll [.type h.type, .bodySize h.bodySize, .next h.next]

theorem readScalar_eq (kind : ScalarKind) : readScalar kind lexicon memory offset wanted =
    ofAnswer (Host.readScalar kind lexicon memory offset wanted) >>= fun value =>
      storeAll [.scalar value] :=
  atomAt_bind (fun s view => s.scalarOf kind view) fun value => storeAll [.scalar value]

theorem readString_eq (room : Bool) (capacity : Nat) :
    readString lexicon memory offset room capacity wanted =
      ofAnswer (readAtom lexicon memory offset wanted fun s view => s.text .string view) >>=
        fun text => copyText text room capacity :=
  atomAt_bind (fun s view => s.text .string view) fun text => copyText text room capacity

/-- The loop counts on what a count of the rest comes to. -/
theorem countItems_eq (items : List (Except WireError α)) (count : Nat) :
    countItems items count = check ((Host.countItems items).map (· + count)) := by
  induction items generalizing count with
  | nil => simp [countItems, Host.countItems, check]
  | cons item rest ih =>
    cases item with
    | error e => rfl
    | ok a =>
      rw [countItems, ih, Host.countItems]
      cases Host.countItems rest with
      | error e => rfl
      | ok n => simp [check, Nat.add_assoc, Nat.add_comm 1 count]

theorem tupleChildCount_eq : tupleChildCount lexicon memory offset wanted =
    ofAnswer (Host.tupleChildCount lexicon memory offset wanted) >>= fun count =>
      storeAll [.count count] := by
  rw [Host.tupleChildCount, ← atomAt_bind]
  unfold tupleChildCount
  congr 1
  funext ⟨s, view⟩
  cases htuple : s.tuple view with
  | error e => simp [htuple]
  | ok children =>
    simp only [htuple, check_ok, pure_bind, ok_bind, countItems_eq]
    cases Host.countItems children.items <;> rfl

theorem mapUri_eq (uri : Option Bytes) : mapUri lexicon uri wanted =
    ofAnswer (Host.mapUri lexicon uri wanted).1 >>= fun id => storeAll [.id id] := by
  cases lexicon with
  | none => rfl
  | some l =>
    cases uri with
    | none => rfl
    | some uri =>
      cases wanted with
      | false => rfl
      | true =>
        simp only [mapUri, Host.mapUri, given_some_bind, require_bind, if_true]
        by_cases hid : (l.table.map (untilZero uri)).1 = 0
        · simp [hid, ofAnswer, Answer.fail]
        · simp only [hid, ne_eq, not_false_eq_true, decide_true, if_true, if_false]
          rfl

section Texts

variable {text : Bytes} {room : Bool} {capacity : Nat}

theorem textAnswer_fail (status : Status) (room : Option Bytes) :
    (fail status).textAnswer room = ⟨status, none, room⟩ := by
  cases room <;> rfl

theorem stores_copyText : (copyText text room capacity).stores = .length text.length ::
    if room && text.length < capacity then [.bytes 0 text, .bytes text.length [0]] else [] := by
  rw [copyText, stores_store_bind, require_bind]
  split <;> rfl

theorem status_copyText : (copyText text room capacity).status =
    if room && text.length < capacity then .ok else .bufferTooSmall := by
  rw [copyText, status_store_bind, require_bind]
  split <;> rfl

/-- Two stores, one behind the other, are one. -/
theorem overwrite_overwrite (bytes x y : Bytes) :
    overwrite (overwrite bytes 0 x) x.length y = overwrite bytes 0 (x ++ y) := by
  simp [overwrite, List.drop_drop]

theorem fill_copyText (text : Bytes) (room : Bool) (capacity : Nat) (bytes : Bytes) :
    (copyText text room capacity).fill bytes =
      if room && text.length < capacity then overwrite bytes 0 (text ++ [0]) else bytes := by
  rw [Routine.fill, stores_copyText]
  split
  · exact overwrite_overwrite bytes text [0]
  · rfl

theorem textAnswer_copyText (text : Bytes) (room : Option Bytes) :
    (copyText text room.isSome (room.getD []).length).textAnswer room =
      Host.copyText text room := by
  rw [textAnswer, status_copyText, stores_copyText]
  cases room with
  | none => rfl
  | some bytes =>
    simp only [Option.isSome_some, Option.getD_some, Option.map_some, Bool.true_and,
      decide_eq_true_eq, fill_copyText, Host.copyText, ← Nat.not_lt, ite_not]
    split <;> rfl

/-- The answer of the whole call is what its stores leave to the caller. -/
theorem textAnswer_readString (room : Option Bytes) :
    (readString lexicon memory offset room.isSome (room.getD []).length wanted).textAnswer room =
      Host.readString lexicon memory offset room wanted := by
  rw [readString_eq, Host.readString]
  cases hread : readAtom lexicon memory offset wanted fun s view => s.text .string view with
  | mk status stored =>
    cases stored with
    | none => exact textAnswer_fail status room
    | some text => exact textAnswer_copyText text room

theorem textAnswer_unmapUri (id : TypeId) (room : Option Bytes) :
    (unmapUri lexicon id room.isSome (room.getD []).length wanted).textAnswer room =
      Host.unmapUri lexicon id room wanted := by
  cases lexicon with
  | none => exact textAnswer_fail .nullPointer room
  | some l =>
    cases wanted with
    | false => exact textAnswer_fail .nullPointer room
    | true =>
      simp only [unmapUri, Host.unmapUri, given_some_bind, require_bind, if_true]
      cases l.table.unmap id with
      | none => exact textAnswer_fail .notFound room
      | some uri => exact textAnswer_copyText uri room

end Texts

end Routine

end AtomWire.Host

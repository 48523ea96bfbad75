import AtomWire.Proofs.Encoding
import AtomWire.Proofs.Meanings
import AtomWire.Proofs.RoundTrip

/-!
# Decoding inverts the encoding

A tree stands for a dynamic value. Decoding its encoding gives this value wherever the
encoding stands, if no atom of the tree is nested too deep and no text is refused, and else
says which of the two it was.
-/

namespace AtomWire

set_option autoImplicit false

open AtomWire.Dynamic

variable {Text : Type}

namespace Tree

/-- What makes the encoding of a tree tell the tree, its branches apart. Keys, languages,
datatypes and the type of elements may be anything. -/
def isReadable (v : Vocabulary) : Tree → Bool
  | scalar _ | text _ _ | literal _ _ _ | chunk _ | tuple _ | object _ _ _ => true
  | atom type _ => v.shape type = .raw
  | vector _ width elements =>
    (width ≠ 0 ∨ elements = []) ∧ ∀ element ∈ elements, element.length = width.toNat
  | sequence unit events => ∀ e ∈ events, e.1.unit = unit

/-- A readable tree with a body that a header can announce. -/
def isLegible (v : Vocabulary) (t : Tree) : Bool := t.isReadable v && (t.body v).length ≤ maxBody

end Tree

theorem exists_spelled (v : Vocabulary) (branches : List Branch) :
    ∃ records, Spelled v true branches records := by
  induction branches using Tree.branches_induction with
  | nil => exact ⟨[], .nil⟩
  | cons label t rest ihTree ihRest =>
    obtain ⟨inner, hinner⟩ := ihTree
    obtain ⟨records, hrecords⟩ := ihRest
    exact ⟨_, .cons hinner ⟨List.length_replicate, fun _ => rfl⟩ hrecords⟩

@[simp] theorem lift_ok {α : Type} (a : α) : lift (.ok a) = .ok a := rfl

/-- How a decoding comes out: with the value that is meant if nothing is too deep or refused,
or else for one of these two reasons. -/
def Explains {α : Type} (deep : Prop) (refused : String → Prop) (meant : Option α) :
    Except Failure α → Prop
  | .ok a => ¬ deep ∧ (∀ message, ¬ refused message) ∧ meant = some a
  | .error .nestingTooDeep => deep
  | .error (.notText message) => refused message
  | .error (.wire _) | .error .emptyUri => False

namespace Explains

variable {α β γ : Type} {deep deep' : Prop} {refused refused' : String → Prop}
  {meant meant' : Option α} {x : Except Failure α}

theorem ok (a : α) : Explains False (fun _ => False) (some a) (.ok a) := ⟨id, fun _ => id, rfl⟩

theorem congr (h : Explains deep refused meant x) (hdeep : deep ↔ deep')
    (hrefused : ∀ message, refused message ↔ refused' message) (hmeant : meant = meant') :
    Explains deep' refused' meant' x := by
  obtain rfl := propext hdeep
  obtain rfl := funext fun message => propext (hrefused message)
  rwa [← hmeant]

/-- The second part is decoded only behind a value of the first one. -/
theorem bind {f : α → Except Failure β} {next : α → Option β} (h : Explains deep refused meant x)
    (hf : ∀ a, Explains deep' refused' (next a) (f a)) :
    Explains (deep ∨ deep') (fun message => refused message ∨ refused' message)
      (meant >>= next) (x >>= f) := by
  cases x with
  | error failure =>
    cases failure with
    | nestingTooDeep => exact Or.inl h
    | notText message => exact Or.inl h
    | _ => exact h.elim
  | ok a =>
    obtain ⟨hdeep, hrefused, rfl⟩ := h
    have hnext := hf a
    rw [ok_bind]
    cases hresult : f a with
    | error failure =>
      rw [hresult] at hnext
      cases failure with
      | nestingTooDeep => exact Or.inr hnext
      | notText message => exact Or.inr hnext
      | _ => exact hnext.elim
    | ok b =>
      rw [hresult] at hnext
      obtain ⟨hdeep', hrefused', hmeant⟩ := hnext
      exact ⟨fun h => h.elim hdeep hdeep', fun message h =>
        h.elim (hrefused message) (hrefused' message), hmeant⟩

theorem map (h : Explains deep refused meant x) (g : α → β) :
    Explains deep refused (meant.map g) (do return g (← x)) := by
  have hbind := h.bind fun a => ok (g a)
  refine hbind.congr (or_iff_left not_false) (fun message => or_iff_left not_false) ?_
  cases meant <;> rfl

theorem textOf (make : TextMaker Text) (bytes : Bytes) :
    Explains False (fun message => make bytes = .error message) (make bytes).toOption
      (textOf make bytes) := by
  unfold Dynamic.textOf
  cases make bytes with
  | error message => exact rfl
  | ok text => exact ⟨id, fun _ => nofun, rfl⟩

theorem keyOf (make : TextMaker Text) (table : UriTable) (key : TypeId) :
    Explains False (fun message => ∃ uri, table.unmap key = some uri ∧ make uri = .error message)
      (keyMeaning make table key) (keyOf make table key) := by
  unfold Dynamic.keyOf keyMeaning
  cases hunmap : table.unmap key with
  | none => exact (ok (Key.id key)).congr Iff.rfl (fun _ => by simp) rfl
  | some uri => exact ((textOf make uri).map Key.uri).congr Iff.rfl (fun _ => by simp) rfl

/-- Items are decoded in order, and the first that has no value is the outcome. -/
theorem mapM {f : α → Except Failure β} {deep : γ → Prop} {refused : γ → String → Prop}
    {meant : γ → Option β} {xs : List α} {ys : List γ}
    (h : List.Forall₂ (fun x y => Explains (deep y) (refused y) (meant y) (f x)) xs ys) :
    Explains (∃ y ∈ ys, deep y) (fun message => ∃ y ∈ ys, refused y message) (ys.mapM meant)
      (xs.mapM f) := by
  induction h with
  | nil => exact (ok []).congr (by simp) (by simp) rfl
  | @cons x y xs ys hhead hrest ih =>
    rw [List.mapM_cons, List.mapM_cons]
    refine (hhead.bind fun b => ih.map (b :: ·)).congr (by simp) (by simp) ?_
    refine congrArg (meant y >>= ·) (funext fun b => ?_)
    cases ys.mapM meant <;> rfl

end Explains

/-- What comes of decoding a tree that may be nested less than `levels` deep. -/
def Tree.Outcome [DecidableEq Text] (make : TextMaker Text) (v : Vocabulary) (table : UriTable)
    (levels : Nat) (t : Tree) : Except Failure (Value Text) → Prop :=
  Explains (levels ≤ t.nesting) (fun message => ∃ text ∈ t.texts table, make text = .error message)
    (t.meaning make v table)

section Leaves

variable [DecidableEq Text] {make : TextMaker Text} {v : Vocabulary} {table : UriTable}
  {levels : Nat} {t : Tree}

theorem Tree.outcome_ok {value : Value Text} (hnesting : t.nesting = 0) (htexts : t.texts table = [])
    (hmeaning : t.meaning make v table = some value) :
    t.Outcome make v table (levels + 1) (.ok value) := by
  refine (Explains.ok value).congr ?_ ?_ hmeaning.symm
  · simp [hnesting]
  · simp [htexts]

theorem Tree.outcome_text {content : Bytes} (hnesting : t.nesting = 0)
    (htexts : t.texts table = [content])
    (hmeaning : t.meaning make v table = (make content).toOption.map .text) :
    t.Outcome make v table (levels + 1) (do return .text (← textOf make content)) := by
  refine ((Explains.textOf make content).map Value.text).congr ?_ ?_ hmeaning.symm
  · simp [hnesting]
  · simp [htexts]

end Leaves

section Entries

variable {α β σ : Type} [DecidableEq Text] {make : TextMaker Text} {table : UriTable}
  {inner : AtomView → Except Failure (Value Text)}

/-- The entry that is read of a property. -/
def entryOf (make : TextMaker Text) (table : UriTable)
    (inner : AtomView → Except Failure (Value Text)) (item : Except WireError Property) :
    Except Failure (Key Text × Value Text) := do
  let property ← lift item
  let value ← inner property.value
  let key ← keyOf make table property.key
  return (key, value)

theorem foldlM_eq_mapM {f : α → Except Failure β} {g : σ → β → σ} (xs : List α) (state : σ) :
    xs.foldlM (fun state x => do return g state (← f x)) state =
      (do return (← xs.mapM f).foldl g state) := by
  induction xs generalizing state with
  | nil => rfl
  | cons x xs ih => simp only [List.foldlM_cons, List.mapM_cons, bind_assoc, pure_bind, ih,
      List.foldl_cons]

/-- The entries are read first and put into the dictionary afterwards. -/
theorem dictValue_eq (items : List (Except WireError Property)) :
    dictValue make table inner items =
      (do return .dict (dictOf (← items.mapM (entryOf make table inner)))) := by
  have hentries := foldlM_eq_mapM (f := entryOf make table inner)
    (g := fun entries entry => insertEntry entry.1 entry.2 entries) items []
  simp only [entryOf, bind_assoc, pure_bind, foldl_insertEntry] at hentries
  rw [dictValue, hentries]
  simp only [bind_assoc, pure_bind]

end Entries

namespace Vocabulary.Resolved

variable {v : Vocabulary}

theorem scalarKind?_id (hv : v.Resolved) (term : Term) :
    v.scalarKind? (v.id term) = ScalarKind.all.find? fun kind => term = kind.term := by
  simp [scalarKind?, hv.ne_zero, hv.id_eq_iff]

theorem formOf?_id (hv : v.Resolved) (term : Term) :
    formOf? v (v.id term) = TextForm.all.find? fun form => term = form.term := by
  simp [formOf?, hv.id_eq_iff]

theorem isObject_id (hv : v.Resolved) (term : Term) :
    v.isObject (v.id term) = decide (term = .object ∨ term = .blank) := by
  simp [isObject, hv.ne_zero, hv.id_eq_iff]

end Vocabulary.Resolved

section Dispatch

variable [DecidableEq Text] {make : TextMaker Text} {s : Source} {table : UriTable}
  {inner : AtomView → Except Failure (Value Text)} {atom : AtomView}

/-- One level of a value, for an atom whose type is that of the term. -/
def valueAs (make : TextMaker Text) (s : Source) (table : UriTable)
    (inner : AtomView → Except Failure (Value Text)) (atom : AtomView) :
    Term → Except Failure (Value Text)
  | .int | .long | .float | .double | .bool | .urid => do
    return .ofScalar (← lift (s.scalar atom))
  | .string => do return .text (← textOf make (← lift (s.text .string atom)))
  | .path => do return .text (← textOf make (← lift (s.text .path atom)))
  | .uri => do return .text (← textOf make (← lift (s.text .uri atom)))
  | .literal => do return .text (← textOf make (← lift (s.literal atom)).text)
  | .vector => do
    let vector ← lift (s.vector atom)
    return .list (vector.items.map (elementValue s vector.childType))
  | .tuple => do listValue inner (← lift (s.tuple atom)).items
  | .object | .blank => do dictValue make table inner (← lift (s.object atom)).properties.items
  | .sequence => do eventsValue inner (← lift (s.sequence atom)).events.items
  | .chunk | .property | .frame | .beat => .ok (.bytes atom.body.bytes)

/-- With an id of its own for every term, the order of the comparisons does not matter. -/
theorem valueWith_term (hv : s.vocabulary.Resolved) {term : Term}
    (htype : atom.type = s.vocabulary.id term) :
    valueWith make s table inner atom = valueAs make s table inner atom term := by
  cases term <;>
    simp [valueWith, valueAs, htype, hv.scalarKind?_id, hv.formOf?_id, hv.isObject_id, hv.id_eq_iff,
      ScalarKind.all, ScalarKind.term, TextForm.all, TextForm.term]

/-- An atom of another type is decoded as its bytes. -/
theorem valueWith_raw (hraw : s.vocabulary.shape atom.type = .raw) :
    valueWith make s table inner atom = .ok (.bytes atom.body.bytes) := by
  unfold Vocabulary.shape at hraw
  have hkind : (s.vocabulary.scalarKind? atom.type).isSome = false := by grind
  have hform : formOf? s.vocabulary atom.type = none := by
    grind [formOf?, TextForm.all, TextForm.term]
  have hliteral : atom.type ≠ s.vocabulary.id .literal := by grind
  have hvector : atom.type ≠ s.vocabulary.id .vector := by grind
  have htuple : atom.type ≠ s.vocabulary.id .tuple := by grind
  have hobject : s.vocabulary.isObject atom.type = false := by grind
  have hsequence : atom.type ≠ s.vocabulary.id .sequence := by grind
  simp [valueWith, hkind, hform, hliteral, hvector, htuple, hobject, hsequence]

end Dispatch

/-- The records with their positions are decoded as the branches stand for, one by one. -/
def DecodesTo [DecidableEq Text] (make : TextMaker Text) (s : Source) (table : UriTable)
    (levels : Nat) : List (Nat × Record) → List Branch → Prop :=
  List.Forall₂ fun x b => x.2.lead = b.1.bytes ∧
    b.2.Outcome make s.vocabulary table levels
      (valueTo make s table levels (x.2.view s.block.memory x.1))

section Containers

variable [DecidableEq Text] {make : TextMaker Text} {s : Source} {table : UriTable} {levels : Nat}
  {placed : List (Nat × Record)}

/-- What holds of an item whose atom is decoded as its tree holds along the region. -/
theorem DecodesTo.items {α γ : Type} {xs : List γ} {toBranch : γ → Branch}
    (h : DecodesTo make s table levels placed (xs.map toBranch)) (build : Bytes → AtomView → α)
    {P : Except WireError α → γ → Prop}
    (hitem : ∀ x ∈ xs, ∀ view,
      (toBranch x).2.Outcome make s.vocabulary table levels (valueTo make s table levels view) →
      P (.ok (build (toBranch x).1.bytes view)) x) :
    List.Forall₂ P
      (placed.map fun x => .ok (build x.2.lead (x.2.view s.block.memory x.1))) xs := by
  rw [List.forall₂_map_left_iff]
  refine List.forall₂_iff_zip.mpr ⟨?_, ?_⟩
  · simpa using h.length_eq
  · intro x y hxy
    obtain ⟨hlead, hvalue⟩ := (List.forall₂_iff_zip.mp (List.forall₂_map_right_iff.mp h)).2 hxy
    rw [hlead]
    exact hitem y (List.of_mem_zip hxy).2 _ hvalue

/-- A text that is refused in some item is refused. -/
theorem exists_refused_iff {γ : Type} {xs : List γ} {shows : γ → Bytes → Prop}
    {refused : Bytes → Prop} :
    (∃ x ∈ xs, ∃ text, shows x text ∧ refused text) ↔
      ∃ text, (∃ x ∈ xs, shows x text) ∧ refused text := by
  constructor
  · rintro ⟨x, hx, text, hshows, hrefused⟩
    exact ⟨text, ⟨x, hx, hshows⟩, hrefused⟩
  · rintro ⟨text, ⟨x, hx, hshows⟩, hrefused⟩
    exact ⟨x, hx, text, hshows, hrefused⟩

theorem outcome_listValue {items : List Tree} (overrun : WireError)
    (h : DecodesTo make s table levels placed (Tree.tuple items).branches) :
    (Tree.tuple items).Outcome make s.vocabulary table (levels + 1)
      (listValue (valueTo make s table levels) (placed.map fun x =>
        .ok ((Layout.atoms overrun).make x.2.lead (x.2.view s.block.memory x.1)))) := by
  have hitems := h.items (Layout.atoms overrun).make (P := fun item tree =>
    tree.Outcome make s.vocabulary table levels
      (do valueTo make s table levels (← lift item)))
    (fun tree _ view hview => hview)
  refine ((Explains.mapM hitems).map Value.list).congr ?_ ?_ ?_
  · exact Tree.succ_le_itemsNesting_iff.symm
  · intro message
    simp only [Tree.texts, Tree.mem_itemTexts_iff]
    exact exists_refused_iff
  · rw [Tree.meaning, Tree.itemMeanings_eq]

theorem outcome_dictValue {id otype : TypeId} {properties : List (TypeId × TypeId × Tree)}
    (h : DecodesTo make s table levels placed (Tree.object id otype properties).branches) :
    (Tree.object id otype properties).Outcome make s.vocabulary table (levels + 1)
      (dictValue make table (valueTo make s table levels) (placed.map fun x =>
        .ok (Layout.properties.make x.2.lead (x.2.view s.block.memory x.1)))) := by
  have hitems := h.items Layout.properties.make (P := fun item p =>
    Explains (levels ≤ p.2.2.nesting)
      (fun message => ∃ text, (text ∈ p.2.2.texts table ∨ table.unmap p.1 = some text) ∧
        make text = .error message)
      (Tree.propertyMeaning make s.vocabulary table p)
      (entryOf make table (valueTo make s table levels) item))
    (by
      intro p _ view hview
      have hkey : (Layout.properties.make (Label.key p.1 p.2.1).bytes view).key = p.1 :=
        getWord32_word32_append p.1 _
      have hvalue : (Layout.properties.make (Label.key p.1 p.2.1).bytes view).value = view := rfl
      simp only [entryOf, lift_ok, ok_bind, hkey, hvalue]
      refine (hview.bind fun value => (Explains.keyOf make table p.1).map (·, value)).congr ?_ ?_ ?_
      · exact or_iff_left not_false
      · intro message
        simp only [or_and_right, exists_or]
      · rw [Tree.propertyMeaning]
        refine congrArg (_ >>= ·) (funext fun value => ?_)
        cases keyMeaning make table p.1 <;> rfl)
  rw [dictValue_eq]
  refine ((Explains.mapM hitems).map fun entries => Value.dict (dictOf entries)).congr ?_ ?_ ?_
  · exact Tree.succ_le_propertiesNesting_iff.symm
  · intro message
    simp only [Tree.texts, Tree.mem_propertyTexts_iff]
    exact exists_refused_iff
  · rw [Tree.meaning, Tree.propertyMeanings_eq]

theorem outcome_eventsValue {unit : TimeUnit} {events : List (Stamp × Tree)}
    (hunits : ∀ e ∈ events, e.1.unit = unit)
    (h : DecodesTo make s table levels placed (Tree.sequence unit events).branches) :
    (Tree.sequence unit events).Outcome make s.vocabulary table (levels + 1)
      (eventsValue (valueTo make s table levels) (placed.map fun x =>
        .ok ((Layout.events unit).make x.2.lead (x.2.view s.block.memory x.1)))) := by
  have hitems := h.items (Layout.events unit).make (P := fun item e =>
    Explains (levels ≤ e.2.nesting)
      (fun message => ∃ text ∈ e.2.texts table, make text = .error message)
      (Tree.eventMeaning make s.vocabulary table e)
      (do
        let event ← lift item
        let value ← valueTo make s table levels event.value
        return Value.pair (.ofStamp event.stamp) value))
    (by
      intro e he view hview
      have hstamp : ((Layout.events unit).make (Label.time e.1).bytes view).stamp = e.1 := by
        rw [← hunits e he]
        exact e.1.read_payload
      have hvalue : ((Layout.events unit).make (Label.time e.1).bytes view).value = view := rfl
      simp only [lift_ok, ok_bind, hstamp, hvalue, Stamp.ofStamp_eq]
      refine (hview.map (Value.pair e.1.meaning)).congr Iff.rfl (fun _ => Iff.rfl) ?_
      rw [Tree.eventMeaning]
      cases e.2.meaning make s.vocabulary table <;> rfl)
  refine ((Explains.mapM hitems).map Value.list).congr ?_ ?_ ?_
  · exact Tree.succ_le_eventsNesting_iff.symm
  · intro message
    simp only [Tree.texts, Tree.mem_eventTexts_iff]
    exact exists_refused_iff
  · rw [Tree.meaning, Tree.eventMeanings_eq]

end Containers

section Read

variable {s : Source} {table : UriTable} {t : Tree} {r : Record} {inner : List Record}
  {pos lead levels : Nat}

theorem vector_items {childType : TypeId} {width : UInt32} {elements : List Bytes}
    (hshow : s.block.Shows pos r.bytes) (hfit : r.Fits lead)
    (htype : r.type = s.vocabulary.id .vector)
    (hbody : r.body = word32 childType ++ word32 width ++ elements.flatten)
    (hwidth : width ≠ 0 ∨ elements = [])
    (hlen : ∀ element ∈ elements, element.length = width.toNat) :
    ∃ found, s.vector (r.view s.block.memory pos) = .ok found ∧ found.childType = childType ∧
      found.items = elements := by
  rw [List.append_assoc] at hbody
  rcases Decidable.em (elements = []) with rfl | helements
  · obtain ⟨span, hopen, hspan⟩ := Source.vector_record hshow hfit htype hbody (by simp)
    refine ⟨_, hopen, rfl, ?_⟩
    simp [VectorView.items, VectorView.size, hspan]
  · have hwidth := hwidth.resolve_right helements
    obtain ⟨span, hopen, hspan⟩ := Source.vector_record hshow hfit htype hbody
      (by simp [hwidth, length_flatten hlen])
    have hle : elements.flatten.length ≤ maxBody := by
      have hle := hfit.body_le
      rw [hbody] at hle
      simp only [List.length_append] at hle
      omega
    exact ⟨_, hopen, rfl, VectorView.items_eq ⟨childType, width, span⟩ hwidth hspan hlen hle⟩

variable [DecidableEq Text] {make : TextMaker Text}

/-- A record is decoded as its tree stands for if the records in it are decoded as its
branches stand for. -/
theorem outcome_record (hv : s.vocabulary.Resolved) (hshow : s.block.Shows pos r.bytes)
    (hfit : r.Fits lead) (htype : r.type = t.type s.vocabulary)
    (hbody : r.body = t.front s.vocabulary ++ Record.flat inner)
    (hreadable : t.isReadable s.vocabulary = true)
    (hinner : ∀ x ∈ inner, x.Fits t.lead)
    (hback : DecodesTo make s table levels
      (Record.place (pos + r.lead.length + headerSize + (t.front s.vocabulary).length) inner)
      t.branches) :
    t.Outcome make s.vocabulary table (levels + 1)
      (valueTo make s table (levels + 1) (r.view s.block.memory pos)) := by
  have hleaf : t.branches = [] → r.body = t.front s.vocabulary := by
    intro hbranches
    rw [hbranches] at hback
    have hlen := congrArg List.length (List.forall₂_nil_right_iff.mp hback)
    rw [Record.length_place] at hlen
    rw [hbody, List.length_eq_zero_iff.mp hlen, Record.flat_nil, List.append_nil]
  rw [valueTo]
  cases t with
  | scalar x =>
    have hread := Source.scalar_record hv hshow hfit htype (hleaf rfl)
    have hvalue : valueWith make s table (valueTo make s table levels)
        (r.view s.block.memory pos) = .ok (.ofScalar x) := by
      rw [valueWith_term hv htype]
      cases x <;> exact congrArg (fun value => lift value >>= _) hread
    rw [hvalue, x.ofScalar_eq]
    exact Tree.outcome_ok rfl rfl rfl
  | text form content =>
    have hread := Source.text_record (hv.ne_zero _) hshow hfit htype (hleaf rfl)
    have hvalue : valueWith make s table (valueTo make s table levels)
        (r.view s.block.memory pos) = (do return .text (← textOf make content)) := by
      rw [valueWith_term hv htype]
      cases form <;> exact congrArg (fun text => lift text >>= _) hread
    rw [hvalue]
    exact Tree.outcome_text rfl rfl rfl
  | literal content lang datatype =>
    have hread := Source.literal_record hv hshow hfit htype (hleaf rfl)
    rw [valueWith_term hv htype, valueAs, hread]
    exact Tree.outcome_text rfl rfl rfl
  | chunk body =>
    rw [valueWith_term hv htype]
    exact Tree.outcome_ok rfl rfl (congrArg (some ∘ Value.bytes) (hleaf rfl).symm)
  | atom type body =>
    have hraw : s.vocabulary.shape type = .raw := by simpa [Tree.isReadable] using hreadable
    rw [valueWith_raw (by rw [Record.view_type, htype]; exact hraw)]
    exact Tree.outcome_ok rfl rfl (congrArg (some ∘ Value.bytes) (hleaf rfl).symm)
  | vector childType width elements =>
    obtain ⟨hwidth, hlen⟩ : (width ≠ 0 ∨ elements = []) ∧
        ∀ element ∈ elements, element.length = width.toNat := by
      simpa [Tree.isReadable] using hreadable
    obtain ⟨found, hopen, rfl, rfl⟩ := vector_items hshow hfit htype (hleaf rfl) hwidth hlen
    have helement : (elementValue s found.childType : Bytes → Value Text) =
        elementMeaning s.vocabulary found.childType :=
      funext (elementValue_eq hv found.childType)
    rw [valueWith_term hv htype, valueAs, hopen]
    simp only [lift_ok, ok_bind, helement]
    exact Tree.outcome_ok rfl rfl rfl
  | tuple items =>
    have hitems := Source.items_regionOf (Layout.atoms .malformedContainer) hshow hfit hbody hinner
    have hvalue := outcome_listValue .malformedContainer hback
    rw [← hitems] at hvalue
    rwa [valueWith_term hv htype, valueAs, Source.tuple_record hshow hfit htype]
  | object id otype properties =>
    have hobject : s.vocabulary.isObject r.type = true := by
      simp [htype, Tree.type, hv.isObject_id]
    have hlead : 8 ≤ r.body.length := by
      simp only [hbody, Tree.front, List.length_append, length_word32]
      omega
    have hitems := Source.items_regionOf Layout.properties hshow hfit hbody hinner
    have hvalue := outcome_dictValue hback
    rw [← hitems] at hvalue
    rwa [valueWith_term hv htype, valueAs, Source.object_record hshow hfit hobject hlead]
  | sequence unit events =>
    have hunits : ∀ e ∈ events, e.1.unit = unit := by simpa [Tree.isReadable] using hreadable
    have hlead : 8 ≤ r.body.length := by
      simp only [hbody, Tree.front, List.length_append, length_word32]
      omega
    have hunit : s.unitOf (getWord32 r.body) = unit := by
      rw [hbody, Tree.front, List.append_assoc, getWord32_word32_append,
        Source.unitOf_id hv]
    have hitems := Source.items_regionOf (Layout.events unit) hshow hfit hbody hinner
    have hvalue := outcome_eventsValue hunits hback
    rw [← hitems] at hvalue
    rwa [valueWith_term hv htype, valueAs, Source.sequence_record hshow hfit htype hlead, hunit]

end Read

theorem Tree.body_le_of_isLegible {v : Vocabulary} {t : Tree} (h : t.all (isLegible v) = true) :
    (t.body v).length ≤ maxBody := by
  have htree := (all_iff.mp h).1
  simp only [isLegible, Bool.and_eq_true, decide_eq_true_eq] at htree
  exact htree.2

/-- Records that stand in a source are decoded as the branches they spell stand for, with
however many levels. -/
theorem Spelled.decodesTo [DecidableEq Text] {make : TextMaker Text} {s : Source}
    {table : UriTable} {zero : Bool} {branches : List Branch} {records : List Record}
    {pos levels : Nat} (hv : s.vocabulary.Resolved)
    (h : Spelled s.vocabulary zero branches records)
    (hlegible : ∀ b ∈ branches, b.2.all (Tree.isLegible s.vocabulary) = true)
    (hshow : s.block.Shows pos (Record.flat records)) :
    DecodesTo make s table levels (Record.place pos records) branches := by
  induction h generalizing pos levels with
  | nil => exact .nil
  | @cons label t rest inner records pad hinner hpad hrest ihInner ihRest =>
    obtain ⟨htree, hbranches⟩ := Tree.all_iff.mp (hlegible (label, t) List.mem_cons_self)
    have hreadable : t.isReadable s.vocabulary = true := (Bool.and_eq_true_iff.mp htree).1
    have hfit := Tree.record_fits label.bytes hinner hpad
      (Tree.body_le_of_isLegible (hlegible (label, t) List.mem_cons_self))
    rw [Record.flat_cons] at hshow
    have hinside := hshow.left.right.right.left
    rw [length_headerBytes] at hinside
    refine .cons ⟨rfl, ?_⟩ ?_
    · cases levels with
      | zero => exact Nat.zero_le t.nesting
      | succ below =>
        exact outcome_record hv hshow.left hfit rfl rfl hreadable
          (hinner.fits (fun b hb => Tree.body_le_of_isLegible (hbranches b hb))
            fun b hb => Tree.length_label hb)
          (ihInner hbranches hinside.right)
    · exact ihRest (fun b hb => hlegible b (List.mem_cons_of_mem _ hb)) hshow.right

theorem decode_encoding [DecidableEq Text] (make : TextMaker Text) {table : UriTable}
    (hids : table.resolve.2.size < UInt32.size) {t : Tree}
    (hlegible : t.all (Tree.isLegible table.resolve.1) = true) {bytes : Bytes} {offset : Option Nat}
    (hstands : t.encode table.resolve.1 <+: bytes.drop (offset.getD 0)) :
    t.Outcome make table.resolve.1 table.resolve.2 (maxNesting + 1)
      (decode make table bytes offset).1 := by
  let s : Source := ⟨table.resolve.1, ⟨some 0, bytes⟩⟩
  have hv : s.vocabulary.Resolved := UriTable.resolved_of_size_lt hids
  obtain ⟨records, hspelled⟩ := exists_spelled table.resolve.1 [(.bare, t)]
  have hflat : Record.flat records = t.encode table.resolve.1 := by
    simp [hspelled.flat_eq, branchBytes, Label.bytes]
  have hshow : s.block.Shows (offset.getD 0) (Record.flat records) := by
    rw [hflat]
    exact hstands
  have hfits : ∀ x ∈ records, x.Fits 0 :=
    hspelled.fits (by simpa using Tree.body_le_of_isLegible hlegible) (by simp [Label.bytes])
  have hdecodes : DecodesTo make s table.resolve.2 (maxNesting + 1)
      (Record.place (offset.getD 0) records) [(.bare, t)] :=
    hspelled.decodesTo hv (by simpa using hlegible) hshow
  cases hspelled with
  | cons hinner hpad hrest =>
    have hatom := Source.atomAt_record hshow.left (hfits _ List.mem_cons_self)
    have hvalue := (List.forall₂_cons.mp hdecodes).1.2
    unfold decode
    simp only [s] at hatom
    simp only [hatom, lift_ok, ok_bind]
    exact hvalue

/-- Tuples around one another are legible however many there are, up to the largest size. -/
theorem Tree.tuples_isLegible (v : Vocabulary) {count : Nat} (h : 8 * count ≤ maxBody) :
    let t := (fun inner => Tree.tuple [inner])^[count] (.chunk [])
    t.all (isLegible v) = true ∧ t.nesting = count ∧ (t.body v).length = 8 * count := by
  induction count with
  | zero => simp [all, isLegible, isReadable, nesting, body, front, branches, branchBytes]
  | succ count ih =>
    obtain ⟨hall, hnesting, hlen⟩ := ih (by omega)
    have hbody : ((tuple [(fun inner => tuple [inner])^[count] (.chunk [])]).body v).length =
        8 * (count + 1) := by
      have hencode := length_encode v ((fun inner => tuple [inner])^[count] (.chunk []))
      rw [hlen] at hencode
      simp only [body, front, branches, branchBytes, Label.bytes, List.map_cons, List.map_nil,
        List.flatMap_cons, List.flatMap_nil, List.nil_append, List.append_nil, hencode, atomSize,
        headerSize, padding]
      omega
    rw [Function.iterate_succ_apply']
    refine ⟨?_, ?_, hbody⟩
    · simp only [all, allItems, hall, isLegible, isReadable, hbody]
      simpa using h
    · simp [nesting, itemsNesting, hnesting]

end AtomWire

import Mathlib.Data.List.Forall2
import AtomWire.Proofs.Trees

/-!
# The calls that write a tree

A tree does not fix its calls. A scalar may be written under the id of its kind or with the
id left to the vocabulary, the elements of a vector as bytes or as scalars, and a vector may
be opened without a type and get one from its first scalar. `Tree.ops` is one of the ways.
-/

namespace AtomWire

set_option autoImplicit false

/-- A call that writes the scalar. -/
inductive ScalarCall (v : Vocabulary) (x : Scalar) : Op → Prop where
  | value : ScalarCall v x (.value x)
  | typed : ScalarCall v x (.scalar (x.type v) x)

/-- A call that puts the bytes into a vector whose elements have the type. -/
inductive ElementCall (v : Vocabulary) (type : TypeId) : Bytes → Op → Prop where
  | bytes (element : Bytes) : ElementCall v type element (.element element)
  | scalar {x : Scalar} {op : Op} (htype : type = x.type v) (h : ScalarCall v x op) :
      ElementCall v type x.bytes op

/-- Calls that open a vector and fill it. -/
inductive VectorCalls (v : Vocabulary) : TypeId → UInt32 → List Bytes → List Op → Prop where
  | typed {type : TypeId} {width : UInt32} {elements : List Bytes} {ops : List Op}
      (htype : type ≠ 0) (h : List.Forall₂ (ElementCall v type) elements ops) :
      VectorCalls v type width elements (.pushVector type width :: ops)
  /-- Without a type and left empty. The width that is asked for does not matter. -/
  | untyped (width : UInt32) : VectorCalls v 0 0 [] [.pushVector 0 width]
  | locked {x : Scalar} {op : Op} {elements : List Bytes} {ops : List Op} (width : UInt32)
      (hx : ScalarCall v x op)
      (h : List.Forall₂ (ElementCall v (x.type v)) elements ops) :
      VectorCalls v (x.type v) (UInt32.ofNat x.bytes.length) (x.bytes :: elements)
        (.pushVector 0 width :: op :: ops)

/-- Calls that write a tree, given those that write its branches. -/
inductive Tree.CalledBy (v : Vocabulary) : Tree → (inner calls : List Op) → Prop where
  | scalar {x : Scalar} {op : Op} (h : ScalarCall v x op) : CalledBy v (.scalar x) [] [op]
  | text (form : TextForm) (content : Bytes) :
      CalledBy v (.text form content) [] [.text form content]
  | literal (content : Bytes) (lang datatype : TypeId) :
      CalledBy v (.literal content lang datatype) [] [.literal content lang datatype]
  | chunk (body : Bytes) : CalledBy v (.chunk body) [] [.chunk body]
  | atom (type : TypeId) (body : Bytes) : CalledBy v (.atom type body) [] [.atom type body]
  | vector {type : TypeId} {width : UInt32} {elements : List Bytes} {ops : List Op}
      (h : VectorCalls v type width elements ops) :
      CalledBy v (.vector type width elements) [] (ops ++ [.pop])
  | tuple (items : List Tree) (inner : List Op) :
      CalledBy v (.tuple items) inner (.pushTuple :: (inner ++ [.pop]))
  | object (id otype : TypeId) (properties : List (TypeId × TypeId × Tree)) (inner : List Op) :
      CalledBy v (.object id otype properties) inner (.pushObject id otype :: (inner ++ [.pop]))
  | sequence (unit : TimeUnit) (events : List (Stamp × Tree)) (inner : List Op) :
      CalledBy v (.sequence unit events) inner (.pushSequence unit :: (inner ++ [.pop]))

/-- Calls that write branches, one after another. -/
inductive Transcript (v : Vocabulary) : List Branch → List Op → Prop where
  | nil : Transcript v [] []
  | cons {label : Label} {t : Tree} {rest : List Branch} {inner calls ops : List Op}
      (hinner : Transcript v t.branches inner) (hcalls : t.CalledBy v inner calls)
      (hrest : Transcript v rest ops) :
      Transcript v ((label, t) :: rest) (label.ops ++ calls ++ ops)

/-- The calls write the tree. -/
def Tree.WrittenBy (v : Vocabulary) (t : Tree) (ops : List Op) : Prop :=
  ∃ inner, Transcript v t.branches inner ∧ t.CalledBy v inner ops

theorem ScalarCall.move_eq {v : Vocabulary} {x : Scalar} {op : Op} (h : ScalarCall v x op)
    (frames : List Frame) :
    op.move v frames = Op.scalarMove v frames (v.scalarType x.kind) x := by
  cases h with
  | value => rfl
  | typed => rw [x.type_eq, Op.move]

theorem ElementCall.move_eq {v : Vocabulary} {type : TypeId} {element : Bytes} {op : Op}
    {width : UInt32} {header : Nat} {outer : List Frame} (hv : v.Resolved)
    (h : ElementCall v type element op) (hlen : element.length = width.toNat) :
    op.move v (⟨.vector (some (type, width)), header⟩ :: outer) = .ok (.element element) := by
  cases h with
  | bytes => exact Op.move_element hlen
  | @scalar x _ htype hx =>
    rw [x.bytes_eq, x.length_payload] at hlen
    rw [hx.move_eq, htype, x.type_eq, x.bytes_eq]
    exact Op.scalarMove_element hv header outer x hlen

namespace Tree

/-- What a writer asks of a tree, its branches apart. A vector has a type and a width, or
neither of them and no elements. -/
def isWritable : Tree → Bool
  | scalar _ | text _ _ | chunk _ | tuple _ => true
  | literal _ lang datatype => lang = 0 ∨ datatype = 0
  | atom type _ => type ≠ 0
  | vector childType width elements =>
    (if childType = 0 then width = 0 ∧ elements = [] else width ≠ 0) ∧
      ∀ element ∈ elements, element.length = width.toNat
  | object _ _ properties => ∀ p ∈ properties, p.1 ≠ 0
  | sequence unit events => ∀ e ∈ events, e.1.unit = unit

/-- A writable tree with a body that a header can announce. -/
def isEncodable (v : Vocabulary) (t : Tree) : Bool :=
  t.isWritable && (t.body v).length ≤ maxBody

theorem isWritable_of_isProper {v : Vocabulary} {t : Tree} (h : t.isProper v = true) :
    t.isWritable = true := by
  cases t with
  | literal content lang datatype => exact h
  | object id otype properties => exact h
  | sequence unit events => exact h
  | atom type body => simp_all [isProper, isWritable]
  | vector childType width elements => simp_all [isProper, isWritable]
  | _ => rfl

theorem all_imp {check check' : Tree → Bool} (himp : ∀ t, check t = true → check' t = true)
    {t : Tree} (h : t.all check = true) : t.all check' = true := by
  induction hdepth : t.depth using Nat.strongRecOn generalizing t with
  | ind n ih =>
    obtain ⟨hcheck, hbranches⟩ := all_iff.mp h
    refine all_iff.mpr ⟨himp t hcheck, ?_⟩
    intro b hb
    have hlt := depth_lt_of_mem_branches hb
    exact ih b.2.depth (by omega) (hbranches b hb) rfl

theorem all_isEncodable {v : Vocabulary} {t : Tree} (h : t.all (isSound v) = true) :
    t.all (isEncodable v) = true := by
  apply all_imp _ h
  intro t hsound
  simp only [isSound, isEncodable, Bool.and_eq_true] at *
  exact ⟨isWritable_of_isProper hsound.1, hsound.2⟩

theorem all_isWritable {v : Vocabulary} {t : Tree} (h : t.all (isEncodable v) = true) :
    t.all isWritable = true :=
  all_imp (fun _ hencodable => (Bool.and_eq_true_iff.mp hencodable).1) h

theorem calledBy_ops (v : Vocabulary) {t : Tree} (h : t.isWritable = true) :
    t.CalledBy v (branchOps t.branches) t.ops := by
  cases t with
  | scalar x => exact .scalar .value
  | text form content => exact .text form content
  | literal content lang datatype => exact .literal content lang datatype
  | chunk body => exact .chunk body
  | atom type body => exact .atom type body
  | vector childType width elements =>
    by_cases htype : childType = 0
    · obtain ⟨rfl, rfl⟩ : width = 0 ∧ elements = [] := by simp_all [isWritable]
      subst htype
      exact .vector (.untyped 0)
    · refine .vector (.typed htype ?_)
      rw [List.forall₂_map_right_iff]
      exact List.forall₂_same.mpr fun element _ => .bytes element
  | tuple items =>
    rw [ops, itemOps_eq]
    exact .tuple items _
  | object id otype properties =>
    rw [ops, propertyOps_eq]
    exact .object id otype properties _
  | sequence unit events =>
    rw [ops, eventOps_eq]
    exact .sequence unit events _

end Tree

theorem transcript_branchOps {v : Vocabulary} {branches : List Branch}
    (h : ∀ b ∈ branches, b.2.all Tree.isWritable = true) :
    Transcript v branches (branchOps branches) := by
  induction branches using Tree.branches_induction with
  | nil => exact .nil
  | cons label t rest ihTree ihRest =>
    obtain ⟨hwritable, hbranches⟩ := Tree.all_iff.mp (h (label, t) List.mem_cons_self)
    exact .cons (ihTree hbranches) (t.calledBy_ops v hwritable)
      (ihRest fun b hb => h b (List.mem_cons_of_mem _ hb))

theorem Tree.writtenBy_ops {v : Vocabulary} {t : Tree} (h : t.all isWritable = true) :
    t.WrittenBy v t.ops := by
  obtain ⟨hwritable, hbranches⟩ := all_iff.mp h
  exact ⟨_, transcript_branchOps hbranches, t.calledBy_ops v hwritable⟩

end AtomWire

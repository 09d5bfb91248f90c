import Dcode.Lib.Str
import Dcode.Lib.SortedAssoc
import Mathlib.Data.Char

/-!
# JSON values

`serde_json::Value` over an arbitrary type of numbers. The fields of an object are its entries in key order,
which makes equality of values the equality of their maps; `Value.WF` says that this holds at every depth, and
`Json` is a value that has it.
-/

open SortedAssoc

inductive Value (N : Type) where
  | null
  | bool (b : Bool)
  | number (n : N)
  | string (s : Str)
  | array (elems : List (Value N))
  | object (fields : List (Str × Value N))

namespace Value

variable {N : Type}

/-! ## Equality -/

mutual

def beq [DecidableEq N] : Value N → Value N → Bool
  | .null, .null => true
  | .bool a, .bool b => a == b
  | .number a, .number b => decide (a = b)
  | .string a, .string b => a == b
  | .array as, .array bs => beqElems as bs
  | .object as, .object bs => beqFields as bs
  | _, _ => false

def beqElems [DecidableEq N] : List (Value N) → List (Value N) → Bool
  | [], [] => true
  | a :: as, b :: bs => beq a b && beqElems as bs
  | _, _ => false

def beqFields [DecidableEq N] : List (Str × Value N) → List (Str × Value N) → Bool
  | [], [] => true
  | (k, a) :: as, (j, b) :: bs => k == j && (beq a b && beqFields as bs)
  | _, _ => false

end

section

variable [DecidableEq N]

mutual

theorem beq_iff : ∀ a b : Value N, beq a b ↔ a = b
  | .null, b | .bool _, b | .number _, b | .string _, b => by cases b <;> simp [beq]
  | .array as, b => by
    cases b with
    | array bs => simpa [beq] using beqElems_iff as bs
    | _ => simp [beq]
  | .object as, b => by
    cases b with
    | object bs => simpa [beq] using beqFields_iff as bs
    | _ => simp [beq]

theorem beqElems_iff : ∀ as bs : List (Value N), beqElems as bs ↔ as = bs
  | [], bs => by cases bs <;> simp [beqElems]
  | a :: as, bs => by
    cases bs with
    | nil => simp [beqElems]
    | cons b bs => simp [beqElems, beq_iff a b, beqElems_iff as bs]

theorem beqFields_iff : ∀ as bs : List (Str × Value N), beqFields as bs ↔ as = bs
  | [], bs => by cases bs <;> simp [beqFields]
  | (k, a) :: as, bs => by
    cases bs with
    | nil => simp [beqFields]
    | cons e bs =>
      obtain ⟨j, b⟩ := e
      simp [beqFields, beq_iff a b, beqFields_iff as bs, and_assoc]

end

instance : DecidableEq (Value N) := fun a b => decidable_of_iff _ (beq_iff a b)

end

/-! ## Shape -/

def isNull : Value N → Bool
  | .null => true
  | _ => false

def asObject : Value N → Option (List (Str × Value N))
  | .object fields => some fields
  | _ => none

mutual

def wf : Value N → Bool
  | .array elems => wfElems elems
  | .object fields => decide (SortedAssoc.Sorted fields) && wfFields fields
  | _ => true

def wfElems : List (Value N) → Bool
  | [] => true
  | v :: rest => wf v && wfElems rest

def wfFields : List (Str × Value N) → Bool
  | [] => true
  | (_, v) :: rest => wf v && wfFields rest

end

def WF (v : Value N) : Prop := v.wf

instance (v : Value N) : Decidable v.WF := inferInstanceAs (Decidable (v.wf))

theorem wfFields_iff {fields : List (Str × Value N)} : wfFields fields ↔ ∀ e ∈ fields, e.2.WF := by
  induction fields with
  | nil => simp [wfFields]
  | cons e fields ih => simp [wfFields, WF, ih]

theorem WF_object_iff {fields : List (Str × Value N)} : (object fields).WF ↔ Sorted fields ∧ ∀ e ∈ fields, e.2.WF := by
  rw [← wfFields_iff]
  simp [WF, wf]

theorem sorted_asObject (v : Value N) (h : v.WF) : Sorted (v.asObject.getD []) := by
  cases v with
  | object fields => exact (WF_object_iff.mp h).1
  | _ => exact List.Pairwise.nil

theorem wf_of_get (v : Value N) (h : v.WF) {k : Str} {w : Value N} (hw : v.asObject.bind (get k) = some w) : w.WF := by
  cases v with
  | object fields => exact (WF_object_iff.mp h).2 _ (mem_of_get hw)
  | _ => simp [asObject] at hw

/-- Induction on a value through the fields of objects; arrays are leaves. -/
theorem inductionOnFields {motive : Value N → Prop} (v : Value N) (leaf : ∀ v : Value N, v.asObject = none → motive v)
    (object : ∀ fields : List (Str × Value N), (∀ e ∈ fields, motive e.2) → motive (.object fields)) :
    motive v := by
  refine @Value.rec N motive (fun _ => True) (fun fields => ∀ e ∈ fields, motive e.2)
    (fun e => motive e.2) (leaf _ rfl) (fun _ => leaf _ rfl) (fun _ => leaf _ rfl)
    (fun _ => leaf _ rfl) (fun _ _ => leaf _ rfl) (fun fields ih => object fields ih)
    trivial (fun _ _ _ _ => trivial) (by simp) ?_ (fun _ _ ih => ih) v
  intro e rest he hrest
  exact List.forall_mem_cons.mpr ⟨he, hrest⟩

end Value

structure Json (N : Type) where
  value : Value N
  wf : value.WF
deriving DecidableEq

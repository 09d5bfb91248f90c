import Dcode.Lib.Json

/-!
# Merge patches of the world state

The RFC 7386 merge patches of `codex-rs/core/src/context/world_state/mod.rs`: the patch that leads from one value to
another, and what applying a patch does. A loop over the fields of an object is a recursion over them, next to
the function whose recursive calls it makes.
-/

namespace Dcode.WorldState

open SortedAssoc

variable {N : Type}

mutual

def removeNullObjectFields : Value N → Value N
  | .object values => .object (removeNullFields values)
  | value => value

/-- The `retain` and the walk over the remaining values. -/
def removeNullFields : List (Str × Value N) → List (Str × Value N)
  | [] => []
  | (key, value) :: rest =>
    if value.isNull then removeNullFields rest
    else (key, removeNullObjectFields value) :: removeNullFields rest

end

/-- The fields of `previous` that `current` lacks, each to be removed. -/
def removals (previous current : List (Str × Value N)) : List (Str × Value N) :=
  previous.foldl (fun patch e => if (get e.1 current).isSome then patch else insert e.1 .null patch) []

section

variable [DecidableEq N]

mutual

def createMergePatch (previous : Value N) : Value N → Option (Value N)
  | .object current =>
    if previous = .object current then none
    else
      let patch := (previous.asObject.map fun fields => removals fields current).getD []
      some (.object (patchFields previous.asObject current patch))
  | current => if previous = current then none else some current

/-- The loop over the fields of `current`. -/
def patchFields (previous : Option (List (Str × Value N))) :
    List (Str × Value N) → List (Str × Value N) → List (Str × Value N)
  | [], patch => patch
  | (key, currentValue) :: rest, patch =>
    match previous.bind (get key) with
    | none => patchFields previous rest (insert key currentValue patch)
    | some previousValue =>
      match createMergePatch previousValue currentValue with
      | none => patchFields previous rest patch
      | some valuePatch => patchFields previous rest (insert key valuePatch patch)

end

end

mutual

def applyMergePatchValue (target : Value N) : Value N → Value N
  | .object patch => .object (applyFields patch (target.asObject.getD []))
  | patch => patch

/-- The loop over the fields of the patch. -/
def applyFields : List (Str × Value N) → List (Str × Value N) → List (Str × Value N)
  | [], target => target
  | (key, value) :: rest, target =>
    if value.isNull then applyFields rest (remove key target)
    else applyFields rest
      (insert key (applyMergePatchValue ((get key target).getD .null) value) target)

end

mutual

/-- No field of an object has the value null, at any depth of nested objects. Arrays may hold anything. -/
def nullFree : Value N → Bool
  | .object fields => nullFreeFields fields
  | _ => true

def nullFreeFields : List (Str × Value N) → Bool
  | [] => true
  | (_, value) :: rest => !value.isNull && (nullFree value && nullFreeFields rest)

end

end Dcode.WorldState

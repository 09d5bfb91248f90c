import Dcode.ApplyPatch.Hunk

/-!
# What a patch committed

`AppliedPatchDelta` of `codex-rs/apply-patch/src/lib.rs`: the changes a patch made, in order, each with the
contents it replaced. What a list of changes stands for is said on the contents of the files: what replaying
it from the contents before it gives.
-/

namespace Dcode.ApplyPatch

/-- What a file holds: a text, or bytes that are none. -/
inductive FileData where
  | text (content : Str)
  | binary (bytes : List UInt8)
deriving DecidableEq

/-- The file at each path, if there is one. -/
abbrev Contents (P : Type) := P → Option FileData

inductive AppliedPatchFileChange (P : Type) where
  | add (content : Str) (overwrittenContent : Option Str)
  | delete (content : Str)
  | update (movePath : Option P) (oldContent : Str) (overwrittenMoveContent : Option Str)
      (newContent : Str)
deriving DecidableEq

structure AppliedPatchChange (P : Type) where
  path : P
  change : AppliedPatchFileChange P
deriving DecidableEq

structure AppliedPatchDelta (P : Type) where
  changes : List (AppliedPatchChange P) := []
  exact : Bool := true
deriving DecidableEq

section

variable {P : Type} [DecidableEq P]

/-- The contents after a change. -/
def AppliedPatchChange.replay (change : AppliedPatchChange P) (c : Contents P) : Contents P :=
  match change.change with
  | .add content _ => Function.update c change.path (some (.text content))
  | .delete _ => Function.update c change.path none
  | .update none _ _ newContent => Function.update c change.path (some (.text newContent))
  | .update (some dest) _ _ newContent =>
    Function.update (Function.update c change.path none) dest (some (.text newContent))

omit [DecidableEq P] in
/-- The change records the contents that it replaces. -/
def AppliedPatchChange.Records (change : AppliedPatchChange P) (c : Contents P) : Prop :=
  match change.change with
  | .add _ overwritten => c change.path = overwritten.map .text
  | .delete content => c change.path = some (.text content)
  | .update none oldContent overwritten _ =>
    c change.path = some (.text oldContent) ∧ overwritten = none
  | .update (some dest) oldContent overwritten _ =>
    c change.path = some (.text oldContent) ∧ c dest = overwritten.map .text

/-- The contents after the changes, one after the other. -/
def replayChanges (changes : List (AppliedPatchChange P)) (c : Contents P) : Contents P :=
  changes.foldl (fun c change => change.replay c) c

/-- Each change records the contents just before it. -/
def RecordsAll : List (AppliedPatchChange P) → Contents P → Prop
  | [], _ => True
  | change :: changes, c => change.Records c ∧ RecordsAll changes (change.replay c)

end

end Dcode.ApplyPatch

import Dcode.Lib.Str

/-!
# Hunks of a patch

The data of `codex-rs/apply-patch`: the hunks that the parser produces and that the file system
operations consume, and the errors of both (`parser.rs`, `lib.rs`).
-/

namespace Dcode.ApplyPatch

/-- `std::io::ErrorKind`, as far as the crate distinguishes kinds or the file systems report them. -/
inductive ErrorKind where
  | notFound
  | permissionDenied
  | invalidInput
  | invalidData
  | isADirectory
  | notADirectory
  | filesystemLoop
  | other
deriving DecidableEq

inductive ParseError where
  | invalidPatchError (message : Str)
  | invalidHunkError (message : Str) (lineNumber : Nat)
deriving DecidableEq

/-- `ApplyPatchError`. An `IoError` is its context together with the kind of its source. -/
inductive ApplyPatchError where
  | parseError (error : ParseError)
  | ioError (context : Str) (source : ErrorKind)
  | computeReplacements (message : Str)
  | pathUri (message : Str)
  | implicitInvocation
deriving DecidableEq

/-- `UpdateFileChunk`: a block of lines to be replaced. -/
structure UpdateFileChunk where
  changeContext : Option Str
  oldLines : List Str
  newLines : List Str
  isEndOfFile : Bool
deriving DecidableEq

/-- `Hunk`. A `PathBuf` is its text. -/
inductive Hunk where
  | addFile (path : Str) (contents : Str)
  | deleteFile (path : Str)
  | updateFile (path : Str) (movePath : Option Str) (chunks : List UpdateFileChunk)
deriving DecidableEq

end Dcode.ApplyPatch

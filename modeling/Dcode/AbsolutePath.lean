import Dcode.Lib.Str

/-!
# Absolute paths

`AbsolutePathBuf` of `codex-rs/utils/absolute-path`, on Unix: an absolute and normalized path, which is the
list of its components below the root. Texts are resolved against a base; a leading `~` stands for the home
directory.
-/

namespace Dcode

/-- A component of a normalized path. -/
def NormalComponent (c : Str) : Prop := c ≠ [] ∧ c ≠ ['.'] ∧ c ≠ ['.', '.'] ∧ '/' ∉ c

instance (c : Str) : Decidable (NormalComponent c) := inferInstanceAs (Decidable (_ ∧ _ ∧ _ ∧ _))

structure AbsolutePathBuf where
  components : List Str
  normal : ∀ c ∈ components, NormalComponent c
deriving DecidableEq

/-- The directories that a relative text or `~` refers to. -/
structure ProcessEnv where
  currentDir : Option AbsolutePathBuf
  homeDir : Option Str

namespace AbsolutePathBuf

def root : AbsolutePathBuf := ⟨[], nofun⟩

variable (path : AbsolutePathBuf)

/-- The path with another component below it. -/
def child (c : Str) (h : NormalComponent c) : AbsolutePathBuf where
  components := path.components ++ [c]
  normal := by
    intro d hd
    rcases List.mem_append.mp hd with hd | hd
    · exact path.normal d hd
    · rwa [List.mem_singleton.mp hd]

def up : AbsolutePathBuf where
  components := path.components.dropLast
  normal := fun c hc => path.normal c (List.mem_of_mem_dropLast hc)

def fileName : Option Str := path.components.getLast?

/-- One step of `normalize_path`. -/
def push (c : Str) : AbsolutePathBuf :=
  if h : NormalComponent c then path.child c h
  else if c = ['.', '.'] then path.up
  else path

/-- `absolutize_from`: a text that starts with a slash does not depend on the base. -/
def absolutizeFrom (text : Str) (base : AbsolutePathBuf) : AbsolutePathBuf :=
  (text.splitOn '/').foldl push (if text.head? = some '/' then root else base)

def maybeExpandHomeDirectory (env : ProcessEnv) (text : Str) : Str :=
  match env.homeDir, text with
  | some home, ['~'] => home
  | some home, '~' :: '/' :: rest => home ++ '/' :: rest.dropWhile (· = '/')
  | _, _ => text

def resolvePathAgainstBase (env : ProcessEnv) (text : Str) (base : AbsolutePathBuf) : AbsolutePathBuf :=
  absolutizeFrom (maybeExpandHomeDirectory env text) base

/-- `AbsolutePathBuf::try_from`, which is `from_absolute_path`. It fails on a relative text if there is
no current directory. -/
def fromAbsolutePath (env : ProcessEnv) (text : Str) : Option AbsolutePathBuf :=
  let expanded := maybeExpandHomeDirectory env text
  if expanded.head? = some '/' then some (absolutizeFrom expanded root)
  else env.currentDir.map (absolutizeFrom expanded)

/-- `as_path`, as a text. -/
def asPath : Str := '/' :: ['/'].intercalate path.components

def join (env : ProcessEnv) (path : AbsolutePathBuf) (text : Str) : AbsolutePathBuf :=
  resolvePathAgainstBase env text path

/-- `starts_with`: the path is `base` or lies below it. -/
def startsWith (path base : AbsolutePathBuf) : Prop := base.components <+: path.components

instance (path base : AbsolutePathBuf) : Decidable (path.startsWith base) :=
  inferInstanceAs (Decidable (_ <+: _))

/-- `strip_prefix`: the components below `base`. -/
def stripPrefix (path base : AbsolutePathBuf) : Option (List Str) :=
  base.components.isPrefixOf? path.components

/-- The path of the first `n` components. -/
def take (path : AbsolutePathBuf) (n : Nat) : AbsolutePathBuf where
  components := path.components.take n
  normal := fun c hc => path.normal c (List.mem_of_mem_take hc)

/-- `ancestors`, from the path itself up to the root. -/
def ancestors : List AbsolutePathBuf :=
  (List.range (path.components.length + 1)).reverse.map path.take

/-- The components of `path` from the `n`-th on, below another base. -/
def rebase (n : Nat) (base : AbsolutePathBuf) : AbsolutePathBuf where
  components := base.components ++ path.components.drop n
  normal := by
    intro c hc
    rcases List.mem_append.mp hc with hc | hc
    · exact base.normal c hc
    · exact path.normal c (List.mem_of_mem_drop hc)

end AbsolutePathBuf

/-! ## Paths that are not normalized -/

/-- `std::path::Path`, as a text. -/
abbrev Path := Str

namespace Path

def isAbsolute (path : Path) : Prop := path.head? = some '/'

instance (path : Path) : Decidable path.isAbsolute := inferInstanceAs (Decidable (_ = _))

/-- `Path::components` of an absolute path, below the root; `..` stays. -/
def components (path : Path) : List Str := (path.splitOn '/').filter fun c => c ≠ [] ∧ c ≠ ['.']

def stripPrefix (path : Path) (base : AbsolutePathBuf) : Option (List Str) :=
  if path.isAbsolute then base.components.isPrefixOf? path.components else none

def startsWith (path : Path) (base : AbsolutePathBuf) : Bool := (path.stripPrefix base).isSome

end Path

end Dcode

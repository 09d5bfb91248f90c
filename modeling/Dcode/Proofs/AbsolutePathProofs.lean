import Dcode.AbsolutePath

/-!
# Facts about absolute paths

A normalized path is read back from its text, and joining a plain name adds one component.
-/

namespace Dcode.AbsolutePathBuf

open List

theorem eq_of_components {p q : AbsolutePathBuf} (h : p.components = q.components) : p = q := by
  cases p
  cases q
  cases h
  rfl

theorem push_normal (path : AbsolutePathBuf) {c : Str} (h : NormalComponent c) : path.push c = path.child c h :=
  dif_pos h

@[simp] theorem push_nil (path : AbsolutePathBuf) : path.push [] = path := by
  simp [push, NormalComponent]

theorem foldl_push_components (base : AbsolutePathBuf) {cs : List Str} (h : ∀ c ∈ cs, NormalComponent c) :
    (cs.foldl push base).components = base.components ++ cs := by
  induction cs generalizing base with
  | nil => simp
  | cons c cs ih =>
    obtain ⟨hc, hcs⟩ := forall_mem_cons.mp h
    rw [foldl_cons, push_normal base hc, ih _ hcs]
    simp [child]

/-! ## Texts -/

theorem splitOn_asPath (path : AbsolutePathBuf) :
    path.asPath.splitOn '/' = [] :: (if path.components = [] then [[]] else path.components) := by
  rw [asPath, splitOn_cons_eq_if_modifyHead, if_pos (beq_self_eq_true _)]
  split
  next h => simp [h]
  next h => rw [splitOn_intercalate _ (fun c hc => (path.normal c hc).2.2.2) h]

@[simp] theorem absolutizeFrom_asPath (path base : AbsolutePathBuf) : absolutizeFrom path.asPath base = path := by
  apply eq_of_components
  have hhead : path.asPath.head? = some '/' := rfl
  rw [absolutizeFrom, splitOn_asPath, if_pos hhead, foldl_cons, push_nil]
  split
  next h => simp [h, root]
  next h => rw [foldl_push_components root path.normal]; simp [root]

theorem maybeExpandHomeDirectory_of_head {env : ProcessEnv} {text : Str} (h : text.head? ≠ some '~') :
    maybeExpandHomeDirectory env text = text := by
  unfold maybeExpandHomeDirectory
  split
  · simp at h
  · simp at h
  · rfl

@[simp] theorem fromAbsolutePath_asPath (env : ProcessEnv) (path : AbsolutePathBuf) :
    fromAbsolutePath env path.asPath = some path := by
  have hexpand : maybeExpandHomeDirectory env path.asPath = path.asPath :=
    maybeExpandHomeDirectory_of_head (by simp [asPath])
  have hhead : path.asPath.head? = some '/' := rfl
  simp only [fromAbsolutePath, hexpand, hhead, if_true, absolutizeFrom_asPath]

/-- An absolute text always has a normalized path. -/
theorem exists_fromAbsolutePath (env : ProcessEnv) {text : Path} (h : text.isAbsolute) :
    ∃ path, fromAbsolutePath env text = some path := by
  have hexpand : maybeExpandHomeDirectory env text = text :=
    maybeExpandHomeDirectory_of_head (by rw [show text.head? = some '/' from h]; decide)
  exact ⟨_, by rw [fromAbsolutePath, hexpand]; exact if_pos h⟩

theorem join_components (env : ProcessEnv) (path : AbsolutePathBuf) {name : Str} (hn : NormalComponent name)
    (ht : name.head? ≠ some '~') : (path.join env name).components = path.components ++ [name] := by
  have hslash : name.head? ≠ some '/' := fun h => hn.2.2.2 (mem_of_head? h)
  rw [join, resolvePathAgainstBase, maybeExpandHomeDirectory_of_head ht, absolutizeFrom, if_neg hslash,
    splitOn_eq_singleton hn.2.2.2, foldl_cons, foldl_nil, push_normal path hn]
  rfl

/-! ## Prefixes -/

theorem stripPrefix_eq_some {path base : AbsolutePathBuf} {rest : List Str} :
    path.stripPrefix base = some rest ↔ path.components = base.components ++ rest := by
  rw [stripPrefix, isPrefixOf?_eq_some_iff_append_eq, eq_comm]

theorem startsWith_antisymm {p q : AbsolutePathBuf} (h : p.startsWith q) (h' : q.startsWith p) : p = q :=
  eq_of_components (h'.eq_of_length_le h.length_le)

end Dcode.AbsolutePathBuf

namespace Dcode.Path

open AbsolutePathBuf

@[simp] theorem isAbsolute_asPath (path : AbsolutePathBuf) : Path.isAbsolute path.asPath := rfl

@[simp] theorem components_asPath (path : AbsolutePathBuf) : Path.components path.asPath = path.components := by
  rw [Path.components, splitOn_asPath]
  split
  next h => simp [h]
  next =>
    rw [List.filter_cons_of_neg (by simp)]
    refine List.filter_eq_self.mpr fun c hc => ?_
    have hc := path.normal c hc
    simpa using ⟨hc.1, hc.2.1⟩

@[simp] theorem stripPrefix_asPath (path base : AbsolutePathBuf) :
    Path.stripPrefix path.asPath base = path.stripPrefix base := by
  rw [Path.stripPrefix, if_pos (isAbsolute_asPath path), components_asPath]
  rfl

theorem startsWith_asPath {path base : AbsolutePathBuf} : Path.startsWith path.asPath base ↔ path.startsWith base := by
  rw [Path.startsWith, stripPrefix_asPath, Option.isSome_iff_exists]
  constructor
  · rintro ⟨rest, h⟩
    exact ⟨rest, (AbsolutePathBuf.stripPrefix_eq_some.mp h).symm⟩
  · rintro ⟨rest, h⟩
    exact ⟨rest, AbsolutePathBuf.stripPrefix_eq_some.mpr h.symm⟩

end Dcode.Path

import Mathlib.Tactic

/-!
# Pairing calls with their outputs

A history of items, some of which are calls and some outputs, each with a key that a call and its outputs share.
`complete` adds an output behind every call that has none, `prune` removes the outputs that have no call, and
`normalize` does one after the other. What is `exempt` is kept without a call.
-/

namespace CallPairing

open List

/-- How calls and outputs are recognised, and the output that is made up for a call. -/
structure Pairing (α K : Type) where
  callKey : α → Option K
  outputKey : α → Option K
  exempt : α → Bool
  synthesize : α → α
  outputKey_of_call : ∀ {x k}, callKey x = some k → outputKey x = none
  callKey_synthesize : ∀ {x k}, callKey x = some k → callKey (synthesize x) = none
  outputKey_synthesize : ∀ {x k}, callKey x = some k → outputKey (synthesize x) = some k

variable {α K : Type} [DecidableEq K] (p : Pairing α K)

def hasCall (items : List α) (k : K) : Bool := items.any fun x => p.callKey x = some k

def hasOutput (items : List α) (k : K) : Bool := items.any fun x => p.outputKey x = some k

def missing (items : List α) (x : α) : List α :=
  match p.callKey x with
  | some k => if hasOutput p items k then [] else [p.synthesize x]
  | none => []

def isOrphan (items : List α) (x : α) : Bool :=
  match p.outputKey x with
  | some k => !p.exempt x && !hasCall p items k
  | none => false

def complete (items : List α) : List α := items.flatMap fun x => x :: missing p items x

def prune (items : List α) : List α := items.filter fun x => !isOrphan p items x

def normalize (items : List α) : List α := prune p (complete p items)

/-! ## Inserting behind items -/

theorem insertIdx_append_length (front back : List α) (y : α) :
    (front ++ back).insertIdx front.length y = front ++ y :: back := by
  induction front with
  | nil => rfl
  | cons x front ih => rw [cons_append, length_cons, insertIdx_succ_cons, ih, cons_append]

/-- Insertions that were collected with the index of the item they follow, made from the last one on, put each
one behind its item. -/
theorem foldl_insertIdx (f : α → Option α) (items : List α) :
    (items.zipIdx.filterMap fun e => (f e.1).map fun y => (e.2, y)).reverse.foldl
      (fun acc e => acc.insertIdx (e.1 + 1) e.2) items = items.flatMap fun x => x :: (f x).toList := by
  suffices h : ∀ (older : List α), ((items.zipIdx older.length).filterMap fun e => (f e.1).map fun y => (e.2, y)).foldr
        (fun e acc => acc.insertIdx (e.1 + 1) e.2) (older ++ items) =
      older ++ items.flatMap fun x => x :: (f x).toList by
    rw [foldl_reverse]
    exact h []
  induction items with
  | nil => simp
  | cons x items ih =>
    intro older
    have hrest := ih (older ++ [x])
    rw [length_append, length_singleton, append_assoc, singleton_append] at hrest
    rw [zipIdx_cons, filterMap_cons]
    cases hx : f x with
    | none => simpa [hx] using hrest
    | some y =>
      have hinsert := insertIdx_append_length (older ++ [x]) (items.flatMap fun x => x :: (f x).toList) y
      rw [length_append, length_singleton] at hinsert
      simp only [Option.map_some, foldr_cons, hrest, hinsert]
      simp [hx]

/-! ## Recognising items -/

variable {items : List α} {k : K}

theorem hasCall_iff : hasCall p items k ↔ ∃ x ∈ items, p.callKey x = some k := by
  simp [hasCall]

theorem hasOutput_iff : hasOutput p items k ↔ ∃ x ∈ items, p.outputKey x = some k := by
  simp [hasOutput]

variable {x : α}

theorem missing_of_call (h : p.callKey x = some k) :
    missing p items x = if hasOutput p items k then [] else [p.synthesize x] := by
  rw [missing, h]

theorem missing_of_not_call (h : p.callKey x = none) : missing p items x = [] := by
  rw [missing, h]

theorem missing_eq_nil_iff : missing p items x = [] ↔ ∀ k, p.callKey x = some k → hasOutput p items k := by
  cases hx : p.callKey x with
  | none => simp [missing_of_not_call p hx]
  | some k => by_cases hk : hasOutput p items k <;> simp [missing_of_call p hx]

variable {y : α}

theorem mem_missing (h : y ∈ missing p items x) :
    ∃ k, p.callKey x = some k ∧ y = p.synthesize x ∧ hasOutput p items k = false := by
  cases hx : p.callKey x with
  | none => simp [missing_of_not_call p hx] at h
  | some k =>
    by_cases hk : hasOutput p items k
    · simp [missing_of_call p hx, hk] at h
    · have hy : y = p.synthesize x := by simpa [missing_of_call p hx, hk] using h
      exact ⟨k, rfl, hy, by simpa using hk⟩

theorem isOrphan_eq_false_iff : isOrphan p items x = false ↔
      ∀ k, p.outputKey x = some k → p.exempt x = false → hasCall p items k := by
  cases hx : p.outputKey x with
  | none => simp [isOrphan, hx]
  | some k => cases he : p.exempt x <;> simp [isOrphan, hx, he]

/-! ## Completing -/

theorem mem_complete : y ∈ complete p items ↔ ∃ x ∈ items, y = x ∨ y ∈ missing p items x := by
  simp [complete]

theorem mem_complete_of_mem (h : x ∈ items) : x ∈ complete p items :=
  (mem_complete p).mpr ⟨x, h, .inl rfl⟩

theorem hasCall_complete (items : List α) (k : K) : hasCall p (complete p items) k = hasCall p items k := by
  rw [Bool.eq_iff_iff, hasCall_iff, hasCall_iff]
  constructor
  · rintro ⟨y, hy, hk⟩
    obtain ⟨x, hx, rfl | hmissing⟩ := (mem_complete p).mp hy
    · exact ⟨y, hx, hk⟩
    · obtain ⟨k', hcall, rfl, -⟩ := mem_missing p hmissing
      rw [p.callKey_synthesize hcall] at hk
      cases hk
  · rintro ⟨x, hx, hk⟩
    exact ⟨x, mem_complete_of_mem p hx, hk⟩

theorem hasOutput_complete (h : hasCall p items k) : hasOutput p (complete p items) k := by
  obtain ⟨x, hx, hk⟩ := (hasCall_iff p).mp h
  by_cases hout : hasOutput p items k
  · obtain ⟨y, hy, hyk⟩ := (hasOutput_iff p).mp hout
    exact (hasOutput_iff p).mpr ⟨y, mem_complete_of_mem p hy, hyk⟩
  · have hmissing : p.synthesize x ∈ missing p items x := by simp [missing_of_call p hk, hout]
    exact (hasOutput_iff p).mpr ⟨p.synthesize x, (mem_complete p).mpr ⟨x, hx, .inr hmissing⟩, p.outputKey_synthesize hk⟩

/-! ## Both together -/

theorem isOrphan_complete (items : List α) (x : α) : isOrphan p (complete p items) x = isOrphan p items x := by
  simp [isOrphan, hasCall_complete]

theorem isOrphan_of_mem_missing (hx : x ∈ items) (h : y ∈ missing p items x) : isOrphan p items y = false := by
  obtain ⟨k, hk, rfl, -⟩ := mem_missing p h
  rw [isOrphan_eq_false_iff]
  intro k' hk' _
  obtain rfl : k = k' := Option.some.inj ((p.outputKey_synthesize hk).symm.trans hk')
  exact (hasCall_iff p).mpr ⟨x, hx, hk⟩

/-- Item by item: an orphan goes, and anything else stays with what is missing behind it. -/
theorem normalize_eq (items : List α) :
    normalize p items = items.flatMap fun x => if isOrphan p items x then [] else x :: missing p items x := by
  rw [normalize, prune, complete, filter_flatMap]
  have hitem : ∀ x ∈ items, (x :: missing p items x).filter (fun y => !isOrphan p (complete p items) y) =
      if isOrphan p items x then [] else x :: missing p items x := by
    intro x hx
    have hkeep : (missing p items x).filter (fun y => !isOrphan p (complete p items) y) = missing p items x := by
      refine List.filter_eq_self.mpr fun y hy => ?_
      rw [isOrphan_complete, isOrphan_of_mem_missing p hx hy]
      rfl
    by_cases horphan : isOrphan p items x
    · have hnil : missing p items x = [] := by
        rw [missing_eq_nil_iff]
        intro k hk
        simp [isOrphan, p.outputKey_of_call hk] at horphan
      rw [hnil, filter_cons, isOrphan_complete, horphan]
      rfl
    · rw [filter_cons, isOrphan_complete, hkeep]
      simp [horphan]
  exact flatMap_congr hitem

theorem mem_normalize : y ∈ normalize p items ↔ y ∈ complete p items ∧ isOrphan p items y = false := by
  rw [normalize, prune, mem_filter, isOrphan_complete, Bool.not_eq_true']

/-- No call is lost, and none is added. -/
theorem hasCall_normalize (items : List α) (k : K) : hasCall p (normalize p items) k = hasCall p items k := by
  rw [← hasCall_complete p items, Bool.eq_iff_iff, hasCall_iff, hasCall_iff]
  constructor
  · rintro ⟨x, hx, hk⟩
    exact ⟨x, ((mem_normalize p).mp hx).1, hk⟩
  · rintro ⟨x, hx, hk⟩
    refine ⟨x, (mem_normalize p).mpr ⟨hx, ?_⟩, hk⟩
    simp [isOrphan, p.outputKey_of_call hk]

theorem hasOutput_normalize (h : hasCall p items k) : hasOutput p (normalize p items) k := by
  obtain ⟨y, hy, hk⟩ := (hasOutput_iff p).mp (hasOutput_complete p h)
  refine (hasOutput_iff p).mpr ⟨y, (mem_normalize p).mpr ⟨hy, ?_⟩, hk⟩
  rw [isOrphan_eq_false_iff]
  intro k' hk' _
  obtain rfl : k = k' := Option.some.inj (hk.symm.trans hk')
  exact h

theorem exists_output (hx : x ∈ normalize p items) (hk : p.callKey x = some k) :
    ∃ y ∈ normalize p items, p.outputKey y = some k := by
  have hcall : hasCall p (normalize p items) k := (hasCall_iff p).mpr ⟨x, hx, hk⟩
  rw [hasCall_normalize] at hcall
  exact (hasOutput_iff p).mp (hasOutput_normalize p hcall)

theorem exists_call (hy : y ∈ normalize p items) (hk : p.outputKey y = some k) (he : p.exempt y = false) :
    ∃ x ∈ normalize p items, p.callKey x = some k := by
  have hcall := (isOrphan_eq_false_iff p).mp ((mem_normalize p).mp hy).2 k hk he
  rw [← hasCall_normalize] at hcall
  exact (hasCall_iff p).mp hcall

theorem normalize_normalize (items : List α) : normalize p (normalize p items) = normalize p items := by
  have hcomplete : complete p (normalize p items) = normalize p items := by
    have hmissing : ∀ x ∈ normalize p items, x :: missing p (normalize p items) x = [x] := by
      intro x hx
      congr 1
      rw [missing_eq_nil_iff]
      intro k hk
      obtain ⟨y, hy, hyk⟩ := exists_output p hx hk
      exact (hasOutput_iff p).mpr ⟨y, hy, hyk⟩
    rw [complete, flatMap_congr hmissing, flatMap_singleton']
  rw [normalize, hcomplete, prune, filter_eq_self]
  intro y hy
  rw [Bool.not_eq_true', isOrphan_eq_false_iff]
  intro k hk he
  obtain ⟨x, hx, hxk⟩ := exists_call p hy hk he
  exact (hasCall_iff p).mpr ⟨x, hx, hxk⟩

end CallPairing

import Dcode.Context.History

/-!
# Dropping the last turns

A rollback cuts the history at a turn boundary and takes the context updates before the cut with it. Two rollbacks cut where
one of all their turns does. But the first may trim a message that the one rollback drops with its turn, and then only the
two clear the reference.
-/

namespace Dcode.Context

open Protocol List ContextManager Nat

variable (ops : ContextOps) {items : List ResponseItem} {first cut : Nat}

/-! ## The trim before the cut -/

/-- A trim from `cut` down to `cut'`, between which no turn begins; of the manager it may clear the reference. -/
structure Trims (items : List ResponseItem) (first cut : Nat) (trim : ContextManager → ContextManager × Nat) (cut' : Nat)
    (clears : Bool) : Prop where
  le : cut' ≤ cut
  first_le : first ≤ cut → first ≤ cut'
  between : ∀ i item, cut' ≤ i → i < cut → items[i]? = some item → isUserTurnBoundary ops item = false
  eq : ∀ self, trim self = (if clears then { self with referenceContextItem := none } else self, cut')

variable {ops}

theorem trims_stay : Trims ops items first cut (·, cut) cut false :=
  ⟨le_refl _, id, fun _ _ hle hlt => absurd hlt (not_lt.mpr hle), fun _ => rfl⟩

variable {trim : ContextManager → ContextManager × Nat}

/-- A message that is no turn boundary is trimmed, and the reference cleared for a mixed one. -/
theorem Trims.succ {cut' : Nat} {clears : Bool}
    (h : Trims ops items first cut trim cut' clears) {item : ResponseItem} (hitem : items[cut]? = some item)
    (hnot : isUserTurnBoundary ops item = false) (hfirst : first < cut + 1) (mixed : Bool) :
    Trims ops items first (cut + 1) (fun self => trim (if mixed then { self with referenceContextItem := none } else self))
      cut' (mixed || clears) := by
  refine ⟨Nat.le_succ_of_le h.le, fun _ => h.first_le (Nat.le_of_lt_succ hfirst), ?_, fun self => ?_⟩
  · intro i item' hi hlt hitem'
    rcases Nat.lt_succ_iff_lt_or_eq.mp hlt with hlt | rfl
    · exact h.between i item' hi hlt hitem'
    · obtain rfl := Option.some.inj (hitem.symm.trans hitem')
      exact hnot
  · rw [h.eq]
    cases mixed <;> cases clears <;> rfl

theorem exists_trims (items : List ResponseItem) (first cut : Nat) :
    ∃ cut' clears, Trims ops items first cut (·.trimPreTurnContextUpdates ops items first cut) cut' clears := by
  induction cut with
  | zero => exact ⟨0, false, trims_stay⟩
  | succ cut ih =>
    obtain ⟨cut', clears, h⟩ := ih
    simp only [trimPreTurnContextUpdates]
    split
    next hfirst =>
      split
      next id role content phase metadata hitem =>
        split
        next hdeveloper =>
          rw [Bool.and_eq_true, beq_iff_eq] at hdeveloper
          refine ⟨cut', _, h.succ hitem ?_ hfirst (hasNonContextualDevMessageContent content)⟩
          rw [isUserTurnBoundary, hdeveloper.1]
          simp
        · split
          next huser =>
            rw [Bool.and_eq_true, beq_iff_eq] at huser
            refine ⟨cut', _, h.succ hitem ?_ hfirst false⟩
            rw [isUserTurnBoundary, huser.1, huser.2]
            simp
          · exact ⟨_, _, trims_stay⟩
      · exact ⟨_, _, trims_stay⟩
    · exact ⟨_, _, trims_stay⟩

variable (ops) in
theorem trimPreTurnContextUpdates_of_le (self : ContextManager) (h : cut ≤ first) :
    self.trimPreTurnContextUpdates ops items first cut = (self, cut) := by
  cases cut with
  | zero => rfl
  | succ cut => rw [trimPreTurnContextUpdates, if_neg (not_lt.mpr h)]

theorem trimPreTurnContextUpdates_take (self : ContextManager) {m : Nat} (h : cut ≤ m) :
    self.trimPreTurnContextUpdates ops (items.take m) first cut = self.trimPreTurnContextUpdates ops items first cut := by
  induction cut generalizing self with
  | zero => rfl
  | succ cut ih => simp only [trimPreTurnContextUpdates, getElem?_take_of_lt h, ih _ (le_of_succ_le h)]

theorem Trims.countP_take {cut' : Nat} {clears : Bool} (h : Trims ops items first cut trim cut' clears) :
    (items.take cut').countP (isUserTurnBoundary ops) = (items.take cut).countP (isUserTurnBoundary ops) := by
  have hnone : ((items.take cut).drop cut').countP (isUserTurnBoundary ops) = 0 := by
    rw [countP_eq_zero]
    intro item hitem
    obtain ⟨i, hi⟩ := List.mem_iff_getElem?.mp hitem
    rw [getElem?_drop, getElem?_take] at hi
    split at hi
    · rw [h.between _ item (le_add_right _ _) ‹_› hi]
      exact Bool.false_ne_true
    · cases hi
  conv_rhs => rw [← take_append_drop cut' (items.take cut), countP_append, hnone, take_take, min_eq_left h.le]
  rfl

/-! ## One rollback -/

section Drop

variable (ops) (self : ContextManager)

def turnCount (items : List ResponseItem) : Nat := items.countP (isUserTurnBoundary ops)

def turnStart (items : List ResponseItem) (n : Nat) : Nat := items.findIdxNth (isUserTurnBoundary ops) n

theorem turnStart_take {m n : Nat} (h : turnStart ops items n ≤ m) :
    turnStart ops (items.take m) n = turnStart ops items n := by
  unfold turnStart at *
  induction items generalizing m n with
  | nil => rw [take_nil]
  | cons item items ih =>
    cases m with
    | zero => simpa [eq_comm] using h
    | succ m => grind

theorem turnStart_le {m n : Nat} (h : n < turnCount ops (items.take m)) : turnStart ops items n ≤ m := by
  rw [turnCount, ← countPBefore_eq_countP_take] at h
  by_contra hlt
  have hle := h.trans_le (countPBefore_mono (Nat.le_of_not_le hlt))
  rw [turnStart, countPBefore_findIdxNth_of_lt_countP (h.trans_le (countPBefore_le_countP _))] at hle
  exact Nat.lt_irrefl n hle

theorem dropLastNUserTurns_eq {n : Nat} (hn : n ≠ 0) : self.dropLastNUserTurns ops n =
      let trimmed := self.trimPreTurnContextUpdates ops self.items (turnStart ops self.items 0)
        (turnStart ops self.items (turnCount ops self.items - n))
      trimmed.1.replace (self.items.take trimmed.2) := by
  have hlength : (userMessagePositions ops self.items).length = turnCount ops self.items := length_findIdxs
  have hget : ∀ i, i < turnCount ops self.items →
      (userMessagePositions ops self.items)[i]? = some (turnStart ops self.items i) := by
    intro i hi
    rw [getElem?_eq_getElem (hlength ▸ hi)]
    exact congrArg some getElem_findIdxs_eq_findIdxNth
  simp only [dropLastNUserTurns, if_neg hn]
  rcases Nat.eq_zero_or_pos (turnCount ops self.items) with hnone | hpos
  · -- without a turn the cut is at the end, and nothing is trimmed
    have hend : turnStart ops self.items 0 = self.items.length := findIdxNth_eq_length_of_ge_countP (Nat.le_of_eq hnone)
    rw [head?_eq_getElem?, getElem?_eq_none (by omega), hnone, Nat.zero_sub, hend]
    rw [trimPreTurnContextUpdates_of_le ops self (Nat.le_refl _), take_length]
  · rw [head?_eq_getElem?, hget 0 hpos, hlength]
    dsimp only
    split
    next hle =>
      rw [Nat.sub_eq_zero_of_le hle]
    next hlt =>
      rw [getD_eq_getElem?_getD, hget _ (by omega)]
      rfl

/-- A rollback leaves the first part of the history, with all that is before the first turn and without the turns it drops. -/
theorem dropLastNUserTurns_spec (n : Nat) : (self.dropLastNUserTurns ops n).items <+: self.items ∧
    self.items.take (turnStart ops self.items 0) <+: (self.dropLastNUserTurns ops n).items ∧
    turnCount ops (self.dropLastNUserTurns ops n).items = turnCount ops self.items - n := by
  by_cases hn : n = 0
  · subst hn
    exact ⟨prefix_rfl, take_prefix _ _, rfl⟩
  rw [dropLastNUserTurns_eq ops self hn]
  obtain ⟨cut', clears, h⟩ := @exists_trims ops self.items (turnStart ops self.items 0)
    (turnStart ops self.items (turnCount ops self.items - n))
  simp only [h.eq, ContextManager.replace]
  have hcut := take_prefix cut' self.items
  refine ⟨hcut, take_prefix_take_left (h.first_le (findIdxNth_mono (Nat.zero_le _))), h.countP_take.trans ?_⟩
  rcases Nat.eq_zero_or_pos (turnCount ops self.items) with hnone | hpos
  · have hle := (take_sublist (turnStart ops self.items (turnCount ops self.items - n)) self.items).countP_le
      (p := isUserTurnBoundary ops)
    unfold turnCount at *
    omega
  · rw [← countPBefore_eq_countP_take]
    exact countPBefore_findIdxNth_of_lt_countP (Nat.sub_lt hpos (Nat.pos_of_ne_zero hn))

theorem bind_self {α : Type} (o : Option α) : o = o.bind fun _ => o := by cases o <;> rfl

/-- Two rollbacks leave the items that one of all their turns leaves, and its reference unless the first one clears it. Every
rollback leaves the first part of the history, with all that is before the first turn and without the turns it is to drop. -/
theorem dropLastNUserTurns_add (a b : Nat) :
    ((self.dropLastNUserTurns ops a).dropLastNUserTurns ops b).items = (self.dropLastNUserTurns ops (a + b)).items ∧
    ((self.dropLastNUserTurns ops a).dropLastNUserTurns ops b).referenceContextItem =
      ((self.dropLastNUserTurns ops a).referenceContextItem.bind fun _ =>
        (self.dropLastNUserTurns ops (a + b)).referenceContextItem) ∧
    ∀ n, (self.dropLastNUserTurns ops n).items <+: self.items ∧
      self.items.take (turnStart ops self.items 0) <+: (self.dropLastNUserTurns ops n).items ∧
      turnCount ops (self.dropLastNUserTurns ops n).items = turnCount ops self.items - n := by
  rw [← and_assoc]
  refine ⟨?_, dropLastNUserTurns_spec ops self⟩
  have hzero : ∀ self : ContextManager, self.dropLastNUserTurns ops 0 = self := fun self => if_pos rfl
  by_cases hb : b = 0
  · subst hb
    exact ⟨rfl, bind_self _⟩
  obtain ⟨last, clears, hlast⟩ := @exists_trims ops self.items (turnStart ops self.items 0)
    (turnStart ops self.items (turnCount ops self.items - (a + b)))
  have hone := dropLastNUserTurns_eq ops self (by omega : a + b ≠ 0)
  simp only [hlast.eq] at hone
  by_cases ha : a = 0
  · subst ha
    rw [hzero, Nat.zero_add] at *
    rw [hone]
    cases clears <;> cases hreference : self.referenceContextItem <;> simp [ContextManager.replace, hreference]
  obtain ⟨cut, clears', hcut⟩ := @exists_trims ops self.items (turnStart ops self.items 0)
    (turnStart ops self.items (turnCount ops self.items - a))
  have hfirst := dropLastNUserTurns_eq ops self ha
  simp only [hcut.eq] at hfirst
  have hitems : (self.dropLastNUserTurns ops a).items = self.items.take cut := by rw [hfirst]; rfl
  have hcount : turnCount ops (self.items.take cut) = turnCount ops self.items - a := by
    rw [← hitems]
    exact (dropLastNUserTurns_spec ops self a).2.2
  -- the turns that the second rollback counts begin where they did
  have hstart : turnStart ops self.items 0 ≤ cut := hcut.first_le (findIdxNth_mono (Nat.zero_le _))
  have hend : turnStart ops self.items (turnCount ops self.items - (a + b)) ≤ cut := by
    by_cases hle : turnCount ops self.items ≤ a
    · rwa [Nat.sub_eq_zero_of_le (hle.trans (Nat.le_add_right a b))]
    · exact turnStart_le ops (by omega)
  have htwo := dropLastNUserTurns_eq ops (self.dropLastNUserTurns ops a) hb
  rw [hitems, hcount, Nat.sub_sub, turnStart_take ops hstart, turnStart_take ops hend,
    trimPreTurnContextUpdates_take _ hend] at htwo
  simp only [hlast.eq, take_take, Nat.min_eq_left (hlast.le.trans hend)] at htwo
  rw [htwo, hone, hfirst]
  cases clears <;> cases clears' <;> cases hreference : self.referenceContextItem <;>
    simp [ContextManager.replace, hreference]

end Drop

/-! ## A reference that only two rollbacks clear -/

def plainTexts : ContextOps where
  isHookPrompt _ := false
  isStandardContextualUserText _ := false
  interAgentFromStr _ := none
  truncateFunctionOutputPayload output := output

def said (role : String) (texts : List String) : ResponseItem :=
  .message none role.toList (texts.map fun text => .inputText text.toList) none none

def mixedBeforeThird : ContextManager where
  items := [said "user" ["a"], said "user" ["b"], said "developer" ["<tools>", "be brief"], said "user" ["c"]]
  referenceContextItem := some { model := ['m'] }

theorem dropLastNUserTurns_add_clears :
    ((mixedBeforeThird.dropLastNUserTurns plainTexts 1).dropLastNUserTurns plainTexts 1).referenceContextItem = none ∧
    (mixedBeforeThird.dropLastNUserTurns plainTexts 2).referenceContextItem = some { model := ['m'] } := by
  decide +kernel

end Dcode.Context

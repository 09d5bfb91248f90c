import Mathlib.Tactic

/-!
# Logs with rollback

A log of entries that each add an element or take back the newest ones. Replaying it from the front keeps a stack of
what is still there; reading it from the back needs only the number of elements that are yet to be skipped
(`scanBack_reverse`).
-/

namespace RollbackLog

open List

variable {α : Type}

/-- An entry: an element is added, or the newest `n` are taken back. -/
inductive Entry (α : Type) where
  | push (a : α)
  | pop (n : Nat)

/-- The replay from the front, with the newest element first. -/
def run : List (Entry α) → List α → List α
  | [], stack => stack
  | .push a :: log, stack => run log (a :: stack)
  | .pop n :: log, stack => run log (stack.drop n)

def scanBack : List (Entry α) → Nat → List α
  | [], _ => []
  | .pop n :: log, skip => scanBack log (skip + n)
  | .push a :: log, 0 => a :: scanBack log 0
  | .push _ :: log, skip + 1 => scanBack log skip

/-- The number of elements still to skip behind a part of the log read from the back. -/
def pending : List (Entry α) → Nat → Nat
  | [], skip => skip
  | .pop n :: log, skip => pending log (skip + n)
  | .push _ :: log, 0 => pending log 0
  | .push _ :: log, skip + 1 => pending log skip

theorem run_append (log more : List (Entry α)) (stack : List α) :
    run (log ++ more) stack = run more (run log stack) := by
  induction log generalizing stack with
  | nil => rfl
  | cons entry log ih => cases entry <;> exact ih _

theorem scanBack_append (log more : List (Entry α)) (skip : Nat) :
    scanBack (log ++ more) skip = scanBack log skip ++ scanBack more (pending log skip) := by
  induction log generalizing skip with
  | nil => rfl
  | cons entry log ih =>
    cases entry with
    | pop n => exact ih _
    | push a =>
      cases skip with
      | zero =>
        have h := ih 0
        simp [scanBack, pending, h]
      | succ skip => exact ih _

theorem pending_append (log more : List (Entry α)) (skip : Nat) :
    pending (log ++ more) skip = pending more (pending log skip) := by
  induction log generalizing skip with
  | nil => rfl
  | cons entry log ih =>
    cases entry with
    | pop n => exact ih _
    | push a => cases skip <;> exact ih _

/-- Reading the log from the back finds what the replay from the front leaves. -/
theorem scanBack_reverse (log : List (Entry α)) (skip : Nat) : scanBack log.reverse skip = (run log []).drop skip := by
  induction log using reverseRecOn generalizing skip with
  | nil => simp [scanBack, run]
  | append_singleton log entry ih =>
    rw [reverse_concat, run_append]
    cases entry with
    | pop n => rw [scanBack, ih, run, run, drop_drop, Nat.add_comm]
    | push a =>
      cases skip with
      | zero => rw [scanBack, ih, run, run, drop_zero, drop_zero]
      | succ skip => rw [scanBack, ih, run, run, drop_succ_cons]

def Entry.pushed? : Entry α → Option α
  | .push a => some a
  | .pop _ => none

/-- What is left is a part of what was added, in the same order. -/
theorem scanBack_sublist (log : List (Entry α)) (skip : Nat) :
    (scanBack log skip).Sublist (log.filterMap Entry.pushed?) := by
  induction log generalizing skip with
  | nil => exact Sublist.slnil
  | cons entry log ih =>
    cases entry with
    | pop n => exact ih _
    | push b =>
      cases skip with
      | zero => exact (ih 0).cons_cons b
      | succ skip => exact (ih skip).cons b

/-! ## Skipping only what counts

A reader that skips elements until it has passed as many that count as it is to skip keeps less than one that counts
every element it skips. -/

section Counted

variable (counts : α → Bool)

/-- What is left, read from the back, when only some elements count against the number to skip. -/
def scanBackCounted : List (Entry α) → Nat → List α
  | [], _ => []
  | .pop n :: log, skip => scanBackCounted log (skip + n)
  | .push a :: log, 0 => a :: scanBackCounted log 0
  | .push a :: log, skip + 1 => scanBackCounted log (if counts a then skip else skip + 1)

variable {counts}

variable (log : List (Entry α))

theorem scanBackCounted_sublist {skip skip' : Nat} (hle : skip ≤ skip') :
    (scanBackCounted counts log skip').Sublist (scanBack log skip) := by
  induction log generalizing skip skip' with
  | nil => exact Sublist.slnil
  | cons entry log ih =>
    cases entry with
    | pop n => exact ih (by omega)
    | push a =>
      cases skip' with
      | zero =>
        obtain rfl : skip = 0 := by omega
        exact (ih (Nat.le_refl 0)).cons_cons a
      | succ skip' =>
        cases skip with
        | zero => exact (ih (Nat.zero_le _)).cons a
        | succ skip => exact ih (by split <;> omega)

/-- With more to skip it keeps strictly less, as long as there is something to keep. -/
theorem length_scanBackCounted_lt {skip skip' : Nat} (hlt : skip < skip') (hne : scanBack log skip ≠ []) :
    (scanBackCounted counts log skip').length < (scanBack log skip).length := by
  induction log generalizing skip skip' with
  | nil => exact absurd rfl hne
  | cons entry log ih =>
    cases entry with
    | pop n => exact ih (by omega) hne
    | push a =>
      obtain ⟨skip', rfl⟩ : ∃ n, skip' = n + 1 := ⟨skip' - 1, by omega⟩
      cases skip with
      | zero =>
        have hsub := @scanBackCounted_sublist α counts log 0 (if counts a then skip' else skip' + 1) (Nat.zero_le _)
        have hle := hsub.length_le
        change (scanBackCounted counts log _).length < (a :: scanBack log 0).length
        rw [length_cons]
        omega
      | succ skip =>
        refine ih ?_ hne
        split <;> omega

/-- Both readers keep the same as long as one that does not count is skipped only where nothing older is kept. -/
def Agrees (counts : α → Bool) : List (Entry α) → Nat → Prop
  | [], _ => True
  | .pop n :: log, skip => Agrees counts log (skip + n)
  | .push _ :: log, 0 => Agrees counts log 0
  | .push a :: log, skip + 1 => (counts a = false → scanBack log skip = []) ∧ Agrees counts log skip

theorem agrees_of_scanBack_eq_nil {skip : Nat} (h : scanBack log skip = []) : Agrees counts log skip := by
  induction log generalizing skip with
  | nil => trivial
  | cons entry log ih =>
    cases entry with
    | pop n => exact ih h
    | push a =>
      cases skip with
      | zero => cases h
      | succ skip => exact ⟨fun _ => h, ih h⟩

theorem scanBackCounted_eq_iff (skip : Nat) :
    scanBackCounted counts log skip = scanBack log skip ↔ Agrees counts log skip := by
  induction log generalizing skip with
  | nil => exact iff_of_true rfl trivial
  | cons entry log ih =>
    cases entry with
    | pop n => exact ih _
    | push a =>
      cases skip with
      | zero =>
        have hcons : scanBackCounted counts (.push a :: log) 0 = scanBack (.push a :: log) 0 ↔
            scanBackCounted counts log 0 = scanBack log 0 := by
          simp [scanBackCounted, scanBack]
        rw [hcons]
        exact ih 0
      | succ skip =>
        change scanBackCounted counts log (if counts a then skip else skip + 1) = scanBack log skip ↔
          (counts a = false → scanBack log skip = []) ∧ Agrees counts log skip
        cases hcounts : counts a with
        | true =>
          rw [if_pos rfl, ih]
          simp
        | false =>
          rw [if_neg (by simp)]
          constructor
          · intro heq
            have hnil : scanBack log skip = [] := by
              by_contra hne
              have hlt := @length_scanBackCounted_lt α counts log skip (skip + 1) (Nat.lt_succ_self skip) hne
              rw [heq] at hlt
              omega
            exact ⟨fun _ => hnil, agrees_of_scanBack_eq_nil log hnil⟩
          · rintro ⟨hnil, _⟩
            have hsub := @scanBackCounted_sublist α counts log skip (skip + 1) (Nat.le_succ skip)
            rw [hnil rfl] at hsub ⊢
            exact sublist_nil.mp hsub

/-- The condition at each element that does not count. -/
theorem agrees_iff (skip : Nat) :
    Agrees counts log skip ↔ ∀ newer a older, log = newer ++ .push a :: older → counts a = false →
      ∀ n, pending newer skip = n + 1 → scanBack older n = [] := by
  induction log generalizing skip with
  | nil => exact iff_of_true trivial fun newer a older h => by simp at h
  | cons entry log ih =>
    have htail : ∀ skip' : Nat, (∀ rest : List (Entry α), pending (entry :: rest) skip = pending rest skip') →
        (Agrees counts log skip' ↔ ∀ newer a older, entry :: log = entry :: newer ++ .push a :: older →
          counts a = false → ∀ n, pending (entry :: newer) skip = n + 1 → scanBack older n = []) := by
      intro skip' hpending
      rw [ih]
      constructor
      · intro h newer a older heq hcounts n hn
        rw [hpending] at hn
        exact h newer a older (List.cons.inj heq).2 hcounts n hn
      · intro h newer a older heq hcounts n hn
        refine h newer a older ?_ hcounts n ?_
        · rw [heq]; rfl
        · rw [hpending]; exact hn
    have hsplit : (∀ newer a older, entry :: log = newer ++ .push a :: older → counts a = false →
        ∀ n, pending newer skip = n + 1 → scanBack older n = []) ↔
        (∀ a, entry = .push a → counts a = false → ∀ n, skip = n + 1 → scanBack log n = []) ∧
        ∀ newer a older, entry :: log = entry :: newer ++ .push a :: older → counts a = false →
          ∀ n, pending (entry :: newer) skip = n + 1 → scanBack older n = [] := by
      constructor
      · intro h
        exact ⟨fun a ha => h [] a log (by rw [ha]; rfl), fun newer => h (entry :: newer)⟩
      · rintro ⟨hhead, hrest⟩ newer a older heq
        cases newer with
        | nil =>
          obtain ⟨rfl, rfl⟩ := List.cons.inj heq
          exact hhead a rfl
        | cons entry' newer =>
          obtain ⟨rfl, _⟩ := List.cons.inj heq
          exact hrest newer a older heq
    rw [hsplit]
    cases entry with
    | pop n =>
      rw [← htail (skip + n) fun rest => rfl]
      exact ⟨fun h => ⟨fun a ha => (by cases ha), h⟩, fun h => h.2⟩
    | push a =>
      cases skip with
      | zero =>
        rw [← htail 0 fun rest => rfl]
        exact ⟨fun h => ⟨fun _ _ _ n hn => (by cases hn), h⟩, fun h => h.2⟩
      | succ skip =>
        rw [← htail skip fun rest => rfl]
        constructor
        · rintro ⟨hhead, hrest⟩
          refine ⟨fun a' ha' hcounts n hn => ?_, hrest⟩
          obtain rfl := Entry.push.inj ha'
          obtain rfl : skip = n := by omega
          exact hhead hcounts
        · rintro ⟨hhead, hrest⟩
          exact ⟨fun hcounts => hhead a rfl hcounts skip rfl, hrest⟩

end Counted

end RollbackLog

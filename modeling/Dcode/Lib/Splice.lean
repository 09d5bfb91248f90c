import Mathlib.Tactic

/-!
# Splicing edits into a list

An edit replaces the items of a half-open range of a list by new items; an edit of length zero is an
insertion. `splice` is the meaning of a list of edits that do not get in each other's way: one pass
from left to right that copies what lies between the edits. `applyEdits` performs them one by one,
the last one first; on edits in order the two agree.
-/

/-- Replace the `oldLen` items from `start` on by `newItems`. -/
structure Edit (α : Type) where
  start : Nat
  oldLen : Nat
  newItems : List α
deriving DecidableEq

namespace Edit

variable {α : Type}

def stop (e : Edit α) : Nat := e.start + e.oldLen

/-- `a` may stand before `b`: it ends where `b` starts, or earlier. -/
def Before (a b : Edit α) : Prop := a.stop ≤ b.start

def apply (e : Edit α) (l : List α) : List α := l.take e.start ++ e.newItems ++ l.drop e.stop

end Edit

variable {α : Type}

/-- The items from `pos` on, with the edits in place: untouched items are copied, and each edit's
range gives way to its new items. -/
def splice (l : List α) : Nat → List (Edit α) → List α
  | pos, [] => l.drop pos
  | pos, e :: es => (l.drop pos).take (e.start - pos) ++ e.newItems ++ splice l e.stop es

def applyEdits (l : List α) (es : List (Edit α)) : List α := es.foldr Edit.apply l

variable {l : List α} {es : List (Edit α)}

/-- Edits in order leave everything before the first of them alone. -/
theorem take_applyEdits {p : Nat} (hp : p ≤ l.length) (hes : ∀ e ∈ es, p ≤ e.start) :
    (applyEdits l es).take p = l.take p := by
  induction es with
  | nil => rfl
  | cons e es ih =>
    have ih := ih fun x hx => hes x (List.mem_cons_of_mem _ hx)
    have hpe : p ≤ e.start := hes e List.mem_cons_self
    have hlen : p ≤ (applyEdits l es).length := by
      have h := congrArg List.length ih
      simp only [List.length_take] at h
      omega
    show ((applyEdits l es).take e.start ++ e.newItems ++ (applyEdits l es).drop e.stop).take p = _
    rw [List.append_assoc, List.take_append_of_le_length (by rw [List.length_take]; omega),
      List.take_take, min_eq_left hpe, ih]

/-- On edits in order, performing them from the last to the first is splicing them. -/
theorem drop_applyEdits (hes : es.Pairwise Edit.Before) (hl : ∀ e ∈ es, e.stop ≤ l.length) {p : Nat}
    (hp : ∀ e ∈ es, p ≤ e.start) :
    (applyEdits l es).drop p = splice l p es := by
  induction es generalizing p with
  | nil => rfl
  | cons e es ih =>
    obtain ⟨hbefore, hrest⟩ := List.pairwise_cons.mp hes
    have hle : e.stop ≤ l.length := hl e List.mem_cons_self
    have htake : (applyEdits l es).take e.stop = l.take e.stop := take_applyEdits hle hbefore
    have hdrop := ih hrest (fun x hx => hl x (List.mem_cons_of_mem _ hx)) hbefore
    have hpe : p ≤ e.start := hp e List.mem_cons_self
    have hse : e.start ≤ e.stop := Nat.le_add_right _ _
    have hstart : (applyEdits l es).take e.start = l.take e.start := by
      have h := congrArg (List.take e.start) htake
      rwa [List.take_take, List.take_take, min_eq_left hse] at h
    show ((applyEdits l es).take e.start ++ e.newItems ++ (applyEdits l es).drop e.stop).drop p = _
    rw [hstart, hdrop, splice, List.append_assoc, List.append_assoc,
      List.drop_append_of_le_length (by rw [List.length_take]; omega), List.drop_take]

theorem applyEdits_eq_splice (hes : es.Pairwise Edit.Before) (hl : ∀ e ∈ es, e.stop ≤ l.length) :
    applyEdits l es = splice l 0 es := by
  have h := drop_applyEdits hes hl (p := 0) fun _ _ => Nat.zero_le _
  rwa [List.drop_zero] at h

/-! ## Stable sorting and pairs -/

section StableSort

variable (le : α → α → Prop) [DecidableRel le]

/-- What the stable sort asks of a pair `(a, b)` of the unsorted list for `Q` to hold of it in the
order in which the sort leaves it. -/
def SortedPair (Q : α → α → Prop) (a b : α) : Prop := if le a b then Q a b else Q b a

theorem pairwise_orderedInsert_iff [IsTrans α le] [Std.Total le] {Q : α → α → Prop} {a : α}
    {l : List α} (hl : l.Pairwise le) : (l.orderedInsert le a).Pairwise Q ↔
      (∀ b ∈ l, SortedPair le Q a b) ∧ l.Pairwise Q := by
  induction l with
  | nil => simp
  | cons b l ih =>
    obtain ⟨hb, hl'⟩ := List.pairwise_cons.mp hl
    by_cases hab : le a b
    · have hall : ∀ x ∈ b :: l, le a x := by
        intro x hx
        rcases List.mem_cons.mp hx with rfl | hx
        · exact hab
        · exact IsTrans.trans _ _ _ hab (hb x hx)
      rw [List.orderedInsert_cons_of_le le l hab, List.pairwise_cons]
      have hpair : ∀ x ∈ b :: l, (SortedPair le Q a x ↔ Q a x) := fun x hx => by
        simp [SortedPair, hall x hx]
      exact and_congr_left fun _ => forall₂_congr fun x hx => (hpair x hx).symm
    · have hins : (b :: l).orderedInsert le a = b :: l.orderedInsert le a := by
        simp [hab]
      rw [hins, List.pairwise_cons, List.pairwise_cons]
      have hpair : SortedPair le Q a b ↔ Q b a := by simp [SortedPair, hab]
      simp only [List.mem_orderedInsert, List.mem_cons, forall_eq_or_imp]
      tauto

/-- A relation holds of every pair of the sorted list, in its order there, iff every pair of the
unsorted list satisfies it in the order in which a stable sort leaves the two. -/
theorem pairwise_insertionSort_iff [IsTrans α le] [Std.Total le] {Q : α → α → Prop}
    {l : List α} : (l.insertionSort le).Pairwise Q ↔ l.Pairwise (SortedPair le Q) := by
  induction l with
  | nil => simp
  | cons a l ih =>
    rw [List.insertionSort_cons, pairwise_orderedInsert_iff le (List.pairwise_insertionSort le l),
      ih, List.pairwise_cons]
    simp

end StableSort

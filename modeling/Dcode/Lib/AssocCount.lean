import Mathlib.Data.List.AList

/-!
# Counting the entries of an association list

The number of values of a map with a property, and how inserting and erasing a key change it.
-/

namespace AssocCount

open List

variable {α β : Type} [DecidableEq α]

def count (p : β → Bool) (m : AList fun _ : α => β) : Nat := m.entries.countP fun e => p e.2

theorem countP_kerase (p : β → Bool) (a : α) (l : List (Sigma fun _ : α => β)) :
    (l.kerase a).countP (fun e => p e.2) + ((l.dlookup a).any p).toNat = l.countP fun e => p e.2 := by
  induction l with
  | nil => rfl
  | cons e l ih =>
    obtain ⟨a', b⟩ := e
    by_cases heq : a = a'
    · subst heq
      have hkerase : kerase a (⟨a, b⟩ :: l) = l := kerase_cons_eq rfl
      rw [hkerase, dlookup_cons_eq, countP_cons, Option.any_some]
      cases p b <;> rfl
    · have hkerase : kerase a (⟨a', b⟩ :: l) = ⟨a', b⟩ :: kerase a l := kerase_cons_ne heq
      have hlookup : dlookup a (⟨a', b⟩ :: l) = dlookup a l := dlookup_cons_ne _ _ heq
      rw [hkerase, hlookup, countP_cons, countP_cons]
      omega

theorem count_erase (p : β → Bool) (m : AList fun _ : α => β) (a : α) :
    count p (m.erase a) + ((m.lookup a).any p).toNat = count p m :=
  countP_kerase p a m.entries

/-- Inserting a value puts it in the place of the one its key had. -/
theorem count_insert (p : β → Bool) (m : AList fun _ : α => β) (a : α) (b : β) :
    count p (m.insert a b) = count p (m.erase a) + (p b).toNat := by
  unfold count
  rw [AList.entries_insert, countP_cons]
  cases p b <;> rfl

end AssocCount

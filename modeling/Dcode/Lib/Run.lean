import Mathlib.Tactic

/-!
# Runs of a fallible step

A loop whose body may fail is a monadic fold in `Except`. What the body preserves, the whole run
preserves; a successful run splits at any point into two successful ones.
-/

namespace Run

open List Except

variable {ε σ α β : Type}

variable {b : β}

theorem bind_eq_ok {x : Except ε α} {f : α → Except ε β} : (x >>= f) = .ok b ↔ ∃ a, x = .ok a ∧ f a = .ok b := by
  cases x with
  | error e | ok a => simp [bind, Except.bind]

theorem map_eq_ok {x : Except ε α} {f : α → β} : (x >>= fun a => pure (f a)) = .ok b ↔ ∃ a, x = .ok a ∧ f a = b := by
  rw [bind_eq_ok]
  exact exists_congr fun a => and_congr_right fun _ => ⟨ok.inj, congrArg ok⟩

variable {f : σ → α → Except ε σ}

variable {l : List α} {s t : σ}

theorem foldlM_cons_eq_ok {x : α} : (x :: l).foldlM f s = .ok t ↔ ∃ u, f s x = .ok u ∧ l.foldlM f u = .ok t := by
  rw [foldlM_cons, bind_eq_ok]

theorem foldlM_append_eq_ok {l' : List α} :
    (l ++ l').foldlM f s = .ok t ↔ ∃ u, l.foldlM f s = .ok u ∧ l'.foldlM f u = .ok t := by
  rw [foldlM_append, bind_eq_ok]

theorem foldlM_concat_eq_ok {x : α} : (l ++ [x]).foldlM f s = .ok t ↔ ∃ u, l.foldlM f s = .ok u ∧ f u x = .ok t := by
  rw [foldlM_append_eq_ok]
  simp only [foldlM_cons_eq_ok]
  constructor
  · rintro ⟨u, hu, v, hv, hvt⟩
    obtain rfl : v = t := ok.inj hvt
    exact ⟨u, hu, hv⟩
  · rintro ⟨u, hu, ht⟩
    exact ⟨u, hu, t, ht, rfl⟩

/-- What every step keeps, a successful run keeps. -/
theorem foldlM_invariant {P : σ → Prop} (hstep : ∀ s x t, x ∈ l → P s → f s x = .ok t → P t) (hs : P s)
    (h : l.foldlM f s = .ok t) : P t := by
  induction l generalizing s with
  | nil =>
    obtain rfl : s = t := ok.inj h
    exact hs
  | cons x l ih =>
    obtain ⟨u, hu, ht⟩ := foldlM_cons_eq_ok.mp h
    refine ih (fun s x t hx => hstep s x t (mem_cons_of_mem _ hx)) ?_ ht
    exact hstep s x u mem_cons_self hs hu

/-! ## Mapping a fallible function -/

variable {l' : List β}

theorem mapM_eq_ok {f : α → Except ε β} : l.mapM f = .ok l' ↔ Forall₂ (fun a b => f a = .ok b) l l' := by
  induction l generalizing l' with
  | nil =>
    rw [forall₂_nil_left_iff]
    exact ⟨fun h => (ok.inj h).symm, fun h => congrArg ok h.symm⟩
  | cons a l ih =>
    rw [mapM_cons, bind_eq_ok]
    constructor
    · rintro ⟨b, hb, h⟩
      obtain ⟨bs, hbs, h⟩ := bind_eq_ok.mp h
      obtain rfl := ok.inj h
      exact .cons hb (ih.mp hbs)
    · intro h
      cases h with
      | @cons _ b _ bs hb hbs => exact ⟨b, hb, bind_eq_ok.mpr ⟨bs, ih.mpr hbs, rfl⟩⟩

/-! ## Two lists in step -/

/-- Where a list that is cut twice has its second cut. -/
theorem append_eq_append_cons {l r l' r' : List α} {a : α} (h : l ++ r = l' ++ a :: r') :
    (∃ m, l' = l ++ m ∧ r = m ++ a :: r') ∨ ∃ m, l = l' ++ a :: m ∧ r' = m ++ r := by
  rcases append_eq_append_iff.mp h with ⟨m, hl, hr⟩ | ⟨m, hl, hr⟩
  · exact .inl ⟨m, hl, hr⟩
  · cases m with
    | nil => exact .inl ⟨[], by simp [hl], hr.symm⟩
    | cons b m =>
      obtain ⟨rfl, rfl⟩ := List.cons.inj hr
      exact .inr ⟨m, hl, rfl⟩

theorem exists_of_mem_right {R : α → β → Prop} (h : Forall₂ R l l') (hb : b ∈ l') : ∃ a ∈ l, R a b := by
  induction h with
  | nil => cases hb
  | @cons a b' l l' hab _ ih =>
    rcases mem_cons.mp hb with rfl | hb
    · exact ⟨a, mem_cons_self, hab⟩
    · obtain ⟨a', ha', hr⟩ := ih hb
      exact ⟨a', mem_cons_of_mem _ ha', hr⟩

end Run

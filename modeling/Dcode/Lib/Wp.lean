
/-!
# Weakest preconditions of stateful code that may fail

A procedure that changes a state and may stop with an error is an `EStateM`; the state it leaves behind
counts in both cases. `wp x Q E s` says that `x`, started in `s`, ends well in a state that satisfies `Q`
or with an error in a state that satisfies `E`. A loop keeps what its body keeps.
-/

namespace Wp

variable {ε ε' σ τ α β : Type}

/-- Started in `s`, the procedure returns as `Q` says or fails as `E` says. -/
def wp (x : EStateM ε σ α) (Q : α → σ → Prop) (E : ε → σ → Prop) (s : σ) : Prop :=
  match x s with
  | .ok a t => Q a t
  | .error e t => E e t

/-- The result of a procedure as a value: an error does not stop the caller. -/
def attempt (x : EStateM ε σ α) : EStateM ε' σ (Except ε α) := fun s =>
  match x s with
  | .ok a t => .ok (.ok a) t
  | .error e t => .ok (.error e) t

def onError (f : σ → σ) (x : EStateM ε σ α) : EStateM ε σ α := fun s =>
  match x s with
  | .ok a t => .ok a t
  | .error e t => .error e (f t)

section Rules

variable {Q Q' : α → σ → Prop} {E E' : ε → σ → Prop} {s : σ} {x : EStateM ε σ α}

theorem wp_mono (h : wp x Q E s) (hQ : ∀ a t, Q a t → Q' a t) (hE : ∀ e t, E e t → E' e t) : wp x Q' E' s := by
  unfold wp at *
  cases hx : x s with
  | ok a t => rw [hx] at h; exact hQ a t h
  | error e t => rw [hx] at h; exact hE e t h

theorem wp_ok (h : wp x Q E s) {a : α} {t : σ} (hx : x s = .ok a t) : Q a t := by
  unfold wp at h
  rwa [hx] at h

theorem wp_of_ok {a : α} {t : σ} (hx : x s = .ok a t) : wp x Q E s ↔ Q a t := by
  unfold wp
  rw [hx]

@[simp] theorem wp_pure (a : α) : wp (pure a) Q E s ↔ Q a s := Iff.rfl

@[simp] theorem wp_modify {Q : Unit → σ → Prop} (f : σ → σ) : wp (modify f) Q E s ↔ Q () (f s) :=
  Iff.rfl

@[simp] theorem wp_get {Q : σ → σ → Prop} : wp get Q E s ↔ Q s s := Iff.rfl

theorem wp_bind {Q : β → σ → Prop} {f : α → EStateM ε σ β} :
    wp (x >>= f) Q E s ↔ wp x (fun a t => wp (f a) Q E t) E s := by
  unfold wp
  cases hx : x s with
  | ok a t | error e t => simp [bind, EStateM.bind, hx]

/-- Sequencing. What is known of a failure of the first part mostly is, or implies at once, what is to be shown of it. -/
theorem wp_seq {Q : β → σ → Prop} {f : α → EStateM ε σ β} (h : wp x Q' E' s) (hQ : ∀ a t, Q' a t → wp (f a) Q E t)
    (hE : ∀ e t, E' e t → E e t := by intro _ _ h; first | exact h | exact h.elim | trivial) : wp (x >>= f) Q E s :=
  wp_bind.mpr (wp_mono h hQ hE)

theorem wp_attempt {Q : Except ε α → σ → Prop} {E : ε' → σ → Prop} :
    wp (attempt x) Q E s ↔ wp x (fun a t => Q (.ok a) t) (fun e t => Q (.error e) t) s := by
  unfold wp attempt
  cases x s <;> rfl

theorem wp_onError (f : σ → σ) : wp (onError f x) Q E s ↔ wp x Q (fun e t => E e (f t)) s := by
  unfold wp onError
  cases x s <;> rfl

def after (x : EStateM ε σ α) (s : σ) : σ :=
  match x s with
  | .ok _ t => t
  | .error _ t => t

theorem wp_after {R : σ → Prop} (h : wp x (fun _ t => R t) (fun _ t => R t) s) : R (after x s) := by
  unfold wp at h
  unfold after
  cases hx : x s with
  | ok a t | error e t => rw [hx] at h; exact h

end Rules

/-- What every round of a loop keeps holds after it, whether the loop ends or a round fails. The rounds still
to come and the value that the loop hands on are known to the invariant. -/
theorem wp_foldlM {I : List α → β → σ → Prop} {E : ε → σ → Prop} {f : β → α → EStateM ε σ β}
    (hstep : ∀ a l b s, I (a :: l) b s → wp (f b a) (fun b' t => I l b' t) E s) (l : List α) {b : β} {s : σ}
    (hs : I l b s) : wp (l.foldlM f b) (fun b' t => I [] b' t) E s := by
  induction l generalizing b s with
  | nil => exact hs
  | cons a l ih =>
    rw [List.foldlM_cons, wp_bind]
    exact wp_mono (hstep a l b s hs) (fun _ t ht => ih ht) (fun _ _ h => h)

end Wp

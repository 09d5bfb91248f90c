import Mathlib
import Dcode.Lib.Str

/-!
# ASCII case

Lower-casing a text changes its letters only, so whatever cuts a text at other characters commutes with it.
-/

namespace Str

open List Char

/-- No other character becomes one that is not a letter. -/
theorem toLower_eq_iff {c d : Char} (hd : d.isAlpha = false) : c.toLower = d ↔ c = d := by
  by_cases hc : c.isUpper
  · have halpha : c.isAlpha := by simp [isAlpha, hc]
    refine iff_of_false ?_ ?_
    · intro h
      rw [← h, isAlpha_toLower_eq_isAlpha, halpha] at hd
      cases hd
    · rintro rfl
      rw [halpha] at hd
      cases hd
  · rw [toLower_eq_of_not_isUpper hc]

@[simp] theorem isWhitespace_toLower (c : Char) : isWhitespace c.toLower = isWhitespace c := by
  by_cases hc : c.isUpper = true
  · rw [toLower_eq_of_isUpper hc]
    simp only [isUpper, decide_eq_true_eq, UInt32.le_iff_toNat_le] at hc
    have hlow : 65 ≤ c.toNat := hc.1
    have hhigh : c.toNat ≤ 90 := hc.2
    have hval : (ofNat (c.toNat + 32)).toNat = c.toNat + 32 := by
      rw [toNat_ofNat, if_pos (.inl (by omega))]
    have hlarge : ∀ d : Char, 65 ≤ d.toNat → d.toNat ≤ 122 → isWhitespace d = false := by
      intro d h1 h2
      simp only [isWhitespace, Bool.or_eq_false_iff, Bool.and_eq_false_iff, beq_eq_false_iff_ne,
        decide_eq_false_iff_not]
      omega
    rw [hlarge c (by omega) (by omega), hlarge _ (by omega) (by omega)]
  · rw [toLower_eq_of_not_isUpper hc]

@[simp] theorem toAsciiLowercase_toAsciiLowercase (s : Str) :
    toAsciiLowercase (toAsciiLowercase s) = toAsciiLowercase s := by
  simp [toAsciiLowercase]

theorem mem_toAsciiLowercase {d : Char} (hd : d.isAlpha = false) {s : Str} : d ∈ toAsciiLowercase s ↔ d ∈ s := by
  simp [toAsciiLowercase, toLower_eq_iff hd]

theorem head?_toAsciiLowercase {d : Char} (hd : d.isAlpha = false) {s : Str} :
    (toAsciiLowercase s).head? = some d ↔ s.head? = some d := by
  cases s with
  | nil => simp [toAsciiLowercase]
  | cons c s => simp [toAsciiLowercase, toLower_eq_iff hd]

theorem count_toAsciiLowercase {d : Char} (hd : d.isAlpha = false) (s : Str) :
    (toAsciiLowercase s).count d = s.count d := by
  rw [toAsciiLowercase, count_eq_countP, count_eq_countP, countP_map]
  refine countP_congr fun c _ => ?_
  simp [toLower_eq_iff hd]

theorem takeWhile_toAsciiLowercase {d : Char} (hd : d.isAlpha = false) (s : Str) :
    (toAsciiLowercase s).takeWhile (· ≠ d) = toAsciiLowercase (s.takeWhile (· ≠ d)) := by
  rw [toAsciiLowercase, takeWhile_map, toAsciiLowercase]
  congr 2
  funext c
  simp [toLower_eq_iff hd]

@[simp] theorem tail_toAsciiLowercase (s : Str) : (toAsciiLowercase s).tail = toAsciiLowercase s.tail := by
  cases s <;> rfl

theorem rdropWhile_toAsciiLowercase {p : Char → Bool} (hp : ∀ c : Char, p c.toLower = p c) (s : Str) :
    (toAsciiLowercase s).rdropWhile p = toAsciiLowercase (s.rdropWhile p) := by
  have hcomp : p ∘ toLower = p := funext hp
  rw [toAsciiLowercase, rdropWhile, ← map_reverse, dropWhile_map, hcomp, ← map_reverse]
  rfl

@[simp] theorem trim_toAsciiLowercase (s : Str) : trim (toAsciiLowercase s) = toAsciiLowercase (trim s) := by
  have hcomp : isWhitespace ∘ toLower = isWhitespace := funext isWhitespace_toLower
  have hstart : trimStart (toAsciiLowercase s) = toAsciiLowercase (trimStart s) := by
    rw [trimStart, toAsciiLowercase, dropWhile_map, hcomp]
    rfl
  rw [trim, hstart, trimEnd, rdropWhile_toAsciiLowercase isWhitespace_toLower]
  rfl

/-- A prefix without letters is stripped alike. -/
theorem stripPrefix_toAsciiLowercase {p : Str} (hp : ∀ c ∈ p, c.isAlpha = false) (s : Str) :
    stripPrefix p (toAsciiLowercase s) = (stripPrefix p s).map toAsciiLowercase := by
  induction p generalizing s with
  | nil => simp [stripPrefix, isPrefixOf?]
  | cons d p ih =>
    cases s with
    | nil => rfl
    | cons c s =>
      have hd := toLower_eq_iff (c := c) (hp d mem_cons_self)
      have htail := ih (fun c hc => hp c (mem_cons_of_mem _ hc)) s
      by_cases hcd : c = d
      · subst hcd
        have hself : c.toLower = c := hd.mpr rfl
        simpa [stripPrefix, isPrefixOf?, toAsciiLowercase, hself] using htail
      · have hne : ¬ d = c.toLower := fun h => hcd (hd.mp h.symm)
        simp [stripPrefix, isPrefixOf?, toAsciiLowercase, hne, Ne.symm hcd]

/-- A text without letters is only its own lower case. -/
theorem toAsciiLowercase_eq_iff {t : Str} (ht : ∀ c ∈ t, c.isAlpha = false) {s : Str} :
    toAsciiLowercase s = t ↔ s = t := by
  induction t generalizing s with
  | nil => simp [toAsciiLowercase]
  | cons d t ih =>
    cases s with
    | nil => simp [toAsciiLowercase]
    | cons c s =>
      have htail := ih (fun c hc => ht c (mem_cons_of_mem _ hc)) (s := s)
      have hhead := toLower_eq_iff (c := c) (ht d mem_cons_self)
      simp only [toAsciiLowercase, map_cons, cons.injEq] at htail ⊢
      rw [hhead, htail]

end Str

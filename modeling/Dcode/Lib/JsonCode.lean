import Dcode.Lib.Json

/-!
# A code of JSON values

Every value has a code, a sequence of bytes, and different values have different codes: each part of a code says by itself
where it ends.
-/

namespace Value

open List

/-! ## Codes as numbers -/

def codeText (s : Str) : List Nat := s.length :: s.map Char.toNat

mutual

def code : Value Nat → List Nat
  | .null => [0]
  | .bool b => [1, b.toNat]
  | .number n => [2, n]
  | .string s => 3 :: codeText s
  | .array elems => 4 :: codeElems elems
  | .object fields => 5 :: codeFields fields

def codeElems : List (Value Nat) → List Nat
  | [] => [0]
  | v :: elems => 1 :: (code v ++ codeElems elems)

def codeFields : List (Str × Value Nat) → List Nat
  | [] => [0]
  | (k, v) :: fields => 1 :: (codeText k ++ (code v ++ codeFields fields))

end

theorem codeText_append_inj {s t : Str} {r r' : List Nat} (h : codeText s ++ r = codeText t ++ r') : s = t ∧ r = r' := by
  obtain ⟨hlength, hrest⟩ := cons.inj h
  obtain ⟨hchars, hr⟩ := append_inj hrest (by rw [length_map, length_map, hlength])
  exact ⟨List.map_injective_iff.mpr (fun _ _ => Char.toNat_inj.mp) hchars, hr⟩

mutual

theorem code_append_inj : ∀ {v w : Value Nat} {r r' : List Nat}, code v ++ r = code w ++ r' → v = w ∧ r = r'
  | .null, w, r, r', h => by
    cases w <;> simp_all [code]
  | .bool b, w, r, r', h => by
    cases w with
    | bool c => cases b <;> cases c <;> simp_all [code]
    | _ => simp [code] at h
  | .number n, w, r, r', h => by
    cases w <;> simp_all [code]
  | .string s, w, r, r', h => by
    cases w with
    | string t =>
      obtain ⟨rfl, hr⟩ := codeText_append_inj (cons.inj h).2
      exact ⟨rfl, hr⟩
    | _ => simp [code] at h
  | .array as, w, r, r', h => by
    cases w with
    | array bs =>
      obtain ⟨rfl, hr⟩ := codeElems_append_inj (cons.inj h).2
      exact ⟨rfl, hr⟩
    | _ => simp [code] at h
  | .object as, w, r, r', h => by
    cases w with
    | object bs =>
      obtain ⟨rfl, hr⟩ := codeFields_append_inj (cons.inj h).2
      exact ⟨rfl, hr⟩
    | _ => simp [code] at h

theorem codeElems_append_inj : ∀ {as bs : List (Value Nat)} {r r' : List Nat}, codeElems as ++ r = codeElems bs ++ r' →
    as = bs ∧ r = r'
  | [], bs, r, r', h => by
    cases bs <;> simp_all [codeElems]
  | a :: as, bs, r, r', h => by
    cases bs with
    | nil => simp [codeElems] at h
    | cons b bs =>
      rw [codeElems, codeElems, cons_append, cons_append, append_assoc, append_assoc] at h
      obtain ⟨rfl, hrest⟩ := code_append_inj (cons.inj h).2
      obtain ⟨rfl, hr⟩ := codeElems_append_inj hrest
      exact ⟨rfl, hr⟩

theorem codeFields_append_inj : ∀ {as bs : List (Str × Value Nat)} {r r' : List Nat},
    codeFields as ++ r = codeFields bs ++ r' → as = bs ∧ r = r'
  | [], bs, r, r', h => by
    cases bs <;> simp_all [codeFields]
  | (k, a) :: as, bs, r, r', h => by
    cases bs with
    | nil => simp [codeFields] at h
    | cons e bs =>
      rw [codeFields, codeFields, cons_append, cons_append, append_assoc, append_assoc, append_assoc, append_assoc] at h
      obtain ⟨rfl, hvalue⟩ := codeText_append_inj (cons.inj h).2
      obtain ⟨rfl, hrest⟩ := code_append_inj hvalue
      obtain ⟨rfl, hr⟩ := codeFields_append_inj hrest
      exact ⟨rfl, hr⟩

end

/-! ## Codes as bytes -/

def unary (n : Nat) : Bytes := List.replicate n 1 ++ [0]

theorem unary_append_inj {n m : Nat} {r r' : Bytes} (h : unary n ++ r = unary m ++ r') : n = m ∧ r = r' := by
  induction n generalizing m with
  | zero =>
    cases m with
    | zero => exact ⟨rfl, (cons.inj h).2⟩
    | succ m => cases (cons.inj h).1
  | succ n ih =>
    cases m with
    | zero => cases (cons.inj h).1
    | succ m =>
      obtain ⟨rfl, hr⟩ := ih (cons.inj h).2
      exact ⟨rfl, hr⟩

theorem flatMap_unary_injective {as bs : List Nat} (h : as.flatMap unary = bs.flatMap unary) : as = bs := by
  induction as generalizing bs with
  | nil =>
    cases bs with
    | nil => rfl
    | cons b bs =>
      rw [flatMap_nil, flatMap_cons, eq_comm, append_eq_nil_iff] at h
      exact absurd h.1 (by simp [unary])
  | cons a as ih =>
    cases bs with
    | nil =>
      rw [flatMap_nil, flatMap_cons, append_eq_nil_iff] at h
      exact absurd h.1 (by simp [unary])
    | cons b bs =>
      obtain ⟨rfl, hrest⟩ := unary_append_inj h
      rw [ih hrest]

def codeBytes (v : Value Nat) : Bytes := (code v).flatMap unary

theorem codeBytes_injective : Function.Injective codeBytes := by
  intro v w h
  have hcode := flatMap_unary_injective h
  have happend : code v ++ [] = code w ++ [] := by rw [hcode]
  exact (code_append_inj happend).1

end Value

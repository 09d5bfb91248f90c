import Mathlib.Tactic

/-!
# Files of terminated lines

A file that is only appended to, one line after another. An append that fails may leave a part of its line; the
next one then terminates that part first, so that the file is a sequence of lines again, some of them torn.
-/

namespace LineLog

open List

variable {α : Type} (newline : α)

def terminated : List α → List α
  | [] => []
  | b :: text => b :: text ++ [newline]

/-! ## Reading -/

section Reading

variable [DecidableEq α]

/-- The terminated lines of a file, each with its newline, when `line` is what was read of the first. -/
def completeLinesFrom : List α → List α → List (List α)
  | _, [] => []
  | line, b :: rest =>
    if b = newline then (line ++ [b]) :: completeLinesFrom [] rest else completeLinesFrom (line ++ [b]) rest

/-- The terminated lines of a file. What follows the last newline is left out. -/
def completeLines (file : List α) : List (List α) := completeLinesFrom newline [] file

variable {newline}

theorem completeLinesFrom_append {text : List α} (h : newline ∉ text) (line rest : List α) :
    completeLinesFrom newline line (text ++ newline :: rest) = (line ++ text ++ [newline]) :: completeLines newline rest := by
  induction text generalizing line with
  | nil =>
    rw [nil_append, completeLinesFrom, if_pos rfl, append_nil]
    rfl
  | cons b text ih =>
    rw [mem_cons, not_or] at h
    rw [cons_append, completeLinesFrom, if_neg (Ne.symm h.1), ih h.2]
    simp

theorem completeLines_terminated {text : List α} (h : newline ∉ text) (rest : List α) :
    completeLines newline (terminated newline text ++ rest) =
      (if text = [] then [] else [text ++ [newline]]) ++ completeLines newline rest := by
  cases text with
  | nil => rfl
  | cons b text =>
    have happend := completeLinesFrom_append h [] rest
    rw [nil_append] at happend
    rw [terminated, append_assoc, singleton_append, completeLines, happend, if_neg (by simp), singleton_append]

/-- A file of terminated texts is read back as those of them of which something was written. -/
theorem completeLines_flatMap {texts : List (List α)} (h : ∀ text ∈ texts, newline ∉ text) :
    completeLines newline (texts.flatMap (terminated newline)) = (texts.filter (· ≠ [])).map (· ++ [newline]) := by
  induction texts with
  | nil => rfl
  | cons text texts ih =>
    rw [forall_mem_cons] at h
    rw [flatMap_cons, completeLines_terminated h.1, ih h.2]
    cases text with
    | nil | cons b text => rfl

end Reading

/-! ## Appending -/

def ensureTerminated [DecidableEq α] (file : List α) : List α :=
  match file.getLast? with
  | none => file
  | some b => if b = newline then file else file ++ [newline]

def Terminated (texts : List (List α)) (file : List α) : Prop := file = texts.flatMap (terminated newline)

def Torn (texts : List (List α)) (file : List α) : Prop :=
  file ++ [newline] = texts.flatMap (terminated newline) ∧ ∃ b, file.getLast? = some b ∧ b ≠ newline

variable {newline}

theorem getLast?_terminated (text : List α) : (terminated newline text).getLast? = if text = [] then none else some newline := by
  cases text with
  | nil => rfl
  | cons b text => rw [terminated, if_neg (by simp), getLast?_append, getLast?_singleton, Option.some_or]

theorem getLast?_flatMap (texts : List (List α)) :
    (texts.flatMap (terminated newline)).getLast? = none ∨ (texts.flatMap (terminated newline)).getLast? = some newline := by
  induction texts using List.reverseRecOn with
  | nil => exact .inl rfl
  | append_singleton texts text ih =>
    rw [flatMap_append, flatMap_singleton, getLast?_append, getLast?_terminated]
    split
    · exact ih
    · exact .inr rfl

variable {texts : List (List α)} {file : List α}

theorem ensureTerminated_of_terminated [DecidableEq α] (h : Terminated newline texts file) :
    Terminated newline texts (ensureTerminated newline file) := by
  have hlast := @getLast?_flatMap α newline texts
  rw [← h] at hlast
  rw [ensureTerminated]
  rcases hlast with hnone | hsome
  · rw [hnone]
    exact h
  · rw [hsome]
    exact (if_pos rfl).trans h

theorem ensureTerminated_of_torn [DecidableEq α] (h : Torn newline texts file) :
    Terminated newline texts (ensureTerminated newline file) := by
  obtain ⟨hfile, b, hlast, hb⟩ := h
  rw [ensureTerminated, hlast]
  exact (if_neg hb).trans hfile

theorem Terminated.append {text : List α} (h : Terminated newline texts file) (hne : text ≠ []) :
    Terminated newline (texts ++ [text]) (file ++ (text ++ [newline])) := by
  cases text with
  | nil => exact absurd rfl hne
  | cons b text =>
    rw [Terminated, h, flatMap_append, flatMap_singleton]
    rfl

/-- An append that fails after `kept` characters of the line. -/
theorem Terminated.append_take {text : List α} (h : Terminated newline texts file) (hne : text ≠ [])
    (hno : newline ∉ text) (kept : Nat) :
    Terminated newline (texts ++ [text.take kept]) (file ++ (text ++ [newline]).take kept) ∨
      Torn newline (texts ++ [text.take kept]) (file ++ (text ++ [newline]).take kept) := by
  rcases Nat.lt_or_ge text.length kept with hall | hpart
  · -- the whole line was written
    left
    have htake : (text ++ [newline]).take kept = text ++ [newline] := by
      apply take_of_length_le
      rw [length_append, length_singleton]
      omega
    rw [htake, take_of_length_le (by omega)]
    exact h.append hne
  · rw [take_append_of_le_length hpart]
    cases htext : text.take kept with
    | nil =>
      left
      rw [Terminated, h, append_nil, flatMap_append]
      exact (append_nil _).symm
    | cons b rest =>
      right
      refine ⟨?_, ?_⟩
      · rw [h, flatMap_append, flatMap_singleton, append_assoc]
        rfl
      · have hlast : (b :: rest).getLast? = some ((b :: rest).getLast (by simp)) := getLast?_eq_getLast_of_ne_nil _
        refine ⟨(b :: rest).getLast (by simp), ?_, ?_⟩
        · rw [getLast?_append, hlast, Option.some_or]
        · intro heq
          have hmem : newline ∈ text.take kept := by
            rw [htext, ← heq]
            exact getLast_mem _
          exact hno (mem_of_mem_take hmem)

end LineLog

import Mathlib.Tactic

/-!
# Streams of frames

A stream is a list of frames one after the other. What has arrived of it is some complete frames and a part of the
next one (`Cut`), however it was split on its way.
-/

namespace Framing

open List

variable {α : Type}

/-- What has arrived of a stream of frames: those that are complete, and the part of the next one. -/
structure Cut (frames : List (List α)) (received : List α) (done todo : List (List α)) (tail : List α) : Prop where
  frames_eq : frames = done ++ todo
  received_eq : received = done.flatten ++ tail
  tail_prefix : tail <+: todo.flatten
  incomplete : ∀ frame rest, todo = frame :: rest → tail.length < frame.length

variable {frames : List (List α)} {received : List α}

/-- The beginning of a stream is cut in one place. -/
theorem exists_cut (h : received <+: frames.flatten) : ∃ done todo tail, Cut frames received done todo tail := by
  induction frames generalizing received with
  | nil =>
    have hnil : received = [] := prefix_nil.mp h
    refine ⟨[], [], [], rfl, hnil, prefix_rfl, fun frame rest hcons => ?_⟩
    cases hcons
  | cons frame frames ih =>
    by_cases hlen : frame.length ≤ received.length
    · -- the frame is complete: it is the beginning of what has arrived
      obtain ⟨more, rfl⟩ := prefix_of_prefix_length_le (prefix_append frame _) h hlen
      obtain ⟨done, todo, tail, hcut⟩ := ih ((prefix_append_right_inj frame).mp h)
      refine ⟨frame :: done, todo, tail, ?_, ?_, hcut.tail_prefix, hcut.incomplete⟩
      · rw [hcut.frames_eq, cons_append]
      · rw [flatten_cons, append_assoc, ← hcut.received_eq]
    · refine ⟨[], frame :: frames, received, rfl, rfl, h, fun next rest hcons => ?_⟩
      obtain ⟨rfl, -⟩ := cons.inj hcons
      omega

variable {done : List (List α)} {tail : List α}

/-- The part of the next frame is the beginning of it. -/
theorem Cut.tail_prefix_frame {rest : List (List α)} {frame : List α}
    (h : Cut frames received done (frame :: rest) tail) : tail <+: frame := by
  have hlt := h.incomplete frame rest rfl
  have hbegins := h.tail_prefix
  exact prefix_of_prefix_length_le hbegins (prefix_append frame _) hlt.le

theorem Cut.tail_eq_nil (h : Cut frames received done [] tail) : tail = [] :=
  prefix_nil.mp h.tail_prefix

variable {todo : List (List α)}

theorem Cut.todo_eq_nil (h : Cut frames frames.flatten done todo tail) : todo = [] := by
  cases todo with
  | nil => rfl
  | cons frame rest =>
    have hlt := h.incomplete frame rest rfl
    have hlen := congrArg length h.received_eq
    rw [h.frames_eq, flatten_append, flatten_cons] at hlen
    simp only [length_append] at hlen
    omega

/-- What arrives later is cut behind the frames that are complete already. -/
theorem Cut.append {done' todo' : List (List α)} {more tail' : List α} (h : Cut frames received done todo tail)
    (h' : Cut todo (tail ++ more) done' todo' tail') :
    Cut frames (received ++ more) (done ++ done') todo' tail' where
  frames_eq := by rw [h.frames_eq, h'.frames_eq, append_assoc]
  received_eq := by rw [h.received_eq, append_assoc, h'.received_eq, flatten_append, append_assoc]
  tail_prefix := h'.tail_prefix
  incomplete := h'.incomplete

/-- The rest of a stream goes on from the part of the next frame. -/
theorem Cut.prefix_append {more : List α} (h : Cut frames received done todo tail)
    (hmore : received ++ more <+: frames.flatten) :
    tail ++ more <+: todo.flatten := by
  rw [h.received_eq, h.frames_eq, flatten_append, append_assoc] at hmore
  exact (prefix_append_right_inj _).mp hmore

end Framing

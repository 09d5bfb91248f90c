import Mathlib.Data.List.TakeWhile
import Dcode.AppServer.RequestSerialization

/-!
# The batch a drain task joins

The requests taken off the queue of a key are those of the batches; all batches but the one being joined are finished. That
one is described by the place it begins at (`base`) and the first place not polled yet (`next`).
-/

namespace Dcode.AppServer

open EventLog List

variable {G : Type}

/-! ## Batches -/

variable {i : Nat}

theorem mem_filterMap_run {log : List Event} : i ∈ log.filterMap Event.run? ↔ .run i ∈ log := by
  rw [mem_filterMap]
  refine ⟨?_, fun h => ⟨_, h, rfl⟩⟩
  rintro ⟨_ | _ | _, he, ⟨⟩⟩
  exact he

theorem mem_filterMap_start {log : List Event} : i ∈ log.filterMap Event.start? ↔ .start i ∈ log := by
  rw [mem_filterMap]
  refine ⟨?_, fun h => ⟨_, h, rfl⟩⟩
  rintro ⟨_ | _ | _, he, ⟨⟩⟩
  exact he

theorem SameBatch.append {batches : List (List (QueuedSerializedRequest G))} {j : Nat} (h : SameBatch batches i j)
    (more : List (List (QueuedSerializedRequest G))) : SameBatch (batches ++ more) i j := by
  obtain ⟨before, batch, after, rfl, hi, hj⟩ := h
  exact ⟨before, batch, after ++ more, by simp, hi, hj⟩

variable {entry left : Option (List (QueuedSerializedRequest G))} {batch : List (QueuedSerializedRequest G)}

theorem RequestSerializationQueues.drain_some
    (h : drain entry = (left, some batch)) :
    ∃ queue, left = some queue ∧ entry = some (batch ++ queue) ∧ batch ≠ [] ∧ IsBatch batch := by
  rcases entry with _ | _ | ⟨request, queue⟩
  · cases h
  · cases h
  · simp only [drain] at h
    by_cases hshared : request.access = .sharedRead
    · rw [if_pos hshared] at h
      obtain ⟨rfl, hbatch⟩ := Prod.mk.inj h
      obtain rfl := Option.some.inj hbatch
      refine ⟨_, rfl, ?_, by simp, .inr fun r hr => ?_⟩
      · rw [cons_append, takeWhile_append_dropWhile]
      · rcases mem_cons.mp hr with rfl | hr
        · exact hshared
        · have hread := mem_takeWhile_imp hr
          exact eq_of_beq hread
    · rw [if_neg hshared] at h
      obtain ⟨rfl, hbatch⟩ := Prod.mk.inj h
      obtain rfl := Option.some.inj hbatch
      exact ⟨queue, rfl, rfl, by simp, .inl ⟨request, rfl⟩⟩

theorem RequestSerializationQueues.drain_none
    (h : drain entry = (left, none)) : left = none ∧ (entry = none ∨ entry = some []) := by
  rcases entry with _ | _ | ⟨request, queue⟩
  · exact ⟨(Prod.mk.inj h).1.symm, .inl rfl⟩
  · exact ⟨(Prod.mk.inj h).1.symm, .inr rfl⟩
  · simp only [drain] at h
    by_cases hshared : request.access = .sharedRead
    · rw [if_pos hshared] at h
      cases (Prod.mk.inj h).2
    · rw [if_neg hshared] at h
      cases (Prod.mk.inj h).2

/-! ## One request going on -/

inductive Advances (accepting : G → Bool) (r : BatchedRequest G) : Phase → List Event → Prop where
  | start (hphase : r.phase = .ready) : Advances accepting r .running [.run r.index, .start r.index]
  | wait (hphase : r.phase = .ready) : Advances accepting r .entering [.run r.index]
  | enter (hphase : r.phase = .entering) : Advances accepting r .running [.start r.index]
  | refuse (hphase : r.phase = .entering) {gate : G} (hgate : r.request.request.gate = some gate)
      (hclosed : accepting gate = false) : Advances accepting r .finished [.finish r.index]
  | finish (hphase : r.phase = .running) : Advances accepting r .finished [.finish r.index]

variable {r : BatchedRequest G}

theorem BatchedRequest.advances (hphase : r.phase ≠ .finished) (accepting : G → Bool) :
    Advances accepting r (r.advance accepting).1 (r.advance accepting).2 := by
  cases h : r.phase with
  | ready =>
    cases hgate : r.request.request.gate with
    | none => simp only [advance, h, hgate]; exact .start h
    | some gate => simp only [advance, h, hgate]; exact .wait h
  | entering =>
    by_cases hall : r.request.request.gate.all accepting
    · simp only [advance, h, if_pos hall]
      exact .enter h
    · simp only [advance, h, if_neg hall]
      cases hgate : r.request.request.gate with
      | none => rw [hgate] at hall; exact absurd rfl hall
      | some gate =>
        rw [hgate, Bool.not_eq_true] at hall
        exact .refuse h hgate hall
  | running => simp only [advance, h]; exact .finish h
  | finished => exact absurd h hphase

namespace Advances

variable {accepting : G → Bool} {phase : Phase} {events : List Event}

theorem ne_ready (h : Advances accepting r phase events) : phase ≠ .ready := by
  cases h <;> simp

theorem filterMap_run (h : Advances accepting r phase events) :
    events.filterMap Event.run? = if r.phase = .ready then [r.index] else [] := by
  cases h <;> simp_all [Event.run?]

section

variable (h : Advances accepting r phase events)

include h

theorem mem_run (hi : .run i ∈ events) : i = r.index ∧ r.phase = .ready := by
  cases h <;> simp_all

theorem mem_start_iff : .start i ∈ events ↔ i = r.index ∧ phase = .running := by
  cases h <;> simp

theorem mem_finish_iff : .finish i ∈ events ↔ i = r.index ∧ phase = .finished := by
  cases h <;> simp

theorem ne_finished : r.phase ≠ .finished := by
  cases h <;> simp_all

theorem finished_of_started (hr : r.phase = .running ∨ r.phase = .finished) : phase = .finished := by
  cases h <;> simp_all

theorem events_eq_of_start (hr : r.phase = .ready) (hstart : .start r.index ∈ events) :
    events = [.run r.index, .start r.index] := by
  cases h <;> simp_all

end

theorem running_or_closed (h : Advances accepting r .finished events) :
    r.phase = .running ∨ ∃ gate, r.request.request.gate = some gate ∧ accepting gate = false := by
  cases h with
  | refuse _ hgate hclosed => exact .inr ⟨_, hgate, hclosed⟩
  | finish hphase => exact .inl hphase

theorem filterMap_start (h : Advances accepting r phase events) : events.filterMap Event.start? = [] ∨
      events.filterMap Event.start? = [r.index] ∧ (r.phase = .ready ∨ r.phase = .entering) := by
  cases h with
  | start hphase => exact .inr ⟨rfl, .inl hphase⟩
  | wait => exact .inl rfl
  | enter hphase => exact .inr ⟨rfl, .inr hphase⟩
  | refuse | finish => exact .inl rfl

end Advances

/-! ## The places of a batch -/

def Numbered (current : List (BatchedRequest G)) (base : Nat) : Prop :=
  current.map (·.index) = List.range' base current.length

namespace Numbered

variable {current front back : List (BatchedRequest G)} {base : Nat}

theorem bounds (h : Numbered current base) (hr : r ∈ current) : base ≤ r.index ∧ r.index < base + current.length := by
  have hmem : r.index ∈ range' base current.length := h ▸ mem_map_of_mem hr
  exact mem_range'_1.mp hmem

theorem exists_of_bounds (h : Numbered current base) {i : Nat} (hle : base ≤ i) (hlt : i < base + current.length) :
    ∃ r ∈ current, r.index = i := by
  have hmem : i ∈ current.map (·.index) := by
    rw [h]
    exact mem_range'_1.mpr ⟨hle, hlt⟩
  obtain ⟨r, hr, hi⟩ := mem_map.mp hmem
  exact ⟨r, hr, hi⟩

theorem index_eq (h : Numbered (front ++ r :: back) base) : r.index = base + front.length := by
  have hget := congrArg (fun l => l[front.length]?) h
  simpa using hget

variable {r' : BatchedRequest G}

section

variable (h : Numbered (front ++ r :: back) base)

include h

theorem pairwise_index : (front ++ r :: back).Pairwise (·.index < ·.index) := by
  rw [← pairwise_map (f := BatchedRequest.index), h]
  exact pairwise_lt_range'

theorem lt_of_mem_front (hr' : r' ∈ front) : r'.index < r.index :=
  (pairwise_append.mp h.pairwise_index).2.2 r' hr' r mem_cons_self

theorem lt_of_mem_back (hr' : r' ∈ back) : r.index < r'.index :=
  (pairwise_cons.mp (pairwise_append.mp h.pairwise_index).2.1).1 r' hr'

theorem ne_of_mem (hr' : r' ∈ front ++ back) : r'.index ≠ r.index := by
  rcases mem_append.mp hr' with hr' | hr'
  · exact Nat.ne_of_lt (h.lt_of_mem_front hr')
  · exact Nat.ne_of_gt (h.lt_of_mem_back hr')

theorem setPhase (phase : Phase) : Numbered (front ++ { r with phase := phase } :: back) base := by
  unfold Numbered at h ⊢
  simpa using h

end

end Numbered

theorem mem_append_cons {front back : List (BatchedRequest G)} {r' : BatchedRequest G} :
    r' ∈ front ++ r :: back ↔ r' = r ∨ r' ∈ front ++ back := by
  simp only [mem_append, mem_cons]
  exact or_left_comm

/-- What holds of some request of a batch, seen from one of them. -/
theorem exists_mem_append_cons {front back : List (BatchedRequest G)} (P : Phase → Prop) :
    (∃ r' ∈ front ++ r :: back, r'.index = i ∧ P r'.phase) ↔
      r.index = i ∧ P r.phase ∨ ∃ r' ∈ front ++ back, r'.index = i ∧ P r'.phase := by
  simp only [mem_append_cons, or_and_right, exists_or, exists_eq_left]

/-! ## The batch being joined -/

/-- Where the requests of a key are: those before `base` are finished, those from `next` on have not been polled, and
`current` is the batch in between. -/
structure Progress (accepting : G → Bool) (enqueued : List (QueuedSerializedRequest G))
    (batches : List (List (QueuedSerializedRequest G))) (current : List (BatchedRequest G)) (log : List Event)
    (base next : Nat) : Prop where
  cut : ∃ queue, enqueued = batches.flatten ++ queue
  last : ∃ before, base = before.flatten.length ∧
    (current = [] ∧ batches = before ∨ batches = before ++ [current.map (·.request)])
  numbered : Numbered current base
  runs : log.filterMap Event.run? = List.range next
  base_le : base ≤ next
  le_end : next ≤ base + current.length
  ready_iff : ∀ r ∈ current, r.phase = .ready ↔ next ≤ r.index
  finish_iff : ∀ i, .finish i ∈ log ↔ i < base ∨ ∃ r ∈ current, r.index = i ∧ r.phase = .finished
  started : ∀ i, .start i ∈ log → i < base ∨ ∃ r ∈ current, r.index = i ∧ (r.phase = .running ∨ r.phase = .finished)
  start_of_running : ∀ r ∈ current, r.phase = .running → .start r.index ∈ log
  start_nodup : (log.filterMap Event.start?).Nodup
  start_after_run : ∀ i, Precedes (.run i) (.start i) log
  start_or_closed : ∀ i, .finish i ∈ log → .start i ∈ log ∨
    ∃ request gate, enqueued[i]? = some request ∧ request.request.gate = some gate ∧ accepting gate = false
  run_after_finish : ∀ i j, i < j → ¬ SameBatch batches i j → Precedes (.finish i) (.run j) log
  start_after_finish : ∀ i j, i < j → ¬ SameBatch batches i j → Precedes (.finish i) (.start j) log

namespace Progress

variable {accepting : G → Bool} {enqueued : List (QueuedSerializedRequest G)}
  {batches : List (List (QueuedSerializedRequest G))} {current front back : List (BatchedRequest G)}
  {log events : List Event} {base next : Nat} {phase : Phase}

theorem nil (accepting : G → Bool) : Progress accepting [] [] [] [] 0 0 where
  cut := ⟨[], rfl⟩
  last := ⟨[], rfl, .inl ⟨rfl, rfl⟩⟩
  numbered := rfl
  runs := rfl
  base_le := Nat.le_refl _
  le_end := Nat.le_refl _
  ready_iff := by simp
  finish_iff := by simp
  started := by simp
  start_of_running := by simp
  start_nodup := nodup_nil
  start_after_run _ := Precedes.nil _ _
  start_or_closed := by simp
  run_after_finish _ _ _ _ := Precedes.nil _ _
  start_after_finish _ _ _ _ := Precedes.nil _ _

section

variable (h : Progress accepting enqueued batches current log base next)

include h

theorem mem_run_iff {i : Nat} : .run i ∈ log ↔ i < next := by
  rw [← mem_filterMap_run, h.runs, mem_range]

theorem length_flatten : batches.flatten.length = base + current.length := by
  obtain ⟨before, rfl, ⟨rfl, rfl⟩ | rfl⟩ := h.last
  · rfl
  · simp

theorem enqueue (request : QueuedSerializedRequest G) :
    Progress accepting (enqueued ++ [request]) batches current log base next :=
  { h with
    cut := by
      obtain ⟨queue, rfl⟩ := h.cut
      exact ⟨queue ++ [request], append_assoc _ _ _⟩
    start_or_closed := by
      intro i hi
      rcases h.start_or_closed i hi with hs | ⟨request', gate, hget, hgate, hclosed⟩
      · exact .inl hs
      · refine .inr ⟨request', gate, ?_, hgate, hclosed⟩
        obtain ⟨hlt, _⟩ := List.getElem?_eq_some_iff.mp hget
        rw [getElem?_append_left hlt]
        exact hget }

theorem close [DecidableEq G] (gate : G) :
    Progress (Function.update accepting gate false) enqueued batches current log base next :=
  { h with
    start_or_closed := by
      intro i hi
      rcases h.start_or_closed i hi with hs | ⟨request, gate', hget, hgate, hclosed⟩
      · exact .inl hs
      · refine .inr ⟨request, gate', hget, hgate, ?_⟩
        by_cases heq : gate' = gate
        · rw [heq, Function.update_self]
        · rw [Function.update_of_ne heq]
          exact hclosed }

end

section

variable (h : Progress accepting enqueued batches [] log base next)

include h

/-- Between two batches everything that was taken off the queue is finished. -/
theorem base_eq_of_nil : base = batches.flatten.length ∧ next = base := by
  have hlength := h.length_flatten
  have hle := h.le_end
  have hbase := h.base_le
  rw [length_nil] at hlength hle
  omega

theorem take
    (hcut : ∃ queue, enqueued = (batches ++ [batch]).flatten ++ queue) :
    Progress accepting enqueued (batches ++ [batch])
      (batch.mapIdx fun i request => ⟨batches.flatten.length + i, request, .ready⟩) log base next := by
  obtain ⟨hbase, hnext⟩ := h.base_eq_of_nil
  have hready : ∀ r ∈ batch.mapIdx fun i request => (⟨batches.flatten.length + i, request, .ready⟩ : BatchedRequest G),
      r.phase = .ready ∧ base ≤ r.index := by
    intro r hr
    obtain ⟨i, hi, rfl⟩ := mem_mapIdx.mp hr
    exact ⟨rfl, by rw [hbase]; exact Nat.le_add_right _ _⟩
  exact
    { h with
      cut := hcut
      last := by
        refine ⟨batches, hbase, .inr ?_⟩
        congr 2
        apply ext_getElem
        · simp
        · simp
      numbered := by
        apply ext_getElem
        · simp
        · simp [hbase]
      le_end := by rw [hnext]; exact Nat.le_add_right _ _
      ready_iff := by
        intro r hr
        exact ⟨fun _ => hnext ▸ (hready r hr).2, fun _ => (hready r hr).1⟩
      finish_iff := by
        intro i
        rw [h.finish_iff]
        constructor
        · rintro (hi | ⟨r, hr, _⟩)
          · exact .inl hi
          · cases hr
        · rintro (hi | ⟨r, hr, _, hphase⟩)
          · exact .inl hi
          · rw [(hready r hr).1] at hphase
            cases hphase
      started := by
        intro i hi
        rcases h.started i hi with hi | ⟨r, hr, _⟩
        · exact .inl hi
        · cases hr
      start_of_running := by
        intro r hr hphase
        rw [(hready r hr).1] at hphase
        cases hphase
      run_after_finish := fun i j hij hbatch => h.run_after_finish i j hij fun hsame => hbatch (hsame.append _)
      start_after_finish := fun i j hij hbatch => h.start_after_finish i j hij fun hsame => hbatch (hsame.append _) }

end

theorem join (h : Progress accepting enqueued batches current log base next) (hall : ∀ r ∈ current, r.phase = .finished) :
    Progress accepting enqueued batches [] log batches.flatten.length next := by
  have hlength := h.length_flatten
  have hbase := h.base_le
  have hend := h.le_end
  -- nothing is ready, so everything has been polled
  have hnext : next = batches.flatten.length := by
    by_contra hne
    obtain ⟨r, hr, hi⟩ := h.numbered.exists_of_bounds hbase (by omega)
    have hready := (h.ready_iff r hr).mpr (by omega)
    rw [hall r hr] at hready
    cases hready
  exact
    { h with
      last := ⟨batches, rfl, .inl ⟨rfl, rfl⟩⟩
      numbered := rfl
      base_le := by omega
      le_end := by rw [hnext]; exact Nat.le_add_right _ _
      ready_iff := by simp
      finish_iff := by
        intro i
        rw [h.finish_iff]
        constructor
        · rintro (hi | ⟨r, hr, rfl, _⟩)
          · exact .inl (by omega)
          · have hbounds := h.numbered.bounds hr
            exact .inl (by omega)
        · rintro (hi | ⟨r, hr, _⟩)
          · by_cases hlt : i < base
            · exact .inl hlt
            · obtain ⟨r, hr, hi'⟩ := h.numbered.exists_of_bounds (Nat.le_of_not_lt hlt) (by omega)
              exact .inr ⟨r, hr, hi', hall r hr⟩
          · cases hr
      started := by
        intro i hi
        rcases h.started i hi with hi | ⟨r, hr, rfl, _⟩
        · exact .inl (by omega)
        · have hbounds := h.numbered.bounds hr
          exact .inl (by omega)
      start_of_running := by simp }

/-! One request of the batch goes on. -/

theorem mem_self : r ∈ front ++ r :: back := mem_append_right _ mem_cons_self

theorem next_eq_of_ready (h : Progress accepting enqueued batches (front ++ r :: back) log base next)
    (hready : r.phase = .ready) (hfront : ∀ r' ∈ front, r'.phase ≠ .ready) : next = r.index := by
  have hle := (h.ready_iff r mem_self).mp hready
  have hbounds := h.numbered.bounds mem_self
  by_contra hne
  obtain ⟨r', hr', hi⟩ := h.numbered.exists_of_bounds h.base_le (by omega)
  have hready' := (h.ready_iff r' hr').mpr (by omega)
  rcases mem_append.mp hr' with hr' | hr'
  · exact hfront r' hr' hready'
  · rcases mem_cons.mp hr' with rfl | hr'
    · exact hne hi.symm
    · have hlt := h.numbered.lt_of_mem_back hr'
      omega

/-- What comes before a request of the batch is in the batch or finished. -/
theorem finish_of_lt (h : Progress accepting enqueued batches current log base next) (hr : r ∈ current) {i : Nat}
    (hi : i < r.index) (hbatch : ¬ SameBatch batches i r.index) : .finish i ∈ log := by
  have hbounds := h.numbered.bounds hr
  rw [h.finish_iff]
  by_contra hle
  obtain ⟨before, hbase, ⟨rfl, _⟩ | hlast⟩ := h.last
  · cases hr
  · refine hbatch ⟨before, current.map (·.request), [], hlast, ?_, ?_⟩
    · rw [length_map]
      omega
    · rw [length_map]
      omega

section

variable (h : Progress accepting enqueued batches (front ++ r :: back) log base next)

include h

theorem getElem?_enqueued : enqueued[r.index]? = some r.request := by
  obtain ⟨queue, rfl⟩ := h.cut
  obtain ⟨before, hbase, ⟨hnil, _⟩ | rfl⟩ := h.last
  · simp at hnil
  · have hindex := h.numbered.index_eq
    rw [flatten_append, append_assoc, getElem?_append_right (by omega), hindex, ← hbase]
    simp

theorem start_not_mem (hphase : r.phase = .ready ∨ r.phase = .entering) : .start r.index ∉ log := by
  intro hstart
  have hbounds := h.numbered.bounds mem_self
  rcases h.started _ hstart with hlt | hexists
  · omega
  · rcases (exists_mem_append_cons fun phase => phase = .running ∨ phase = .finished).mp hexists with ⟨_, hr⟩ | ⟨r', hr', hi, _⟩
    · rcases hphase with hphase | hphase <;> rw [hphase] at hr <;> simp at hr
    · exact h.numbered.ne_of_mem hr' hi

theorem advance (ha : Advances accepting r phase events) (hfront : r.phase = .ready → ∀ r' ∈ front, r'.phase ≠ .ready) :
    Progress accepting enqueued batches (front ++ { r with phase := phase } :: back) (log ++ events) base
      (if r.phase = .ready then next + 1 else next) := by
  have hlength : (front ++ { r with phase := phase } :: back).length = (front ++ r :: back).length := by simp
  have hready := fun hr => h.next_eq_of_ready hr (hfront hr)
  have hpolled : r.phase ≠ .ready → r.index < next := by
    intro hr
    by_contra hle
    exact hr ((h.ready_iff r mem_self).mpr (by omega))
  -- the request is polled now, and no other
  have hnext : base ≤ (if r.phase = .ready then next + 1 else next) ∧
      (if r.phase = .ready then next + 1 else next) ≤ base + (front ++ r :: back).length ∧
      r.index < (if r.phase = .ready then next + 1 else next) ∧
      ∀ i, i ≠ r.index → (next ≤ i ↔ (if r.phase = .ready then next + 1 else next) ≤ i) := by
    have hbounds := h.numbered.bounds mem_self
    have hbase := h.base_le
    have hend := h.le_end
    split
    next hr =>
      have heq := hready hr
      exact ⟨by omega, by omega, by omega, fun i hi => by omega⟩
    next hr =>
      exact ⟨hbase, hend, hpolled hr, fun _ _ => Iff.rfl⟩
  exact
    { cut := h.cut
      last := by
        obtain ⟨before, hbefore, ⟨hnil, _⟩ | hlast⟩ := h.last
        · simp at hnil
        · exact ⟨before, hbefore, .inr (by simpa using hlast)⟩
      numbered := h.numbered.setPhase phase
      runs := by
        rw [filterMap_append, h.runs, ha.filterMap_run]
        split
        next hr =>
          rw [← hready hr, range_succ]
        · rw [append_nil]
      base_le := hnext.1
      le_end := by rw [hlength]; exact hnext.2.1
      ready_iff := by
        intro r' hr'
        rcases mem_append_cons.mp hr' with rfl | hr'
        · exact iff_of_false ha.ne_ready (Nat.not_le.mpr hnext.2.2.1)
        · rw [h.ready_iff r' (mem_append_cons.mpr (.inr hr'))]
          exact hnext.2.2.2 _ (h.numbered.ne_of_mem hr')
      finish_iff := by
        intro i
        rw [mem_append, h.finish_iff, ha.mem_finish_iff, exists_mem_append_cons (· = .finished),
          exists_mem_append_cons (· = .finished)]
        simp only [eq_false ha.ne_finished, and_false, false_or, eq_comm (a := i)]
        rw [or_right_comm, or_assoc]
      started := by
        intro i hi
        rw [exists_mem_append_cons fun phase => phase = .running ∨ phase = .finished]
        rcases mem_append.mp hi with hi | hi
        · rcases h.started i hi with hi | hexists
          · exact .inl hi
          · rcases (exists_mem_append_cons fun phase => phase = .running ∨ phase = .finished).mp hexists with
              ⟨rfl, hr⟩ | hexists
            · exact .inr (.inl ⟨rfl, .inr (ha.finished_of_started hr)⟩)
            · exact .inr (.inr hexists)
        · obtain ⟨rfl, hphase⟩ := ha.mem_start_iff.mp hi
          exact .inr (.inl ⟨rfl, .inl hphase⟩)
      start_of_running := by
        intro r' hr' hphase
        rcases mem_append_cons.mp hr' with rfl | hr'
        · exact mem_append_right _ (ha.mem_start_iff.mpr ⟨rfl, hphase⟩)
        · exact mem_append_left _ (h.start_of_running r' (mem_append_cons.mpr (.inr hr')) hphase)
      start_nodup := by
        rw [filterMap_append]
        rcases ha.filterMap_start with hnil | ⟨hone, hphase⟩
        · rw [hnil, append_nil]
          exact h.start_nodup
        · rw [hone, nodup_append_comm, singleton_append, nodup_cons, mem_filterMap_start]
          exact ⟨h.start_not_mem hphase, h.start_nodup⟩
      start_after_run := by
        intro i
        by_cases hstart : .start i ∈ events
        · obtain ⟨rfl, _⟩ := ha.mem_start_iff.mp hstart
          by_cases hr : r.phase = .ready
          · -- without a gate the first poll starts the handler too
            obtain rfl := ha.events_eq_of_start hr hstart
            rw [← singleton_append, ← append_assoc]
            exact ((h.start_after_run r.index).append_of_not_mem (by simp)).append_of_mem (by simp) _
          · exact (h.start_after_run r.index).append_of_mem (h.mem_run_iff.mpr (hpolled hr)) _
        · exact (h.start_after_run i).append_of_not_mem hstart
      start_or_closed := by
        intro i hi
        rcases mem_append.mp hi with hi | hi
        · rcases h.start_or_closed i hi with hs | hclosed
          · exact .inl (mem_append_left _ hs)
          · exact .inr hclosed
        · obtain ⟨rfl, rfl⟩ := ha.mem_finish_iff.mp hi
          rcases ha.running_or_closed with hr | ⟨gate, hgate, hclosed⟩
          · exact .inl (mem_append_left _ (h.start_of_running r mem_self hr))
          · exact .inr ⟨r.request, gate, h.getElem?_enqueued, hgate, hclosed⟩
      run_after_finish := by
        intro i j hij hbatch
        by_cases hrun : .run j ∈ events
        · obtain ⟨rfl, _⟩ := ha.mem_run hrun
          exact (h.run_after_finish i _ hij hbatch).append_of_mem (h.finish_of_lt mem_self hij hbatch) _
        · exact (h.run_after_finish i j hij hbatch).append_of_not_mem hrun
      start_after_finish := by
        intro i j hij hbatch
        by_cases hstart : .start j ∈ events
        · obtain ⟨rfl, _⟩ := ha.mem_start_iff.mp hstart
          exact (h.start_after_finish i _ hij hbatch).append_of_mem (h.finish_of_lt mem_self hij hbatch) _
        · exact (h.start_after_finish i j hij hbatch).append_of_not_mem hstart }

end

end Progress

end Dcode.AppServer

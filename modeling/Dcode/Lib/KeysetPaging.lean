import Mathlib.Data.List.TakeWhile
import Dcode.Lib.Run

/-!
# Pages by the key of the last entry

A listing in the order of falling keys is read in pages. A cursor is a key, and a page begins behind all entries whose
key is not below it. So a page is resumed where it ended only if no entry behind its last one has the same key
(`follows_iff`).
-/

namespace KeysetPaging

open List

/-- How the entries of a listing are read: the key of each, the item that is shown for it if any, and the cursor behind an
item if there is one. -/
structure Listing (α β κ : Type) where
  key : α → κ
  item? : α → Option β
  cursor? : β → Option κ

variable {α β κ : Type} [LinearOrder κ] (l : Listing α β κ)

def after : Option κ → List α → List α
  | none, entries => entries
  | some c, entries => entries.dropWhile fun a => decide (c ≤ l.key a)

omit [LinearOrder κ] in
/-- The items of the first entries, and whether there is an entry behind them. -/
def collect : Nat → List α → List β × Bool
  | _, [] => ([], false)
  | 0, _ :: _ => ([], true)
  | room + 1, a :: entries =>
    match l.item? a with
    | some b => (b :: (collect room entries).1, (collect room entries).2)
    | none => collect (room + 1) entries

variable {a : α} {c : κ}

theorem after_cons_of_lt (h : l.key a < c) (entries : List α) : after l (some c) (a :: entries) = a :: entries := by
  rw [after]
  exact dropWhile_cons_of_neg (by simpa using h)

theorem after_cons_of_le (h : c ≤ l.key a) (entries : List α) :
    after l (some c) (a :: entries) = after l (some c) entries := by
  rw [after]
  exact dropWhile_cons_of_pos (decide_eq_true h)

def page (size : Nat) (entries : List α) (c : Option κ) : List β × Option κ :=
  let collected := collect l size (after l c entries)
  (collected.1, if collected.2 then collected.1.getLast?.bind l.cursor? else none)

/-- The items of all pages from a cursor on, until there is no cursor. -/
inductive Follows (page : Option κ → List β × Option κ) : Option κ → List β → Prop
  | last {c : Option κ} {items : List β} : page c = (items, none) → Follows page c items
  | next {c : Option κ} {c' : κ} {items rest : List β} :
      page c = (items, some c') → Follows page (some c') rest → Follows page c (items ++ rest)

section Follows

variable {page : Option κ → List β × Option κ} {c : Option κ}

omit [LinearOrder κ]

theorem follows_of_none (h : (page c).2 = none) (items : List β) : Follows page c items ↔ items = (page c).1 := by
  constructor
  · intro hfollows
    cases hfollows with
    | last hpage => rw [hpage]
    | next hpage _ =>
      rw [hpage] at h
      cases h
  · rintro rfl
    exact .last (Prod.ext rfl h)

theorem follows_of_some {c' : κ} (h : (page c).2 = some c') (rest : List β) :
    Follows page c ((page c).1 ++ rest) ↔ Follows page (some c') rest := by
  constructor
  · intro hfollows
    generalize hitems : (page c).1 ++ rest = items at hfollows
    cases hfollows with
    | last hpage =>
      rw [hpage] at h
      cases h
    | next hpage hrest =>
      rw [hpage] at h hitems
      obtain rfl := Option.some.inj h
      rw [append_cancel_left hitems]
      exact hrest
  · exact .next (Prod.ext rfl h)

/-- Pages whose cursors hold the keys are followed as the pages by the keys are. -/
theorem follows_map_iff {γ : Type} {keyOf : γ → κ} {cursorOf : κ → γ} (hkey : ∀ c, keyOf (cursorOf c) = c)
    {paged : Option γ → List β × Option γ}
    (hpaged : ∀ c, paged c = (page (c.map keyOf)).map id (Option.map cursorOf)) (c : Option γ) (items : List β) :
    Follows paged c items ↔ Follows page (c.map keyOf) items := by
  constructor
  · intro hfollows
    induction hfollows with
    | @last c items hpage =>
      rw [hpaged, Prod.map, Prod.mk.injEq, Option.map_eq_none_iff] at hpage
      exact .last (Prod.ext hpage.1 hpage.2)
    | @next c c' items rest hpage _ ih =>
      rw [hpaged, Prod.map, Prod.mk.injEq, Option.map_eq_some_iff] at hpage
      obtain ⟨hitems, key, hnext, rfl⟩ := hpage
      rw [Option.map_some, hkey] at ih
      exact .next (Prod.ext hitems hnext) ih
  · intro hfollows
    generalize hc : c.map keyOf = k at hfollows
    induction hfollows generalizing c with
    | @last k items hpage =>
      refine .last ?_
      rw [hpaged, hc, hpage]
      rfl
    | @next k k' items rest hpage _ ih =>
      refine @Follows.next _ _ _ _ (cursorOf k') _ _ ?_ (ih (some (cursorOf k')) (congrArg some (hkey k')))
      rw [hpaged, hc, hpage]
      rfl

end Follows

/-! ## What a page takes -/

section Collect

omit [LinearOrder κ]

/-- A page takes everything, or it is full at an entry with more behind it. -/
theorem collect_cases (room : Nat) (entries : List α) :
    (collect l (room + 1) entries = (entries.filterMap l.item?, false) ∧
      ∀ before a behind, entries = before ++ a :: behind → (l.item? a).isSome → behind ≠ [] →
        (before.filterMap l.item?).length < room) ∨
    ∃ before a behind b, entries = before ++ a :: behind ∧ l.item? a = some b ∧ behind ≠ [] ∧
      (before.filterMap l.item?).length = room ∧
      collect l (room + 1) entries = (before.filterMap l.item? ++ [b], true) := by
  induction entries generalizing room with
  | nil =>
    left
    refine ⟨rfl, ?_⟩
    intro before a behind heq
    simp at heq
  | cons first entries ih =>
    rw [collect]
    cases hfirst : l.item? first with
    | none =>
      have hskip : ∀ before : List α, (first :: before).filterMap l.item? = before.filterMap l.item? := fun before =>
        filterMap_cons_none hfirst
      rcases ih room with ⟨hall, hfew⟩ | ⟨before, a, behind, b, rfl, ha, hbehind, hroom, hcollect⟩
      · left
        refine ⟨by rw [hskip]; exact hall, ?_⟩
        intro before a behind heq ha hbehind
        cases before with
        | nil =>
          obtain ⟨rfl, -⟩ := cons.inj heq
          rw [hfirst] at ha
          cases ha
        | cons _ before =>
          obtain ⟨rfl, htail⟩ := cons.inj heq
          rw [hskip]
          exact hfew before a behind htail ha hbehind
      · right
        refine ⟨first :: before, a, behind, b, rfl, ha, hbehind, ?_, ?_⟩
        · rw [hskip]
          exact hroom
        · rw [hskip]
          exact hcollect
    | some b =>
      have htake : ∀ before : List α, (first :: before).filterMap l.item? = b :: before.filterMap l.item? := fun before =>
        filterMap_cons_some hfirst
      cases room with
      | zero =>
        cases entries with
        | nil =>
          left
          refine ⟨by rw [htake]; rfl, ?_⟩
          intro before a behind heq _ hbehind
          cases before with
          | nil => exact absurd (cons.inj heq).2.symm hbehind
          | cons _ before =>
            have htail := (cons.inj heq).2
            simp at htail
        | cons second entries =>
          right
          exact ⟨[], first, second :: entries, b, rfl, hfirst, cons_ne_nil _ _, rfl, rfl⟩
      | succ room =>
        rcases ih room with ⟨hall, hfew⟩ | ⟨before, a, behind, b', rfl, ha, hbehind, hroom, hcollect⟩
        · left
          refine ⟨by rw [htake, hall], ?_⟩
          intro before a behind heq ha hbehind
          cases before with
          | nil => exact Nat.succ_pos room
          | cons _ before =>
            obtain ⟨rfl, htail⟩ := cons.inj heq
            rw [htake]
            exact Nat.succ_lt_succ (hfew before a behind htail ha hbehind)
        · right
          refine ⟨first :: before, a, behind, b', rfl, ha, hbehind, ?_, ?_⟩
          · rw [htake, length_cons, hroom]
          · rw [htake, hcollect]
            rfl

theorem head?_collect (room : Nat) (entries : List α) :
    (collect l (room + 1) entries).1.head? = (entries.filterMap l.item?).head? := by
  rcases collect_cases l room entries with ⟨hall, -⟩ | ⟨before, a, behind, b, rfl, ha, -, -, hcollect⟩
  · rw [hall]
  · rw [hcollect, filterMap_append, filterMap_cons_some ha]
    cases before.filterMap l.item? <;> rfl

end Collect

/-! ## Where pages meet -/

/-- A page is resumed where it ends: all entries up to its end are left out, and nothing that is shown behind it is. -/
def Resumes (upTo : List α) (b : β) (behind : List α) : Prop :=
  match l.cursor? b with
  | none => behind.filterMap l.item? = []
  | some c => (∀ x ∈ upTo, c ≤ l.key x) ∧ (behind.takeWhile fun x => decide (c ≤ l.key x)).filterMap l.item? = []

/-- Every page that ends before the end of the listing is resumed. -/
def Resumed (size : Nat) (older entries : List α) : Prop :=
  ∀ before a behind b, entries = before ++ a :: behind → l.item? a = some b →
    size ∣ (before.filterMap l.item?).length + 1 → behind ≠ [] → Resumes l (older ++ before ++ [a]) b behind

variable {l} {older : List α}

variable {size : Nat} {entries : List α}

theorem resumed_of_nil (h : entries.filterMap l.item? = []) : Resumed l size older entries := by
  rintro before a behind b rfl ha
  rw [filterMap_append, filterMap_cons_some ha] at h
  simp at h

/-- Entries that are not shown end no page. -/
theorem resumed_append {unshown : List α} (h : unshown.filterMap l.item? = []) :
    Resumed l size older (unshown ++ entries) ↔ Resumed l size (older ++ unshown) entries := by
  constructor
  · rintro hall before a behind b rfl ha hsize hbehind
    have hresumes := hall (unshown ++ before) a behind b (append_assoc _ _ _).symm ha ?_ hbehind
    · rw [← append_assoc older] at hresumes
      exact hresumes
    · rw [filterMap_append, h]
      exact hsize
  · intro hall before a behind b heq ha hsize hbehind
    rcases Run.append_eq_append_cons heq with ⟨middle, rfl, hentries⟩ | ⟨middle, rfl, -⟩
    · rw [filterMap_append, h] at hsize
      rw [← append_assoc older]
      exact hall middle a behind b hentries ha hsize hbehind
    · -- the entry would be among those that are not shown
      rw [filterMap_append, filterMap_cons_some ha] at h
      simp at h

variable {room : Nat} {before behind : List α} {b : β}

/-- The pages end where the first one does, and behind it. -/
theorem resumed_split (ha : l.item? a = some b) (hroom : (before.filterMap l.item?).length = room)
    (hbehind : behind ≠ []) :
    Resumed l (room + 1) older (before ++ a :: behind) ↔
      Resumes l (older ++ before ++ [a]) b behind ∧ Resumed l (room + 1) (older ++ before ++ [a]) behind := by
  have hcount : ∀ middle : List α, ((before ++ a :: middle).filterMap l.item?).length + 1 =
      (room + 1) + ((middle.filterMap l.item?).length + 1) := by
    intro middle
    rw [filterMap_append, filterMap_cons_some ha, length_append, length_cons]
    omega
  have hupTo : ∀ (middle : List α) (a' : α),
      older ++ (before ++ a :: middle) ++ [a'] = older ++ before ++ [a] ++ middle ++ [a'] := by
    intro middle a'
    simp
  constructor
  · intro hall
    refine ⟨hall before a behind b rfl ha (by rw [hroom]) hbehind, ?_⟩
    rintro middle a' behind' b' rfl ha' hsize hbehind'
    rw [← hupTo]
    refine hall (before ++ a :: middle) a' behind' b' (by simp) ha' ?_ hbehind'
    rw [hcount]
    exact (Nat.dvd_add_right (Nat.dvd_refl _)).mpr hsize
  · rintro ⟨hresumes, hall⟩ before' a' behind' b' heq ha' hsize hbehind'
    rcases Run.append_eq_append_cons heq with ⟨middle, rfl, hrest⟩ | ⟨middle, rfl, -⟩
    · cases middle with
      | nil =>
        obtain ⟨rfl, rfl⟩ := cons.inj hrest
        obtain rfl := Option.some.inj (ha.symm.trans ha')
        rw [append_nil]
        exact hresumes
      | cons g middle =>
        obtain ⟨rfl, rfl⟩ := cons.inj hrest
        rw [hcount] at hsize
        rw [hupTo]
        exact hall middle a' behind' b' rfl ha' ((Nat.dvd_add_right (Nat.dvd_refl _)).mp hsize) hbehind'
    · -- too few entries are shown before it
      rw [filterMap_append, filterMap_cons_some ha', length_append, length_cons] at hroom
      have hle := Nat.le_of_dvd (Nat.succ_pos _) hsize
      omega

/-! ## All pages -/

theorem page_snd_of_false {c : Option κ} (h : (collect l size (after l c entries)).2 = false) :
    (page l size entries c).2 = none := by
  rw [page, h]
  rfl

variable {items : List β}

theorem page_of_full {c : Option κ} (h : collect l size (after l c entries) = (items ++ [b], true)) :
    page l size entries c = (items ++ [b], l.cursor? b) := by
  rw [page, h]
  simp

theorem Follows.head? {c : Option κ} (h : Follows (page l (room + 1) entries) c items) :
    items.head? = ((after l c entries).filterMap l.item?).head? := by
  rw [← head?_collect l room]
  cases h with
  | last hpage =>
    have hitems : (collect l (room + 1) (after l c entries)).1 = items := congrArg Prod.fst hpage
    rw [hitems]
  | @next _ c' first rest hpage hrest =>
    have hitems : (collect l (room + 1) (after l c entries)).1 = first := congrArg Prod.fst hpage
    have hcursor := congrArg Prod.snd hpage
    -- a page with a cursor behind it is not empty
    have hne : first ≠ [] := by
      rintro rfl
      change (if _ then (collect l (room + 1) (after l c entries)).1.getLast?.bind l.cursor? else none) = some c' at hcursor
      rw [hitems] at hcursor
      simp at hcursor
    rw [hitems, head?_append_of_ne_nil _ hne]

omit [LinearOrder κ] in
theorem not_head?_of_nodup {shown rest : List β} (hnodup : (shown ++ rest).Nodup) (hne : shown ≠ [])
    (hhead : rest.head? = (shown ++ items).head?) : False := by
  cases shown with
  | nil => exact hne rfl
  | cons b shown =>
    have hmem := mem_of_head? hhead
    exact (nodup_append.mp hnodup).2.2 b mem_cons_self b hmem rfl

theorem after_append_of_le {upTo : List α} (h : ∀ x ∈ upTo, c ≤ l.key x) (behind : List α) :
    after l (some c) (upTo ++ behind) = after l (some c) behind := by
  rw [after, after, dropWhile_append_of_pos]
  intro x hx
  exact decide_eq_true (h x hx)

/-- If the next page begins with what is shown next, the page is resumed. -/
theorem resumes_of_head? (hnodup : ((before ++ [a] ++ behind).filterMap l.item?).Nodup) (ha : l.item? a = some b)
    (hcursor : l.cursor? b = some c)
    (hhead : (behind.filterMap l.item?).head? =
      ((after l (some c) (before ++ [a] ++ behind)).filterMap l.item?).head?) : Resumes l (before ++ [a]) b behind := by
  rw [filterMap_append] at hnodup
  -- otherwise the entry itself, or one before it, would be shown again
  have hupTo : ∀ x ∈ before ++ [a], c ≤ l.key x := by
    by_contra hsome
    have hne : (before ++ [a]).dropWhile (fun x => decide (c ≤ l.key x)) ≠ [] := by
      intro hnil
      refine hsome fun x hx => ?_
      exact of_decide_eq_true (dropWhile_eq_nil_iff.mp hnil x hx)
    have hsuffix := dropWhile_suffix (fun x => decide (c ≤ l.key x)) (l := before ++ [a])
    obtain ⟨again, hagain⟩ : ∃ again, (before ++ [a]).dropWhile (fun x => decide (c ≤ l.key x)) = again ++ [a] := by
      have hlast := hsuffix.getLast hne
      rw [getLast_append_singleton] at hlast
      exact ⟨_, ((dropLast_append_getLast hne).symm.trans (by rw [hlast]))⟩
    have hafter : after l (some c) (before ++ [a] ++ behind) = again ++ [a] ++ behind := by
      rw [after, dropWhile_append, hagain]
      simp
    rw [hafter, filterMap_append] at hhead
    have hsublist : ((again ++ [a]).filterMap l.item?).Sublist ((before ++ [a]).filterMap l.item?) := by
      rw [← hagain]
      exact hsuffix.sublist.filterMap l.item?
    refine not_head?_of_nodup (hnodup.sublist (hsublist.append (Sublist.refl _))) ?_ hhead
    rw [filterMap_append, filterMap_cons_some ha]
    simp
  rw [after_append_of_le hupTo] at hhead
  rw [Resumes, hcursor]
  refine ⟨hupTo, ?_⟩
  -- what is shown next is not left out
  by_contra hne
  have hsplit : behind.takeWhile (fun x => decide (c ≤ l.key x)) ++ after l (some c) behind = behind :=
    takeWhile_append_dropWhile
  have hbehind := (nodup_append.mp hnodup).2.1
  rw [← hsplit, filterMap_append] at hbehind
  refine @not_head?_of_nodup _ ((after l (some c) behind).filterMap l.item?) _ _ hbehind hne ?_
  rw [← hhead, ← filterMap_append, hsplit]

/-- A page that is resumed is followed by what is behind it, but for entries that are not shown. -/
theorem exists_after_of_resumes {upTo : List α} (hcursor : l.cursor? b = some c) (h : Resumes l upTo b behind) :
    ∃ unshown, unshown.filterMap l.item? = [] ∧ behind = unshown ++ after l (some c) (upTo ++ behind) := by
  rw [Resumes, hcursor] at h
  refine ⟨_, h.2, ?_⟩
  rw [after_append_of_le h.1, after, takeWhile_append_dropWhile]

/-- The pages from a cursor on show all that is behind it, once each and in order, exactly if every page is resumed. -/
theorem follows_after_iff (hnodup : (entries.filterMap l.item?).Nodup) (rest older : List α) (c : Option κ)
    (hentries : entries = older ++ rest) (hafter : after l c entries = rest) :
    Follows (page l (room + 1) entries) c (rest.filterMap l.item?) ↔ Resumed l (room + 1) older rest := by
  -- by induction on the length of what is left: the next page begins further behind
  induction hlength : rest.length using Nat.strong_induction_on generalizing rest older c with
  | _ length ih =>
    rcases collect_cases l room rest with ⟨hall, hfew⟩ | ⟨before, a, behind, b, rfl, ha, hbehind, hroom, hcollect⟩
    · have hpage : (page l (room + 1) entries c).2 = none := by
        refine page_snd_of_false ?_
        rw [hafter, hall]
      have hitems : (page l (room + 1) entries c).1 = rest.filterMap l.item? := by
        change (collect l (room + 1) (after l c entries)).1 = _
        rw [hafter, hall]
      rw [follows_of_none hpage, hitems]
      refine iff_of_true rfl ?_
      intro before a behind b heq ha hsize hbehind
      have hlt := hfew before a behind heq (by rw [ha]; rfl) hbehind
      have hle := Nat.le_of_dvd (Nat.succ_pos _) hsize
      omega
    · have hpage : page l (room + 1) entries c = (before.filterMap l.item? ++ [b], l.cursor? b) := by
        refine page_of_full ?_
        rw [hafter]
        exact hcollect
      have hshown : (before ++ a :: behind).filterMap l.item? =
          (page l (room + 1) entries c).1 ++ behind.filterMap l.item? := by
        rw [hpage, filterMap_append, filterMap_cons_some ha, append_assoc, singleton_append]
      have hcursor : (page l (room + 1) entries c).2 = l.cursor? b := by rw [hpage]
      have hsplit : entries = older ++ before ++ [a] ++ behind := by
        rw [hentries]
        simp
      rw [hshown, resumed_split ha hroom hbehind]
      cases hnext : l.cursor? b with
      | none =>
        rw [hnext] at hcursor
        rw [follows_of_none hcursor, append_right_eq_self, Resumes, hnext]
        exact ⟨fun hnil => ⟨hnil, resumed_of_nil hnil⟩, fun h => h.1⟩
      | some c' =>
        rw [hnext] at hcursor
        rw [follows_of_some hcursor]
        have hrest : Resumes l (older ++ before ++ [a]) b behind →
            (Follows (page l (room + 1) entries) (some c') (behind.filterMap l.item?) ↔
              Resumed l (room + 1) (older ++ before ++ [a]) behind) := by
          intro hresumes
          obtain ⟨unshown, hunshown, hskip⟩ := exists_after_of_resumes hnext hresumes
          rw [← hsplit] at hskip
          have hshown' : behind.filterMap l.item? = (after l (some c') entries).filterMap l.item? := by
            conv_lhs => rw [hskip]
            rw [filterMap_append, hunshown, nil_append]
          have hresumed : Resumed l (room + 1) (older ++ before ++ [a]) behind ↔
              Resumed l (room + 1) (older ++ before ++ [a] ++ unshown) (after l (some c') entries) := by
            conv_lhs => rw [hskip]
            exact resumed_append hunshown
          rw [hshown', hresumed]
          refine ih _ ?_ _ _ _ ?_ rfl rfl
          · rw [← hlength]
            have hle := congrArg List.length hskip
            rw [length_append] at hle
            rw [length_append, length_cons]
            omega
          · conv_lhs => rw [hsplit, hskip]
            rw [append_assoc _ unshown]
        constructor
        · intro hfollows
          have hresumes : Resumes l (older ++ before ++ [a]) b behind := by
            rw [hsplit] at hnodup
            refine resumes_of_head? hnodup ha hnext ?_
            rw [← hsplit]
            exact hfollows.head?
          exact ⟨hresumes, (hrest hresumes).mp hfollows⟩
        · rintro ⟨hresumes, hresumed⟩
          exact (hrest hresumes).mpr hresumed

/-- All pages together show every item once and in order exactly if every page is resumed where it ends. -/
theorem follows_iff (hnodup : (entries.filterMap l.item?).Nodup) :
    Follows (page l (room + 1) entries) none (entries.filterMap l.item?) ↔ Resumed l (room + 1) [] entries :=
  follows_after_iff hnodup entries [] none rfl rfl

/-- If the cursor behind an item is the key of its entry and the keys fall, a page is resumed exactly if all that is shown
behind it has a smaller key. -/
theorem resumes_iff_of_pairwise (hsorted : (before ++ [a] ++ behind).Pairwise fun x y => l.key y ≤ l.key x)
    (hcursor : l.cursor? b = some (l.key a)) :
    Resumes l (before ++ [a]) b behind ↔ ∀ g ∈ behind, (l.item? g).isSome → l.key g < l.key a := by
  rw [Resumes, hcursor]
  obtain ⟨hupTo, hbehind, hcross⟩ := pairwise_append.mp hsorted
  have hlast : ∀ x ∈ before ++ [a], l.key a ≤ l.key x := by
    intro x hx
    rcases mem_append.mp hx with hx | hx
    · exact (pairwise_append.mp hupTo).2.2 x hx a (mem_singleton.mpr rfl)
    · rw [mem_singleton.mp hx]
  constructor
  · rintro ⟨-, hnil⟩ g hg hshown
    by_contra hge
    -- all up to it have keys that are as large
    obtain ⟨before', behind', rfl⟩ := append_of_mem hg
    have hkeys : ∀ x ∈ before' ++ [g], decide (l.key a ≤ l.key x) := by
      intro x hx
      refine decide_eq_true (le_trans (not_lt.mp hge) ?_)
      rcases mem_append.mp hx with hx | hx
      · exact (pairwise_append.mp hbehind).2.2 x hx g mem_cons_self
      · rw [mem_singleton.mp hx]
    have hmem : g ∈ (before' ++ g :: behind').takeWhile fun x => decide (l.key a ≤ l.key x) := by
      rw [append_cons, takeWhile_append_of_pos hkeys]
      simp
    rw [filterMap_eq_nil_iff.mp hnil g hmem] at hshown
    cases hshown
  · intro hlt
    refine ⟨hlast, filterMap_eq_nil_iff.mpr fun x hx => ?_⟩
    by_contra hshown
    have hkey := mem_takeWhile_imp hx
    have hmem : x ∈ behind := (takeWhile_sublist _).subset hx
    exact absurd (hlt x hmem (Option.isSome_iff_ne_none.mpr hshown)) (not_lt.mpr (of_decide_eq_true hkey))

theorem resumed_of_pairwise_lt (hsorted : entries.Pairwise fun x y => l.key y < l.key x)
    (hcursor : ∀ a ∈ entries, ∀ b, l.item? a = some b → l.cursor? b = some (l.key a)) : Resumed l size [] entries := by
  rintro before a behind b rfl ha - -
  rw [nil_append]
  have hsplit : before ++ a :: behind = before ++ [a] ++ behind := by simp
  have hlast : a ∈ before ++ a :: behind := mem_append_right _ mem_cons_self
  rw [resumes_iff_of_pairwise (by rw [← hsplit]; exact hsorted.imp le_of_lt) (hcursor a hlast b ha)]
  intro g hg _
  exact (pairwise_cons.mp (pairwise_append.mp hsorted).2.1).1 g hg

end KeysetPaging

import Mathlib.Tactic

/-!
# References in a text

A text is searched from left to right for some references, and each one that is found is replaced by its value. Searched for
one reference this is `str::replace`. To replace several references one after the other is to replace them at once, in any
order, as long as no value makes up a reference, alone or with what follows it.
-/

namespace Template

open List

variable {α : Type}

section Definitions

variable [DecidableEq α]

/-- Replaces the references, after some characters that belong to a reference already found. -/
def substituteFrom (refs : List (List α × List α)) : Nat → List α → List α
  | _, [] => []
  | skip + 1, _ :: text => substituteFrom refs skip text
  | 0, c :: text =>
    match refs.find? fun ref => ref.1.isPrefixOf (c :: text) with
    | some ref => ref.2 ++ substituteFrom refs (ref.1.length - 1) text
    | none => c :: substituteFrom refs 0 text

def substitute (refs : List (List α × List α)) (text : List α) : List α := substituteFrom refs 0 text

def replace (ref value text : List α) : List α := substitute [(ref, value)] text

def replaceEach (refs : List (List α × List α)) (text : List α) : List α :=
  refs.foldl (fun text ref => replace ref.1 ref.2 text) text

end Definitions

/-! ## One step of the search -/

section Step

variable [DecidableEq α] {refs : List (List α × List α)}

variable {text : List α}

theorem find?_eq_none (h : ∀ e ∈ refs, ¬ e.1 <+: text) : (refs.find? fun e => e.1.isPrefixOf text) = none := by
  rw [List.find?_eq_none]
  intro e he hstarts
  have hhere := List.isPrefixOf_iff_prefix.mp hstarts
  exact h e he hhere

theorem exists_find? (h : ∃ e ∈ refs, e.1 <+: text) :
    ∃ e ∈ refs, e.1 <+: text ∧ (refs.find? fun e => e.1.isPrefixOf text) = some e := by
  obtain ⟨e, he, hstarts⟩ := h
  have hsome : (refs.find? fun e => e.1.isPrefixOf text).isSome :=
    find?_isSome.mpr ⟨e, he, isPrefixOf_iff_prefix.mpr hstarts⟩
  obtain ⟨found, hfound⟩ := Option.isSome_iff_exists.mp hsome
  have hfits : found.1.isPrefixOf text := @find?_some _ (fun e => e.1.isPrefixOf text) found refs hfound
  exact ⟨found, mem_of_find?_eq_some hfound, isPrefixOf_iff_prefix.mp hfits, hfound⟩

theorem substituteFrom_eq_drop (skip : Nat) (text : List α) :
    substituteFrom refs skip text = substitute refs (text.drop skip) := by
  induction skip generalizing text with
  | zero => rfl
  | succ skip ih =>
    cases text with
    | nil => rfl
    | cons c text => exact ih text

variable {ref value : List α}

theorem substitute_append (hne : ref ≠ []) (text : List α)
    (hfind : (refs.find? fun e => e.1.isPrefixOf (ref ++ text)) = some (ref, value)) :
    substitute refs (ref ++ text) = value ++ substitute refs text := by
  obtain ⟨c, rest, rfl⟩ := exists_cons_of_ne_nil hne
  rw [cons_append] at hfind ⊢
  rw [substitute, substituteFrom, hfind]
  dsimp only
  rw [substituteFrom_eq_drop, length_cons, Nat.add_sub_cancel, drop_left]

theorem substitute_cons {c : α} (hnone : ∀ e ∈ refs, ¬ e.1 <+: c :: text) :
    substitute refs (c :: text) = c :: substitute refs text := by
  rw [substitute, substituteFrom, find?_eq_none hnone]
  rfl

theorem substitute_append_of_not (before text : List α)
    (hnone : ∀ e ∈ refs, ∀ rest, rest <:+ before → rest ≠ [] → ¬ e.1 <+: rest ++ text) :
    substitute refs (before ++ text) = before ++ substitute refs text := by
  induction before with
  | nil => rfl
  | cons c before ih =>
    have hrest : ∀ e ∈ refs, ∀ rest, rest <:+ before → rest ≠ [] → ¬ e.1 <+: rest ++ text := by
      intro e he rest hsuffix
      exact hnone e he rest (hsuffix.trans (suffix_cons _ _))
    rw [cons_append, substitute_cons, ih hrest, cons_append]
    intro e he
    exact hnone e he (c :: before) suffix_rfl (cons_ne_nil _ _)

theorem replace_append (hne : ref ≠ []) (text : List α) :
    replace ref value (ref ++ text) = value ++ replace ref value text := by
  refine substitute_append hne text ?_
  have hhere : ref.isPrefixOf (ref ++ text) := isPrefixOf_iff_prefix.mpr (prefix_append _ _)
  rw [find?_singleton, if_pos hhere]

theorem replace_cons {c : α} (h : ¬ ref <+: c :: text) :
    replace ref value (c :: text) = c :: replace ref value text := by
  refine substitute_cons ?_
  intro e he
  rw [mem_singleton.mp he]
  exact h

theorem replace_of_not_within (h : ¬ ref <:+: text) : replace ref value text = text := by
  induction text with
  | nil => rfl
  | cons c text ih =>
    rw [replace_cons fun hstarts => h hstarts.isInfix, ih fun hwithin => h (hwithin.trans (suffix_cons _ _).isInfix)]

/-- A text with the reference changes, if the value does not go on like the reference. -/
theorem replace_ne_of_within (hne : ref ≠ []) (hvalue : ∀ later, ¬ ref <+: value ++ later) (h : ref <:+: text) :
    replace ref value text ≠ text := by
  induction text with
  | nil => exact absurd (eq_nil_of_infix_nil h) hne
  | cons c text ih =>
    by_cases hstarts : ref <+: c :: text
    · obtain ⟨later, hlater⟩ := hstarts
      rw [← hlater, replace_append hne]
      intro heq
      exact hvalue (replace ref value later) ⟨later, heq.symm⟩
    · rw [replace_cons hstarts]
      intro heq
      rcases infix_cons_iff.mp h with hstart | hwithin
      · exact hstarts hstart
      · exact ih hwithin (cons.inj heq).2

end Step

/-! ## References that do not overlap -/

/-- A reference begins with the opening character and ends with the closing one, and has them nowhere else. -/
structure IsRef (opening closing : α) (ref : List α) : Prop where
  shape : ∃ name, ref = opening :: (name ++ [closing]) ∧ opening ∉ name ∧ closing ∉ name
  differ : opening ≠ closing

/-- A value has no reference in it, and does not end with the beginning of one. -/
structure Inert (refs : List (List α)) (value : List α) : Prop where
  not_within : ∀ ref ∈ refs, ¬ ref <:+: value
  not_begun : ∀ ref ∈ refs, ∀ begun, begun ≠ [] → begun <+: ref → ¬ begun <:+ value

/-- A value does not begin with the end of a reference, whatever follows. -/
def Closed (refs : List (List α)) (value : List α) : Prop :=
  ∀ ref ∈ refs, ∀ ending, ending ≠ [] → ending <:+ ref → ∀ later, ¬ ending <+: value ++ later

section Refs

variable {opening closing : α}

variable {ref : List α}

theorem IsRef.ne_nil (h : IsRef opening closing ref) : ref ≠ [] := by
  obtain ⟨name, rfl, -, -⟩ := h.shape
  exact cons_ne_nil _ _

/-- After its first character a reference has no opening character. -/
theorem IsRef.opening_not_mem (h : IsRef opening closing ref) {c : α} {rest : List α} (href : c :: rest <:+ ref)
    (hproper : c :: rest ≠ ref) : opening ∉ c :: rest := by
  obtain ⟨name, rfl, hname, -⟩ := h.shape
  have hrest : c :: rest <:+ name ++ [closing] := (suffix_cons_iff.mp href).resolve_left hproper
  intro hmem
  rcases mem_append.mp (hrest.mem hmem) with hin | hin
  · exact hname hin
  · exact h.differ (mem_singleton.mp hin)

variable {text : List α}

theorem IsRef.head_of_starts (h : IsRef opening closing ref) {c : α} (hstarts : ref <+: c :: text) : c = opening := by
  obtain ⟨name, rfl, -, -⟩ := h.shape
  obtain ⟨later, hlater⟩ := hstarts
  exact (cons.inj hlater).1.symm

theorem IsRef.eq_of_starts {ref' : List α} (h : IsRef opening closing ref) (h' : IsRef opening closing ref')
    (hstarts : ref <+: text) (hstarts' : ref' <+: text) : ref = ref' := by
  -- the shorter one ends with the closing character, which the longer one has at its end only
  have hshorter : ∀ {a b : List α}, IsRef opening closing a → IsRef opening closing b → a <+: b → a = b := by
    intro a b ha hb hab
    obtain ⟨name, rfl, -, -⟩ := ha.shape
    obtain ⟨name', rfl, -, hclosing⟩ := hb.shape
    obtain ⟨later, hlater⟩ := hab
    rw [cons_append, append_assoc] at hlater
    have heq := (cons.inj hlater).2
    rcases eq_nil_or_concat' later with rfl | ⟨later, last, rfl⟩
    · rw [append_nil] at heq
      rw [heq]
    · rw [← append_assoc, ← append_assoc] at heq
      have hname := (append_inj_left' heq rfl).symm
      exact absurd (hname ▸ mem_append_left _ (mem_append_right _ mem_cons_self)) hclosing
  rcases prefix_or_prefix_of_prefix hstarts hstarts' with hle | hle
  · exact hshorter h h' hle
  · exact (hshorter h' h hle).symm

variable [DecidableEq α] {refs : List (List α × List α)}

theorem IsRef.substitute_append (hrefs : ∀ e ∈ refs, IsRef opening closing e.1) (href : IsRef opening closing ref)
    (hnone : ∀ e ∈ refs, ¬ e.1 <+: ref ++ text) :
    substitute refs (ref ++ text) = ref ++ substitute refs text := by
  apply substitute_append_of_not
  intro e he rest hsuffix hne hstarts
  by_cases hwhole : rest = ref
  · exact hnone e he (hwhole ▸ hstarts)
  · obtain ⟨c, rest, rfl⟩ := exists_cons_of_ne_nil hne
    have hopen := (hrefs e he).head_of_starts hstarts
    exact href.opening_not_mem hsuffix hwhole (hopen ▸ mem_cons_self)

theorem Inert.substitute_append {names : List (List α)} {value : List α} (hvalue : Inert names value)
    (hrefs : ∀ e ∈ refs, e.1 ∈ names) (text : List α) :
    substitute refs (value ++ text) = value ++ substitute refs text := by
  apply substitute_append_of_not
  intro e he rest hsuffix hne hstarts
  rcases prefix_or_prefix_of_prefix hstarts (prefix_append rest text) with hle | hle
  · exact hvalue.not_within _ (hrefs e he) (hle.isInfix.trans hsuffix.isInfix)
  · exact hvalue.not_begun _ (hrefs e he) rest hne hle hsuffix

/-- The end of a reference is where it was, since no value begins with it. -/
theorem prefix_substitute (hrefs : ∀ e ∈ refs, IsRef opening closing e.1) {names : List (List α)}
    (hclosed : ∀ e ∈ refs, Closed names e.2) (href : ref ∈ names) {ending : List α} (hending : ending <:+ ref)
    (hopening : opening ∉ ending) (text : List α) :
    ending <+: substitute refs text ↔ ending <+: text := by
  induction ending generalizing text with
  | nil => exact iff_of_true nil_prefix nil_prefix
  | cons d ending ih =>
    cases text with
    | nil => exact Iff.rfl
    | cons c text =>
      by_cases hfound : ∃ e ∈ refs, e.1 <+: c :: text
      · -- a reference is found here, so neither side starts with the ending
        obtain ⟨found, hmem, hstarts, hfind⟩ := exists_find? hfound
        have hc := (hrefs found hmem).head_of_starts hstarts
        rw [substitute, substituteFrom, hfind]
        refine iff_of_false (hclosed found hmem ref href _ (cons_ne_nil _ _) hending _) ?_
        rintro ⟨later, hlater⟩
        have hd := (cons.inj hlater).1
        exact hopening (hd.trans hc ▸ mem_cons_self)
      · push Not at hfound
        rw [substitute_cons hfound, cons_prefix_cons, cons_prefix_cons]
        refine and_congr_right fun _ => ih ((suffix_cons _ _).trans hending) ?_ text
        exact fun hmem => hopening (mem_cons_of_mem _ hmem)

end Refs

/-! ## One after the other is all at once -/

section Each

variable {opening closing : α} {refs : List (List α × List α)} {names : List (List α)}

/-- The references and their values fit together: the references do not overlap, and the values make up none. -/
structure Fits (opening closing : α) (names : List (List α)) (refs : List (List α × List α)) : Prop where
  mem : ∀ e ∈ refs, e.1 ∈ names
  isRef : ∀ ref ∈ names, IsRef opening closing ref
  inert : ∀ e ∈ refs, Inert names e.2
  closed : ∀ e ∈ refs, Closed names e.2

theorem Fits.of_append {later : List (List α × List α)} (h : Fits opening closing names (refs ++ later)) :
    Fits opening closing names refs where
  mem := fun e he => h.mem e (mem_append_left _ he)
  isRef := h.isRef
  inert := fun e he => h.inert e (mem_append_left _ he)
  closed := fun e he => h.closed e (mem_append_left _ he)

variable {refs' : List (List α × List α)}

theorem Fits.perm (h : Fits opening closing names refs) (hperm : refs.Perm refs') :
    Fits opening closing names refs' where
  mem := fun e he => h.mem e (hperm.mem_iff.mpr he)
  isRef := h.isRef
  inert := fun e he => h.inert e (hperm.mem_iff.mpr he)
  closed := fun e he => h.closed e (hperm.mem_iff.mpr he)

variable [DecidableEq α]

theorem Fits.replace_substitute {ref value : List α} (h : Fits opening closing names (refs ++ [(ref, value)]))
    (text : List α) : replace ref value (substitute refs text) = substitute (refs ++ [(ref, value)]) text := by
  have hlast : (ref, value) ∈ refs ++ [(ref, value)] := mem_append_right _ mem_cons_self
  have hbefore : ∀ e ∈ refs, e ∈ refs ++ [(ref, value)] := fun e he => mem_append_left _ he
  have hisRef : ∀ e ∈ refs, IsRef opening closing e.1 := fun e he => h.isRef _ (h.mem e (hbefore e he))
  have href : IsRef opening closing ref := h.isRef _ (h.mem _ hlast)
  -- by induction on the length, since a reference is passed over at once
  induction hn : text.length using Nat.strong_induction_on generalizing text with
  | _ n ih =>
    cases text with
    | nil => rfl
    | cons c text =>
      by_cases hfound : ∃ e ∈ refs, e.1 <+: c :: text
      · obtain ⟨found, hmem, ⟨later, hlater⟩, hfind⟩ := exists_find? hfound
        have hne := (hisRef found hmem).ne_nil
        have hlength : later.length < n := by
          have hpos := length_pos_of_ne_nil hne
          rw [← hn, ← hlater, length_append]
          omega
        have hfind' : ((refs ++ [(ref, value)]).find? fun e => e.1.isPrefixOf (c :: text)) = some found := by
          rw [find?_append, hfind]
          rfl
        rw [← hlater] at hfind hfind' ⊢
        rw [substitute_append hne later hfind, substitute_append hne later hfind', replace,
          (h.inert found (hbefore found hmem)).substitute_append ?_ _]
        · exact congrArg (found.2 ++ ·) (ih later.length hlength later rfl)
        · intro e he
          rw [mem_singleton.mp he]
          exact h.mem _ hlast
      · push Not at hfound
        by_cases hhere : ref <+: c :: text
        · obtain ⟨later, hlater⟩ := hhere
          have hlength : later.length < n := by
            have hpos := length_pos_of_ne_nil href.ne_nil
            rw [← hn, ← hlater, length_append]
            omega
          have hhere : ref.isPrefixOf (c :: text) := isPrefixOf_iff_prefix.mpr ⟨later, hlater⟩
          have hfind' : ((refs ++ [(ref, value)]).find? fun e => e.1.isPrefixOf (ref ++ later)) = some (ref, value) := by
            rw [find?_append, hlater, find?_eq_none hfound, Option.none_or, find?_singleton, if_pos hhere]
          rw [← hlater] at hfound ⊢
          rw [href.substitute_append hisRef hfound, replace_append href.ne_nil, substitute_append href.ne_nil later hfind']
          exact congrArg (value ++ ·) (ih later.length hlength later rfl)
        · have hnone' : ∀ e ∈ refs ++ [(ref, value)], ¬ e.1 <+: c :: text := by
            intro e he
            rcases mem_append.mp he with he | he
            · exact hfound e he
            · rw [mem_singleton.mp he]
              exact hhere
          -- the reference does not come up here by what is substituted behind
          have hstill : ¬ ref <+: c :: substitute refs text := by
            obtain ⟨name, hname, hopen, hclose⟩ := href.shape
            have hopening : opening ∉ name ++ [closing] := by
              rw [mem_append, mem_singleton, not_or]
              exact ⟨hopen, href.differ⟩
            have hsuffix : name ++ [closing] <:+ ref := hname ▸ suffix_cons _ _
            rw [hname, cons_prefix_cons] at hhere ⊢
            rw [prefix_substitute hisRef (fun e he => h.closed e (hbefore e he)) (h.mem _ hlast) hsuffix hopening]
            exact hhere
          rw [substitute_cons hfound, replace_cons hstill, substitute_cons hnone',
            ih text.length (by rw [← hn, length_cons]; omega) text rfl]

section

variable (h : Fits opening closing names refs)

include h

theorem Fits.replaceEach_eq (text : List α) : replaceEach refs text = substitute refs text := by
  induction refs using reverseRecOn with
  | nil =>
    change text = substitute [] text
    induction text with
    | nil => rfl
    | cons c text ih =>
      rw [substitute_cons (fun e he => by cases he), ← ih]
  | append_singleton refs e ih =>
    have hlast : replaceEach (refs ++ [e]) text = replace e.1 e.2 (replaceEach refs text) := by
      rw [replaceEach, foldl_append]
      rfl
    rw [hlast, ih h.of_append]
    exact h.replace_substitute text

/-- The order of the references does not matter. -/
theorem Fits.substitute_perm (hnodup : (refs.map Prod.fst).Nodup) (hperm : refs.Perm refs') (text : List α) :
    substitute refs text = substitute refs' text := by
  have hisRef : ∀ e ∈ refs, IsRef opening closing e.1 := fun e he => h.isRef _ (h.mem e he)
  -- at most one of them starts at a place, so the first that does is the same one
  have hfind : ∀ text : List α, (refs.find? fun e => e.1.isPrefixOf text) = refs'.find? fun e => e.1.isPrefixOf text := by
    intro text
    have hunique : ∀ e ∈ refs, ∀ e' ∈ refs, e.1 <+: text → e'.1 <+: text → e = e' := by
      intro e he e' he' hstarts hstarts'
      have heq := (hisRef e he).eq_of_starts (hisRef e' he') hstarts hstarts'
      exact inj_on_of_nodup_map hnodup he he' heq
    by_cases hfound : ∃ e ∈ refs, e.1 <+: text
    · obtain ⟨e, he, hstarts, hleft⟩ := exists_find? hfound
      obtain ⟨e', he', hstarts', hright⟩ := exists_find? ⟨e, hperm.mem_iff.mp he, hstarts⟩
      rw [hleft, hright, hunique e he e' (hperm.mem_iff.mpr he') hstarts hstarts']
    · push Not at hfound
      rw [find?_eq_none hfound, find?_eq_none fun e he => hfound e (hperm.mem_iff.mpr he)]
  have hfrom : ∀ skip, substituteFrom refs skip text = substituteFrom refs' skip text := by
    induction text with
    | nil => exact fun _ => by rw [substituteFrom, substituteFrom]
    | cons c text ih =>
      intro skip
      cases skip with
      | succ skip => exact ih skip
      | zero =>
        rw [substituteFrom, substituteFrom, hfind]
        split
        · rw [ih]
        · rw [ih]
  exact hfrom 0

/-- References with inert values are replaced alike in every order. -/
theorem Fits.replaceEach_perm (hnodup : (refs.map Prod.fst).Nodup) (hperm : refs.Perm refs') (text : List α) :
    replaceEach refs text = replaceEach refs' text := by
  rw [h.replaceEach_eq, (h.perm hperm).replaceEach_eq, h.substitute_perm hnodup hperm]

end

end Each

/-! ## Values that make up a reference -/

section Dependent

variable {opening closing : α}

variable {text : List α}

theorem IsRef.not_within {ref : List α} (h : IsRef opening closing ref) (htext : opening ∉ text) : ¬ ref <:+: text := by
  obtain ⟨name, rfl, -, -⟩ := h.shape
  exact fun hwithin => htext (hwithin.subset mem_cons_self)

/-- The only reference in a reference with such a text behind it is itself. -/
theorem IsRef.not_within_append {ref ref' : List α} (h : IsRef opening closing ref) (h' : IsRef opening closing ref')
    (hne : ref' ≠ ref) (htext : opening ∉ text) : ¬ ref' <:+: ref ++ text := by
  obtain ⟨name, hname, hopening, -⟩ := h.shape
  have hrest : opening ∉ (name ++ [closing]) ++ text := by
    rw [mem_append, mem_append, mem_singleton, not_or, not_or]
    exact ⟨⟨hopening, h.differ⟩, htext⟩
  intro hwithin
  have hsplit : ref ++ text = opening :: ((name ++ [closing]) ++ text) := by
    rw [hname]
    rfl
  rw [hsplit] at hwithin
  rcases infix_cons_iff.mp hwithin with hstart | hinside
  · rw [← hsplit] at hstart
    exact hne (h'.eq_of_starts h hstart (prefix_append _ _))
  · exact h'.not_within hrest hinside

/-- A value that is not inert makes up a reference with some text behind it. -/
theorem exists_within_of_not_inert {names : List (List α)} (hnames : ∀ ref ∈ names, IsRef opening closing ref)
    {value : List α} (h : ¬ Inert names value) :
    ∃ ref ∈ names, ∃ text, opening ∉ text ∧ ref <:+: value ++ text := by
  by_contra hnone
  push Not at hnone
  refine h ⟨fun ref href hwithin => ?_, fun ref href begun hne hbegun hsuffix => ?_⟩
  · refine hnone ref href [] (not_mem_nil) ?_
    rw [append_nil]
    exact hwithin
  · obtain ⟨text, rfl⟩ := hbegun
    obtain ⟨front, rfl⟩ := hsuffix
    refine hnone _ href text ?_ ⟨front, [], ?_⟩
    · cases text with
      | nil => exact not_mem_nil
      | cons c text =>
        refine (hnames _ href).opening_not_mem (suffix_append _ _) ?_
        intro heq
        have hlength := congrArg length heq
        have hpos := length_pos_of_ne_nil hne
        rw [length_append] at hlength
        omega
    · rw [append_nil, append_assoc]

variable [DecidableEq α]

theorem replaceEach_append (refs later : List (List α × List α)) (text : List α) :
    replaceEach (refs ++ later) text = replaceEach later (replaceEach refs text) := by
  rw [replaceEach, foldl_append]
  rfl

/-- If a value with some text behind it has the next reference in it, the order of the two matters. -/
theorem replaceEach_swap_ne {before : List (List α × List α)} {e e' : List α × List α}
    (hrefs : ∀ x ∈ before, IsRef opening closing x.1 ∧ x.1 ≠ e.1) (he : IsRef opening closing e.1)
    (he' : IsRef opening closing e'.1) (hne : e'.1 ≠ e.1) (hvalue : ∀ later, ¬ e'.1 <+: e'.2 ++ later)
    (htext : opening ∉ text) (hwithin : e'.1 <:+: e.2 ++ text) :
    replaceEach (before ++ [e, e']) (e.1 ++ text) ≠ replaceEach (before ++ [e', e]) (e.1 ++ text) := by
  have hbefore : replaceEach before (e.1 ++ text) = e.1 ++ text := by
    induction before with
    | nil => rfl
    | cons x before ih =>
      obtain ⟨hx, hxe⟩ := hrefs x mem_cons_self
      have hstays : replace x.1 x.2 (e.1 ++ text) = e.1 ++ text :=
        replace_of_not_within (he.not_within_append hx hxe htext)
      rw [replaceEach, foldl_cons, hstays]
      exact ih fun y hy => hrefs y (mem_cons_of_mem _ hy)
  have hfound : replace e.1 e.2 (e.1 ++ text) = e.2 ++ text := by
    rw [replace_append he.ne_nil, replace_of_not_within (he.not_within htext)]
  have hother : replace e'.1 e'.2 (e.1 ++ text) = e.1 ++ text :=
    replace_of_not_within (he.not_within_append he' hne htext)
  rw [replaceEach_append, replaceEach_append, hbefore]
  change replace e'.1 e'.2 (replace e.1 e.2 (e.1 ++ text)) ≠ replace e.1 e.2 (replace e'.1 e'.2 (e.1 ++ text))
  rw [hother, hfound]
  exact replace_ne_of_within he'.ne_nil hvalue hwithin

end Dependent

end Template

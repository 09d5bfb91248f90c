import Dcode.Hooks.HookConfig

/-!
# Fingerprints tell hooks apart

Two hooks with one fingerprint have the same event, matcher, command and timeout: the hash and the serialization lose nothing,
and neither does the canonical order of the fields.
-/

namespace Dcode.Hooks

open Option SortedAssoc Value

/-! ## Canonical JSON -/

section Canonical

variable {N : Type}

/-- The canonical order does not change what is at a key. -/
theorem get_canonicalFields (key : Str) (fields : List (Str × Value N)) :
    get key (canonicalFields fields) = (get key fields).map canonicalJson := by
  induction fields with
  | nil => rfl
  | cons field fields ih =>
    rw [canonicalFields, get_insert, get_cons, ih]
    split <;> rfl

theorem get_append (key : Str) (fields fields' : List (Str × Value N)) :
    get key (fields ++ fields') = (get key fields).or (get key fields') := by
  induction fields with
  | nil => rfl
  | cons field fields ih =>
    rw [List.cons_append, get_cons, get_cons, ih]
    split <;> rfl

theorem get_singleton (key k : Str) (v : Value N) : get key [(k, v)] = if key = k then some v else none := by
  rw [get_cons]
  by_cases hk : key = k
  · rw [if_pos hk, if_pos hk]
  · rw [if_neg hk, if_neg hk, get_nil]

theorem get_optionalField (key : Str) (name : String) (value : Option (Value Nat)) :
    get key (optionalField name value) = if key = name.toList then value else none := by
  cases value with
  | none =>
    split <;> rfl
  | some v => exact get_singleton key name.toList v

/-- Two objects with one canonical form have, up to it, the same at every key. -/
theorem get_of_canonicalJson_eq {fields fields' : List (Str × Value N)}
    (h : canonicalJson (.object fields) = canonicalJson (.object fields')) (key : Str) :
    (get key fields).map canonicalJson = (get key fields').map canonicalJson := by
  rw [← get_canonicalFields, ← get_canonicalFields, object.inj h]

theorem canonicalJson_of_array_eq {v w : Value N} (h : canonicalJson (.array [v]) = canonicalJson (.array [w])) :
    canonicalJson v = canonicalJson w := by
  exact (List.cons.inj (array.inj h)).1

theorem map_canonicalJson_string (text : Option Str) :
    (text.map string).map (canonicalJson : Value N → Value N) = text.map string := by
  cases text with
  | none => rfl
  | some s => rw [map_some, map_some, canonicalJson]

theorem map_string_injective {text text' : Option Str}
    (h : text.map (string : Str → Value N) = text'.map string) : text = text' :=
  map_injective (fun _ _ => string.inj) h

end Canonical

/-! ## Hashes -/

theorem digitChar_injective {a b : Nat} (ha : a < 16) (hb : b < 16) (h : Nat.digitChar a = Nat.digitChar b) : a = b := by
  have hall : ∀ a b : Fin 16, Nat.digitChar a = Nat.digitChar b → a = b := by decide
  exact Fin.mk.inj_iff.mp (hall ⟨a, ha⟩ ⟨b, hb⟩ h)

theorem hexByte_injective {a b : UInt8} (h : hexByte a = hexByte b) : a = b := by
  have ha := UInt8.toNat_lt a
  have hb := UInt8.toNat_lt b
  obtain ⟨hhigh, hrest⟩ := List.cons.inj h
  have hlow := (List.cons.inj hrest).1
  have hdiv := digitChar_injective (by omega) (by omega) hhigh
  have hmod := digitChar_injective (by omega) (by omega) hlow
  apply UInt8.toNat_inj.mp
  omega

theorem flatMap_hexByte_injective {as bs : Bytes} (h : as.flatMap hexByte = bs.flatMap hexByte) : as = bs := by
  induction as generalizing bs with
  | nil =>
    cases bs with
    | nil => rfl
    | cons b bs => cases h
  | cons a as ih =>
    cases bs with
    | nil => cases h
    | cons b bs =>
      obtain ⟨hhead, htail⟩ := List.append_inj h rfl
      rw [hexByte_injective hhead, ih htail]

theorem canonicalJson_of_versionForToml_eq {hashing : Hashing} {v w : Value Nat}
    (h : versionForToml hashing v = versionForToml hashing w) : canonicalJson v = canonicalJson w := by
  have hhex := List.append_cancel_left h
  exact hashing.toVec_injective (hashing.sha256_injective (flatMap_hexByte_injective hhex))

/-! ## Identities -/

theorem find?_keyLabel (event : HookEventName) :
    (HookEventsToml.order.find? fun e => e.keyLabel == event.keyLabel) = some event := by
  cases event <;> rfl

theorem keyLabel_injective {a b : HookEventName} (h : a.keyLabel = b.keyLabel) : a = b := by
  have ha := find?_keyLabel a
  rw [h, find?_keyLabel b] at ha
  exact (some.inj ha).symm

def identityFields (event : HookEventName) (matcher : Option Str) (hook : Value Nat) : List (Str × Value Nat) :=
  [("event_name".toList, .string event.keyLabel)] ++ optionalField "matcher" (matcher.map .string) ++
    [("hooks".toList, .array [hook])]

section Fields

variable (event : HookEventName) (matcher : Option Str) (hook : Value Nat)

theorem get_matcher : SortedAssoc.get "matcher".toList (identityFields event matcher hook) = matcher.map .string := by
  have hevent : ¬ "matcher".toList = "event_name".toList := by decide
  have hhooks : ¬ "matcher".toList = "hooks".toList := by decide
  rw [identityFields, get_append, get_append, get_singleton, get_optionalField, get_singleton, if_neg hevent, if_pos rfl,
    if_neg hhooks, none_or, or_none]

theorem get_hooks : SortedAssoc.get "hooks".toList (identityFields event matcher hook) = some (.array [hook]) := by
  rw [identityFields, get_append, get_append, get_optionalField]
  rfl

end Fields

theorem exists_identity {hashing : Hashing} {event : HookEventName} {matcher : Option Str} {handler : HookHandlerConfig}
    {hash : Str} (h : commandHookHash hashing event matcher handler = some hash) :
    ∃ hook, handler.toToml = some hook ∧
      hash = versionForToml hashing (.object (identityFields event matcher hook)) := by
  obtain ⟨value, hvalue, rfl⟩ := map_eq_some_iff.mp h
  obtain ⟨hooks, hhooks, heq⟩ := bind_eq_some_iff.mp hvalue
  obtain rfl := some.inj heq
  obtain ⟨hook, hhook, hrest⟩ := bind_eq_some_iff.mp hhooks
  obtain rfl := some.inj hrest
  exact ⟨hook, hhook, rfl⟩

theorem exists_commandToml {command : Str} {timeoutSec : Nat} {isAsync : Bool} {statusMessage : Option Str}
    {limit : Option Nat} {hook : Value Nat}
    (h : (HookHandlerConfig.command command none (some timeoutSec) isAsync statusMessage limit).toToml = some hook) :
    ∃ fields, hook = .object fields ∧ SortedAssoc.get "command".toList fields = some (.string command) ∧
      SortedAssoc.get "timeout".toList fields = some (.number timeoutSec) := by
  obtain ⟨timeout, htimeout, hrest⟩ := bind_eq_some_iff.mp h
  obtain ⟨limit', -, heq⟩ := bind_eq_some_iff.mp hrest
  obtain rfl := some.inj heq
  have hnumber : timeout = some (.number timeoutSec) := by
    obtain ⟨value, hvalue, hsome⟩ := map_eq_some_iff.mp htimeout
    rw [tomlInteger] at hvalue
    split at hvalue
    · rw [← hsome, ← some.inj hvalue]
    · cases hvalue
  subst hnumber
  refine ⟨_, rfl, ?_, ?_⟩
  · rfl
  · rfl

/-- Two command hooks with one fingerprint do the same. -/
theorem eq_of_commandHookHash_eq {hashing : Hashing} {event event' : HookEventName} {matcher matcher' : Option Str}
    {command command' : Str} {timeoutSec timeoutSec' : Nat} {isAsync isAsync' : Bool}
    {statusMessage statusMessage' : Option Str} {limit limit' : Option Nat} {hash : Str}
    (h : commandHookHash hashing event matcher (.command command none (some timeoutSec) isAsync statusMessage limit) =
      some hash)
    (h' : commandHookHash hashing event' matcher'
      (.command command' none (some timeoutSec') isAsync' statusMessage' limit') = some hash) :
    event = event' ∧ matcher = matcher' ∧ command = command' ∧ timeoutSec = timeoutSec' := by
  obtain ⟨hook, hhook, rfl⟩ := exists_identity h
  obtain ⟨hook', hhook', hhash⟩ := exists_identity h'
  obtain ⟨fields, rfl, hcommand, htimeout⟩ := exists_commandToml hhook
  obtain ⟨fields', rfl, hcommand', htimeout'⟩ := exists_commandToml hhook'
  have hget := get_of_canonicalJson_eq (canonicalJson_of_versionForToml_eq hhash)
  have hevent := hget "event_name".toList
  have hmatcher := hget "matcher".toList
  have hhooks := hget "hooks".toList
  rw [get_matcher, get_matcher, map_canonicalJson_string, map_canonicalJson_string] at hmatcher
  rw [get_hooks, get_hooks] at hhooks
  have hfields := get_of_canonicalJson_eq (canonicalJson_of_array_eq (some.inj hhooks))
  have hcommands := hfields "command".toList
  have htimeouts := hfields "timeout".toList
  rw [hcommand, hcommand'] at hcommands
  rw [htimeout, htimeout'] at htimeouts
  exact ⟨keyLabel_injective (string.inj (some.inj hevent)), map_string_injective hmatcher,
    string.inj (some.inj hcommands), number.inj (some.inj htimeouts)⟩

end Dcode.Hooks

import Dcode.Lib.Str
import Dcode.Lib.IndexMap
import Dcode.Lib.Run

/-!
# TOML values and editable TOML documents

A document is a tree of tables that can be edited in place; what it says is the value it stands for, in which tables and
inline tables, and arrays of tables and arrays, are the same. How a document is laid out (comments, blank space, implicit
and dotted tables) is not part of the tree: printing a document and reading it again is taken to give its value.
-/

open IndexMap

inductive TomlValue (F : Type) where
  | string (s : Str)
  | integer (n : Int)
  | float (x : F)
  | boolean (b : Bool)
  | datetime (text : Str)
  | array (elems : List (TomlValue F))
  | table (entries : List (Str × TomlValue F))

inductive TomlItem (F : Type) where
  | none
  | value (v : TomlValue F)
  | table (entries : List (Str × TomlItem F))
  | arrayOfTables (tables : List (TomlItem F))

abbrev TomlTable (F : Type) := List (Str × TomlItem F)

abbrev InlineTable (F : Type) := List (Str × TomlValue F)

variable {F : Type}

namespace TomlItem

def isNone : TomlItem F → Bool
  | none => true
  | _ => false

mutual

def intoValue : TomlItem F → Option (TomlValue F)
  | none => Option.none
  | value v => some v
  | table entries => some (.table (intoInlineTable entries))
  | arrayOfTables tables => some (.array (intoArray tables))

def intoInlineTable : List (Str × TomlItem F) → List (Str × TomlValue F)
  | [] => []
  | (k, item) :: entries =>
    match intoValue item with
    | some v => (k, v) :: intoInlineTable entries
    | Option.none => intoInlineTable entries

def intoArray : List (TomlItem F) → List (TomlValue F)
  | [] => []
  | item :: tables =>
    match intoValue item with
    | some v => v :: intoArray tables
    | Option.none => intoArray tables

end

theorem mem_keys_of_mem_keys_intoInlineTable {k : Str} {entries : TomlTable F}
    (h : k ∈ keys (intoInlineTable entries)) : k ∈ keys entries := by
  induction entries with
  | nil => cases h
  | cons e entries ih =>
    obtain ⟨j, item⟩ := e
    rw [intoInlineTable] at h
    cases hv : intoValue item with
    | none =>
      rw [hv] at h
      exact List.mem_cons_of_mem _ (ih h)
    | some v =>
      rw [hv] at h
      rcases List.mem_cons.mp h with rfl | h
      · exact List.mem_cons_self
      · exact List.mem_cons_of_mem _ (ih h)

theorem uniqueKeys_intoInlineTable {entries : TomlTable F} (h : UniqueKeys entries) :
    UniqueKeys (intoInlineTable entries) := by
  induction entries with
  | nil => exact List.nodup_nil
  | cons e entries ih =>
    obtain ⟨k, item⟩ := e
    obtain ⟨hfresh, hrest⟩ := uniqueKeys_cons.mp h
    rw [intoInlineTable]
    cases intoValue item with
    | none => exact ih hrest
    | some v => exact uniqueKeys_cons.mpr ⟨fun hk => hfresh (mem_keys_of_mem_keys_intoInlineTable hk), ih hrest⟩

theorem get_intoInlineTable {entries : TomlTable F} (h : UniqueKeys entries) (k : Str) :
    get k (intoInlineTable entries) = (get k entries).bind intoValue := by
  induction entries with
  | nil => rfl
  | cons e entries ih =>
    obtain ⟨j, item⟩ := e
    obtain ⟨hfresh, hrest⟩ := uniqueKeys_cons.mp h
    rw [intoInlineTable, get_cons]
    by_cases hk : k = j
    · subst hk
      rw [if_pos rfl, Option.bind_some]
      cases hv : intoValue item with
      | none => exact get_eq_none_iff.mpr fun hk => hfresh (mem_keys_of_mem_keys_intoInlineTable hk)
      | some v => exact if_pos rfl
    · rw [if_neg hk, ← ih hrest]
      cases intoValue item with
      | none => rfl
      | some v => exact if_neg hk

end TomlItem

namespace TomlTable

def get (k : Str) (t : TomlTable F) : Option (TomlItem F) := (IndexMap.get k t).filter fun item => !item.isNone

end TomlTable

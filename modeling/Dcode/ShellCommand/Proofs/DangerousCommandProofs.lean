import Dcode.ShellCommand.DangerousCommand

/-!
# Dangerous commands behind wrappers

Every wrapper costs one step of depth, and `env` takes its own words off the command it stands in front of.
-/

namespace Dcode.ShellCommand

/-- `sudo`, or `env` with the words it takes, which may end in `--`. -/
inductive Wrapper where
  | viaSudo
  | viaEnv (words : List Str) (isClosed : Bool) (isEnvWord : ∀ word ∈ words, isEnvWord word)

namespace Wrapper

def wrap : Wrapper → List Str → List Str
  | viaSudo, command => "sudo".toList :: command
  | viaEnv words isClosed _, command => "env".toList :: (words ++ (if isClosed then ["--".toList] else []) ++ command)

/-- `env` without `--` does not stand in front of a word that it takes itself. -/
def Fits : Wrapper → List Str → Prop
  | viaSudo, _ => True
  | viaEnv _ isClosed _, command =>
    isClosed ∨ ∀ word, command.head? = some word → word ≠ "--".toList ∧ isEnvWord word = false

end Wrapper

def wrapAll (wrappers : List Wrapper) (command : List Str) : List Str := wrappers.foldr Wrapper.wrap command

/-- The innermost wrapper is in front of the command, and the others of the next wrapper. -/
def FitsAll : List Wrapper → List Str → Prop
  | [], _ => True
  | wrapper :: wrappers, command => wrapper.Fits (wrapAll wrappers command) ∧ FitsAll wrappers command

theorem envCommand_append {words : List Str} (h : ∀ word ∈ words, isEnvWord word) (rest : List Str) :
    envCommand (words ++ rest) = envCommand rest := by
  induction words with
  | nil => rfl
  | cons word words ih =>
    obtain ⟨hword, hwords⟩ := List.forall_mem_cons.mp h
    have hne : word ≠ "--".toList := by
      rintro rfl
      revert hword
      decide
    rw [List.cons_append, envCommand, if_neg hne, if_pos hword, ih hwords]

theorem envCommand_of_head {command : List Str}
    (h : ∀ word, command.head? = some word → word ≠ "--".toList ∧ isEnvWord word = false) :
    envCommand command = command := by
  cases command with
  | nil => rfl
  | cons word rest =>
    obtain ⟨hne, hword⟩ := h word rfl
    rw [envCommand, if_neg hne, if_neg (by simp [hword])]

variable {parse : List Str → Option (List (List Str))} {found : DangerousCommandMatch}

/-- A wrapped command is matched as it is with one step of depth less. -/
theorem matchWithin_wrap {wrapper : Wrapper} {command : List Str} (hfits : wrapper.Fits command) {left : Nat}
    (h : matchWithin parse left command = some found) :
    matchWithin parse (left + 1) (wrapper.wrap command) = some found := by
  cases wrapper with
  | viaSudo =>
    simp only [Wrapper.wrap, matchWithin, List.tail_cons]
    rw [h]
    rfl
  | viaEnv words isClosed hwords =>
    have hcommand : envCommand (words ++ (if isClosed then ["--".toList] else []) ++ command) = command := by
      rw [List.append_assoc, envCommand_append hwords]
      rcases hfits with hclosed | hhead
      · rw [if_pos hclosed]
        exact if_pos rfl
      · cases isClosed with
        | true => exact if_pos rfl
        | false => exact envCommand_of_head hhead
    simp only [Wrapper.wrap, matchWithin, List.tail_cons, hcommand]
    rw [h]
    rfl

/-- A chain of wrappers costs as much depth as it is long. -/
theorem matchWithin_wrapAll {wrappers : List Wrapper} {command : List Str} (hfits : FitsAll wrappers command)
    {left : Nat} (h : matchWithin parse left command = some found) :
    matchWithin parse (left + wrappers.length) (wrapAll wrappers command) = some found := by
  induction wrappers with
  | nil => exact h
  | cons wrapper wrappers ih => exact matchWithin_wrap hfits.1 (ih hfits.2)

/-- A command that is matched at the depth of a chain of wrappers is matched behind the chain, and a forced `rm` is
matched behind every chain up to the largest depth. -/
theorem dangerousCommandMatch_wrapAll (parse : List Str → Option (List (List Str))) {wrappers : List Wrapper}
    {command : List Str} (hfits : FitsAll wrappers command) :
    (∀ found, dangerousCommandMatchWithDepth parse command wrappers.length = some found →
      dangerousCommandMatch parse (wrapAll wrappers command) = some found) ∧
    (command.head?.bind executableNameLookupKey = some "rm".toList →
      rmArgsIncludeForceOption command.tail = true → wrappers.length ≤ maxDangerousCommandWrapperDepth →
      dangerousCommandMatch parse (wrapAll wrappers command) = some .forcedRm) := by
  have hall : ∀ found, dangerousCommandMatchWithDepth parse command wrappers.length = some found →
      dangerousCommandMatch parse (wrapAll wrappers command) = some found := by
    intro found h
    have hlen : wrappers.length ≤ maxDangerousCommandWrapperDepth + 1 := by
      by_contra hlt
      rw [dangerousCommandMatchWithDepth, Nat.sub_eq_zero_of_le (by omega)] at h
      cases h
    have hmatch := matchWithin_wrapAll hfits h
    rwa [Nat.sub_add_cancel hlen] at hmatch
  refine ⟨hall, fun hname hforce hlen => hall _ ?_⟩
  have hleft : maxDangerousCommandWrapperDepth + 1 - wrappers.length =
      (maxDangerousCommandWrapperDepth - wrappers.length) + 1 := by omega
  rw [dangerousCommandMatchWithDepth, hleft]
  simp [matchWithin, hname, hforce]

def forcedRmCommand : List Str := ["rm".toList, "-f".toList, "x".toList]

/-- `sudo env A=b -i` -/
def sudoEnv : List Wrapper := [.viaSudo, .viaEnv ["A=b".toList, "-i".toList] false (by decide)]

theorem dangerousCommandMatch_sudo :
    dangerousCommandMatch (fun _ => none) (wrapAll sudoEnv forcedRmCommand) = some .forcedRm := by
  have hfits : FitsAll sudoEnv forcedRmCommand := by
    refine ⟨trivial, .inr fun word hword => ?_, trivial⟩
    obtain rfl := Option.some.inj hword
    decide
  exact (dangerousCommandMatch_wrapAll (fun _ => none) hfits).2 (by decide) (by decide) (by decide)

/-- Behind nine wrappers a command is not looked at, and a command that `env` takes for a word of its own is not
found behind it. -/
theorem dangerousCommandMatch_nine : dangerousCommandMatch (fun _ => none) forcedRmCommand = some .forcedRm ∧
    dangerousCommandMatch (fun _ => none) (wrapAll (List.replicate 9 .viaSudo) forcedRmCommand) = none ∧
    dangerousCommandMatch (fun _ => none) ["A=/bin/rm".toList, "-f".toList] = some .forcedRm ∧
    dangerousCommandMatch (fun _ => none)
      (wrapAll [.viaEnv [] false (List.forall_mem_nil _)] ["A=/bin/rm".toList, "-f".toList]) = none := by
  decide +kernel

end Dcode.ShellCommand

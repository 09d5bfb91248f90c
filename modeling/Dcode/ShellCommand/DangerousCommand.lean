import Dcode.AbsolutePath

/-!
# Dangerous commands

`dangerous_command_match` of `codex-rs/shell-command/src/command_safety/is_dangerous_command.rs`, on Unix: a forced
`rm`, also behind `sudo` and `env`, in a trap or in a shell script.
-/

namespace Dcode.ShellCommand

open Str (splitOnce stripPrefix)

inductive DangerousCommandMatch where
  | forcedRm
  | other
deriving DecidableEq

def maxDangerousCommandWrapperDepth : Nat := 8

def executableNameLookupKey (raw : Str) : Option Str :=
  (Path.components raw).getLast?.filter (· ≠ "..".toList)

def rmArgsIncludeForceOption (args : List Str) : Bool :=
  (args.takeWhile (· ≠ "--".toList)).any fun arg =>
    arg = "--force".toList ||
      (stripPrefix ['-'] arg).any fun flags => flags.head? ≠ some '-' && flags.contains 'f'

def isEnvWord (argument : Str) : Bool :=
  argument = "-i".toList || argument = "--ignore-environment".toList ||
    (splitOnce '=' argument).any fun split => !split.1.isEmpty && split.1.head? ≠ some '-'

/-- The loop of `dangerous_command_match_for_env`: the command behind the words that `env` takes. -/
def envCommand : List Str → List Str
  | [] => []
  | argument :: rest =>
    if argument = "--".toList then rest
    else if isEnvWord argument then envCommand rest
    else argument :: rest

/-- The shell command that `dangerous_command_match_for_trap` makes of a trap action. -/
def trapCommand (args : List Str) : Option (List Str) :=
  let args := if args.head? = some "--".toList then args.tail else args
  match args.head? with
  | some action => if action.head? = some '-' then none else some ["sh".toList, "-c".toList, action]
  | none => none

section

-- parse_shell_lc_literal_commands, which rests on a grammar of the shell
variable (parseShellLcLiteralCommands : List Str → Option (List (List Str)))

/-- `dangerous_command_match_with_depth` by the depth that is left, with `dangerous_command_match_for_exec`. -/
def matchWithin : Nat → List Str → Option DangerousCommandMatch
  | 0, _ => none
  | left + 1, command =>
    let exec : Option DangerousCommandMatch :=
      match command.head?.bind executableNameLookupKey with
      | some name =>
        if name = "rm".toList then if rmArgsIncludeForceOption command.tail then some .forcedRm else none
        else if name = "sudo".toList then matchWithin left command.tail
        else if name = "env".toList then matchWithin left (envCommand command.tail)
        else if name = "trap".toList then (trapCommand command.tail).bind (matchWithin left)
        else none
      | none => none
    exec.or ((parseShellLcLiteralCommands command).bind fun commands => commands.findSome? (matchWithin left))

def dangerousCommandMatchWithDepth (command : List Str) (wrapperDepth : Nat) : Option DangerousCommandMatch :=
  matchWithin parseShellLcLiteralCommands (maxDangerousCommandWrapperDepth + 1 - wrapperDepth) command

def dangerousCommandMatch (command : List Str) : Option DangerousCommandMatch :=
  dangerousCommandMatchWithDepth parseShellLcLiteralCommands command 0

end

end Dcode.ShellCommand

import MiniFs.Client

/-! # client.c and its screen

The command loop with what it prints on the standard output. A round starts with the prompt and ends before the next
one; the line that the user types is not echoed by the program. -/

namespace MiniFs.Shell
open Interact Memory

/-- A part of a round, which has printed some text before it. -/
abbrev ShellM := StateT Str ClientM

def printf (str : Str) : ShellM Unit := fun out => .ret ((), out ++ str)

/-- The loop over the `n` records of a listing and the end of its line. -/
def records : (n : Nat) → ShellM Prompt
  | 0 => do
    printf (lit "\n")
    pure .again
  | n + 1 => do
    (sendMsg (lit "EXPECT") : ClientM Unit)
    match ← (getMsg : ClientM (Option Str)) with
    | none => pure .errExit
    | some msg => do
      printf msg
      records n

/-- One round of `cmd_loop`. -/
def cmdLoop (cmd : Str) : ShellM Prompt := do
  printf (lit "Command > ")
  (sendMsg cmd : ClientM Unit)
  let r ← getNum
  if r = 0 then pure .again
  else if r = 1 then do
    let cmd ← (.op .getline .ret : ClientM Str)
    (sendMsg cmd : ClientM Unit)
    if (← getNum) ≠ 0 then do
      printf (cmd ++ lit ": execution failed.\n")
      pure .again
    else pure .again
  else if r = 2 then do
    (sendMsg (lit "ACK") : ClientM Unit)
    let n ← getNum
    records n.toNat
  else if r = 3 then pure .stop
  else if r = 4 then do
    printf (cmd ++ lit ": execution failed.\n")
    pure .again
  else do
    printf (cmd ++ lit ": command not found.\n")
    pure .again

end MiniFs.Shell

import MiniFs.Utils

/-! # client.c

The command loop of the shell. A round starts at the prompt with the line that the user types and ends at
the next prompt; what it prints is left out. -/

namespace MiniFs
open Interact Memory

inductive ClientOp where
  | getline

/-- The one operation of the client: a further line from the user. -/
abbrev clientSig : Sig := ⟨ClientOp, fun _ => Str⟩

abbrev ClientM := Prog clientSig

/-- How a round of `cmd_loop` ends: at the next prompt, or with the loop or the process. -/
inductive Prompt where
  | again
  | stop
  | errExit
  deriving DecidableEq, Repr

/-- `atoi(get_msg(sock))` -/
def getNum : ClientM Int := do .ret (atoi (← getMsgStr))

/-- The loop over the `n` records of a listing. -/
def records : (n : Nat) → ClientM Prompt
  | 0 => .ret .again
  | n + 1 => do
    sendMsg (lit "EXPECT")
    match ← getMsg with
    | none => .ret .errExit
    | some _ => records n

/-- One round of `cmd_loop`. -/
def cmdLoop (cmd : Str) : ClientM Prompt := do
  sendMsg cmd
  let r ← getNum
  if r = 0 then .ret .again
  else if r = 1 then do
    let cmd ← (.op .getline .ret : ClientM Str)
    sendMsg cmd
    let _ ← getNum
    .ret .again
  else if r = 2 then do
    sendMsg (lit "ACK")
    let n ← getNum
    records n.toNat
  else if r = 3 then .ret .stop
  else .ret .again

end MiniFs

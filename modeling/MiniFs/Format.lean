import MiniFs.Alloc

/-! # format.c

The child process that formats the disk. Starting the disk server beside it, and the ports, are left out; so is the
closing of the connection at the end of `alloc_final`. -/

namespace MiniFs
open Interact Memory

/-- `main`, in the child -/
def formatMain : BlockM Alloc := do
  let a ← Alloc.start.init
  let a ← a.format
  a.final

end MiniFs

import MiniFs.Alloc

/-! # disk_test.c

The client that writes blocks of random bytes to the disk server and reads each one back. The values of `rand` are a
parameter; the connection is left out. -/

namespace MiniFs
open Interact Memory

/-- What round `test` makes of the values of `rand`: the bytes of a block, its cylinder and its sector. -/
def testBlock (rand : Nat → Nat) (test : Nat) : Block where
  zones i := UInt8.ofNat (rand ((blockSize + 2) * test + i))
  c := rand ((blockSize + 2) * test + blockSize) % cylinders
  s := rand ((blockSize + 2) * test + blockSize + 1) % sectors

/-- The bytes of which a failure is reported. -/
def failedBytes (a b : Block) : List Nat := (List.range blockSize).filter fun i => a.zones.get i ≠ b.zones.get i

/-- The loop of `main` over `n` rounds from `test` on, with the number of failures that it reports. -/
def testLoop (rand : Nat → Nat) : (n : Nat) → (test : Nat) → (b : Block) → BlockM Nat
  | 0, _, _ => .ret 0
  | n + 1, test, b => do
    let a := testBlock rand test
    writeBlockOp a
    let b ← readBlockOp a.c a.s b
    let rest ← testLoop rand n (test + 1) b
    .ret ((failedBytes a b).length + rest)

def diskTestMain (rand : Nat → Nat) : BlockM Nat := testLoop rand 100 0 ⟨.zero, 0, 0⟩

end MiniFs

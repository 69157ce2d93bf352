import TwoPass.Text.Base4

/-!
The address space: words are numbered from 0, and a program is loaded at a fixed address.
-/
namespace TwoPass.Memory

/-- The number of addressable words. -/
def size : Nat := 65536

/-- The address of the first word of a program. -/
def base : Nat := 100

/-- The most words a program can have. -/
def room : Nat := size - base

end TwoPass.Memory

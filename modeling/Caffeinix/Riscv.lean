import Mathlib.Data.Nat.Bitwise

/-!
# `Riscv` — the page geometry of `arch/riscv/include/riscv.h`

Addresses are `Nat`s; `uint64` arithmetic that can wrap is written with an explicit `% 2 ^ 64` where it
occurs.
-/

namespace Caffeinix

/-- `PGSHIFT`. -/
def pgshift : Nat := 12

/-- `PGSIZE`. -/
def pgsize : Nat := 4096

/-- `MAXVA`: one bit less than Sv39 allows, so that no address needs sign extension. -/
def maxva : Nat := 2 ^ 38

/-- `(uint64)-1`. -/
def uint64Max : Nat := 2 ^ 64 - 1

/-- `PGROUNDDOWN(a)`. -/
def pgrounddown (a : Nat) : Nat := a - a % pgsize

/-- `PGROUNDUP(sz)`. -/
def pgroundup (sz : Nat) : Nat := pgrounddown (sz + pgsize - 1)

theorem pgsize_eq : pgsize = 2 ^ pgshift := rfl

theorem pgsize_pos : 0 < pgsize := by decide

end Caffeinix

import Mathlib.Tactic.Common

/-!
# `Fs.Error` — the errors of `vfs.h`
-/

namespace Caffeinix

/-- `VFS_ERR_*`. -/
inductive VfsError where
  | perm | noent | io | badf | exist | notdir | isdir | inval | mfile | nospc | notempty | nodev | nomem | notsupp
  | nametoolong | busy | xdev | mlink | fault
deriving DecidableEq

/-- The value of the constant. -/
def VfsError.code : VfsError → Int
  | .perm => -1
  | .noent => -2
  | .io => -3
  | .badf => -4
  | .exist => -5
  | .notdir => -6
  | .isdir => -7
  | .inval => -8
  | .mfile => -9
  | .nospc => -10
  | .notempty => -11
  | .nodev => -12
  | .nomem => -13
  | .notsupp => -14
  | .nametoolong => -15
  | .busy => -16
  | .xdev => -18
  | .mlink => -19
  | .fault => -22

theorem VfsError.code_neg (e : VfsError) : e.code < 0 := by
  cases e <;> decide

end Caffeinix

import Wwdedup.Types

/-!
# Paths and modes

Paths are normalised absolute paths, kept as the strings that the column `files.path` holds.
`branchPath` and `leaf` are the methods of `boost::filesystem::path`.
-/

namespace Wwdedup

/-- The path without its last component: "/" for "/a", the empty path for "/". -/
def branchPath (p : Path) : Path :=
  match p.reverse.dropWhile (· ≠ '/') with
  | [] => []
  | [_] => if p = ['/'] then [] else ['/']
  | _ :: dir => dir.reverse

/-- `boost::filesystem::path::leaf`: the last component. -/
def leaf (p : Path) : Path :=
  if p = ['/'] then p else (p.reverse.takeWhile (· ≠ '/')).reverse

def sIfmt : ℕ := 0o170000
def sIfdir : ℕ := 0o040000
def sIfreg : ℕ := 0o100000

/-- `S_ISDIR(mode)`. -/
def sIsdir (mode : ℕ) : Bool := mode &&& sIfmt = sIfdir

/-- `S_ISREG(mode)`. -/
def sIsreg (mode : ℕ) : Bool := mode &&& sIfmt = sIfreg

theorem not_sIsdir_of_sIsreg {mode : ℕ} (h : sIsreg mode) : sIsdir mode = false := by
  unfold sIsreg at h
  unfold sIsdir
  rw [decide_eq_true_eq] at h
  rw [h]
  decide

/-! ### The error numbers that are returned -/

def enoent : ℤ := 2
def eio : ℤ := 5
def eexist : ℤ := 17
def enotdir : ℤ := 20
def eisdir : ℤ := 21
def einval : ℤ := 22
def enotempty : ℤ := 39

end Wwdedup

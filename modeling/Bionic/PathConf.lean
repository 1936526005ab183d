import Mathlib.Data.BitVec
import Bionic.Iterate

/-! # Limits of a file system (`libc/unistd/pathconf.c`)

`pathconf` and `fpathconf` find some limits by the type of the file system, in three tables that a sentinel ends.  The
loops over the tables never go on to the next entry: a type that the first entry does not have makes the call loop for
ever (`scans_iff`). -/

namespace Bionic.PathConf

open Iterate

/-! ### Data -/

abbrev Word := BitVec 32

/-- The fields of a `struct statfs` that are read. -/
structure Statfs where
  fType : Word
  fNamelen : Word

def ADFS_SUPER_MAGIC : Word := 0xadf5
def BFS_MAGIC : Word := 0x1BADFACE
def CRAMFS_MAGIC : Word := 0x28cd3d45
def EFS_SUPER_MAGIC : Word := 0x00414A53
def EXT2_SUPER_MAGIC : Word := 0xEF53
def EXT3_SUPER_MAGIC : Word := 0xEF53
def JFS_SUPER_MAGIC : Word := 0x3153464a
def MINIX_SUPER_MAGIC : Word := 0x137F
def MINIX2_SUPER_MAGIC : Word := 0x2468
def MSDOS_SUPER_MAGIC : Word := 0x4d44
def NTFS_SB_MAGIC : Word := 0x5346544e
def QNX4_SUPER_MAGIC : Word := 0x002f
def REISERFS_SUPER_MAGIC : Word := 0x52654973
def SMB_SUPER_MAGIC : Word := 0x517B
def UDF_SUPER_MAGIC : Word := 0x15013346
def UFS_MAGIC : Word := 0x00011954
def VXFS_SUPER_MAGIC : Word := 0xa501FCF5
def XFS_SUPER_MAGIC : Word := 0x58465342

/-- The type of the sentinel. -/
def EOL_MAGIC : Word := 0x0000

def EXT2_LINK_MAX : ℤ := 32000
def EXT3_LINK_MAX : ℤ := 32000
def LINK_MAX : ℤ := 127
def MAX_CANON : ℤ := 255
def MAX_INPUT : ℤ := 255
def PATH_MAX : ℤ := 4096
def PIPE_BUF : ℤ := 4096
def POSIX_CHOWN_RESTRICTED : ℤ := 1
def POSIX_NO_TRUNC : ℤ := 1
def POSIX_VDISABLE : ℤ := -1
def POSIX_ASYNC_IO : ℤ := -1
def POSIX_PRIO_IO : ℤ := -1
def POSIX_SYNC_IO : ℤ := -1
def EINVAL : ℕ := 22

/-- An entry of a table: a type, and the value for it. -/
abbrev Entry := Word × ℤ

/-- The types that `__filesizebits` answers 64 for. -/
def known64 : List Entry :=
  [EXT2_SUPER_MAGIC, UFS_MAGIC, REISERFS_SUPER_MAGIC, XFS_SUPER_MAGIC, SMB_SUPER_MAGIC, UDF_SUPER_MAGIC,
    JFS_SUPER_MAGIC, NTFS_SB_MAGIC, VXFS_SUPER_MAGIC].map (·, 64)

def knownMax : List Entry :=
  [(EXT2_SUPER_MAGIC, EXT2_LINK_MAX), (EXT3_SUPER_MAGIC, EXT3_LINK_MAX), (MINIX_SUPER_MAGIC, 250),
    (MINIX2_SUPER_MAGIC, 65530), (REISERFS_SUPER_MAGIC, 0xffff - 1000), (UFS_MAGIC, 32000)]

/-- The types that `__2_symlinks` answers 0 for. -/
def knownNoSymlinks : List Entry :=
  [ADFS_SUPER_MAGIC, BFS_MAGIC, CRAMFS_MAGIC, EFS_SUPER_MAGIC, MSDOS_SUPER_MAGIC, NTFS_SB_MAGIC,
    QNX4_SUPER_MAGIC].map (·, 0)

/-! ### The source -/

/-- The body of the loop `for (;;)` over a table with the entries `known` and the sentinel; the state is `nn`, which the
body does not change. -/
def scan (known : List Entry) (default : ℤ) (fType : Word) (nn : ℕ) : ℕ ⊕ ℤ :=
  let e := (known ++ [(EOL_MAGIC, 0)]).getD nn (EOL_MAGIC, 0)
  if e.1 = EOL_MAGIC then .inr default
  else if e.1 = fType then .inr e.2
  else .inl nn

/-- `__filesizebits`. -/
def filesizebits (s : Statfs) : ℕ → ℕ ⊕ ℤ := scan known64 32 s.fType

/-- `__link_max`. -/
def linkMax (s : Statfs) : ℕ → ℕ ⊕ ℤ := scan knownMax LINK_MAX s.fType

/-- `__2_symlinks`. -/
def twoSymlinks (s : Statfs) : ℕ → ℕ ⊕ ℤ := scan knownNoSymlinks 1 s.fType

/-- What a call returns, and what it sets `errno` to. -/
structure Answer where
  value : ℤ
  errno : Option ℕ
deriving DecidableEq, Repr

/-- `pathconf` and `fpathconf`, once `statfs` or `fstatfs` has stored `buf` or failed, with loops of at most `fuel`
steps. -/
def pathconf (fuel : ℕ) (buf : Option Statfs) (name : ℕ) : Option Answer :=
  match buf with
  | none => some ⟨-1, none⟩
  | some buf =>
    match name with
    | 0x0000 => (run (filesizebits buf) fuel 0).map (⟨·, none⟩)
    | 0x0001 => (run (linkMax buf) fuel 0).map (⟨·, none⟩)
    | 0x0002 => some ⟨MAX_CANON, none⟩
    | 0x0003 => some ⟨MAX_INPUT, none⟩
    | 0x0004 => some ⟨buf.fNamelen.toInt, none⟩
    | 0x0005 => some ⟨PATH_MAX, none⟩
    | 0x0006 => some ⟨PIPE_BUF, none⟩
    | 0x0007 => (run (twoSymlinks buf) fuel 0).map (⟨·, none⟩)
    | 0x000d => some ⟨-1, none⟩
    | 0x000e => some ⟨POSIX_CHOWN_RESTRICTED, none⟩
    | 0x000f => some ⟨POSIX_NO_TRUNC, none⟩
    | 0x0010 => some ⟨POSIX_VDISABLE, none⟩
    | 0x0011 => some ⟨ POSIX_ASYNC_IO, none⟩
    | 0x0012 => some ⟨ POSIX_PRIO_IO, none⟩
    | 0x0013 => some ⟨ POSIX_SYNC_IO, none⟩
    | _ => some ⟨-1, some EINVAL⟩

/-! ### What the scans find -/

/-- The value of the entry with a type, or else the default. -/
def valueFor (known : List Entry) (default : ℤ) (fType : Word) : ℤ :=
  ((known.find? (·.1 = fType)).map (·.2)).getD default

/-- The scan ends, and its result is right. -/
def Finds (known : List Entry) (default : ℤ) (fType : Word) (loop : ℕ → ℕ ⊕ ℤ) : Prop :=
  Returns loop 0 (valueFor known default fType)

section Scan

variable {known : List Entry} {default v : ℤ} {t fType : Word}

/-- Whether it ends is decided by the first entry. -/
theorem scan_returns_iff (ht : t ≠ EOL_MAGIC) (r : ℤ) :
    Returns (scan ((t, v) :: known) default fType) 0 r ↔ fType = t ∧ r = v := by
  by_cases h : t = fType
  · have hstep : scan ((t, v) :: known) default fType 0 = .inr v := by simp [scan, h ▸ ht, h]
    rw [returns_done_iff hstep]
    exact (and_iff_right h.symm).symm
  · have hstep : scan ((t, v) :: known) default fType 0 = .inl 0 := by simp [scan, ht, h]
    exact iff_of_false (not_returns_of_fixed hstep) fun hr => h hr.1.symm

theorem finds_iff (ht : t ≠ EOL_MAGIC) :
    Finds ((t, v) :: known) default fType (scan ((t, v) :: known) default fType) ↔ fType = t := by
  rw [Finds, scan_returns_iff ht]
  refine and_iff_left_of_imp ?_
  rintro rfl
  simp [valueFor]

end Scan

/-- For every file system type, each scan ends with the right value if and only if the first entry of its table has this
type. -/
theorem scans_iff (s : Statfs) :
    (Finds known64 32 s.fType (filesizebits s) ↔ s.fType = EXT2_SUPER_MAGIC) ∧
    (Finds knownMax LINK_MAX s.fType (linkMax s) ↔ s.fType = EXT2_SUPER_MAGIC) ∧
    (Finds knownNoSymlinks 1 s.fType (twoSymlinks s) ↔ s.fType = ADFS_SUPER_MAGIC) :=
  ⟨finds_iff (by decide), finds_iff (by decide), finds_iff (by decide)⟩

/-- XFS has an entry with the value 64, and a type of 0 has none. -/
theorem not_finds_xfs :
    valueFor known64 32 XFS_SUPER_MAGIC = 64 ∧ ¬ Finds known64 32 XFS_SUPER_MAGIC (filesizebits ⟨XFS_SUPER_MAGIC, 255⟩) ∧
    ¬ Finds knownMax LINK_MAX 0 (linkMax ⟨0, 255⟩) ∧ ¬ Finds knownNoSymlinks 1 0 (twoSymlinks ⟨0, 255⟩) := by
  refine ⟨by decide, ?_, ?_, ?_⟩
  · exact mt (finds_iff (by decide)).mp (by decide)
  · exact mt (finds_iff (by decide)).mp (by decide)
  · exact mt (finds_iff (by decide)).mp (by decide)

/-! ### The calls -/

/-- The name that is asked for is one of the three limits, and the type is not that of the first entry. -/
def Hangs (name : ℕ) (fType : Word) : Prop :=
  (name = 0 ∨ name = 1) ∧ fType ≠ EXT2_SUPER_MAGIC ∨ name = 7 ∧ fType ≠ ADFS_SUPER_MAGIC

section Calls

variable {known : List Entry} {default v : ℤ} {t fType : Word}

theorem exists_map_run_iff {loop : ℕ → ℕ ⊕ ℤ} :
    (∃ fuel a, (run loop fuel 0).map (Answer.mk · none) = some a) ↔ ∃ r, Returns loop 0 r := by
  constructor
  · rintro ⟨fuel, a, h⟩
    obtain ⟨r, hr, -⟩ := Option.map_eq_some_iff.mp h
    exact ⟨r, fuel, hr⟩
  · rintro ⟨r, fuel, hr⟩
    exact ⟨fuel, _, Option.map_eq_some_iff.mpr ⟨r, hr, rfl⟩⟩

theorem exists_scan_returns_iff (ht : t ≠ EOL_MAGIC) :
    (∃ r, Returns (scan ((t, v) :: known) default fType) 0 r) ↔ fType = t := by
  simp [scan_returns_iff ht]

end Calls

/-- A call that `statfs` succeeds for answers, whatever the name is, unless it hangs in one of the three loops. -/
theorem pathconf_answers_iff (s : Statfs) (name : ℕ) :
    (∃ fuel a, pathconf fuel (some s) name = some a) ↔ ¬ Hangs name s.fType := by
  unfold pathconf Hangs
  dsimp only
  split
  · rw [exists_map_run_iff]
    exact (exists_scan_returns_iff (by decide)).trans (by simp)
  · rw [exists_map_run_iff]
    exact (exists_scan_returns_iff (by decide)).trans (by simp)
  case h_8 =>
    rw [exists_map_run_iff]
    exact (exists_scan_returns_iff (by decide)).trans (by simp)
  all_goals simp_all

end Bionic.PathConf

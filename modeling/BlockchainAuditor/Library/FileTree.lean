import BlockchainAuditor.Library.CStrings
import Mathlib.Logic.Function.Basic

/-! Files and directories by their absolute paths, and processes that name them from a
working directory. -/

namespace FileTree

open CStrings

abbrev DiskPath := List Bytes

def slash : UInt8 := 47
def dot : UInt8 := 46

/-- What links and mounts make of an absolute path, and where a process may create or write. -/
structure Kernel where
  canonical : DiskPath → DiskPath
  grants : DiskPath → Bool

structure Disk where
  directory : DiskPath → Bool
  file : DiskPath → Option Bytes

/-- Two slashes or a `.` name nothing; `..` is left to the kernel. -/
def names (text : Bytes) : DiskPath :=
  (text.splitOn slash).filter fun name => name ≠ [] && name ≠ [dot]

def origin (cwd : DiskPath) (text : Bytes) : DiskPath := if text.head? = some slash then [] else cwd

def resolve (cwd : DiskPath) (text : Bytes) : DiskPath := origin cwd text ++ names text

def directoryText (text : Bytes) : Option Bytes :=
  if slash ∈ text then some (text.reverse.dropWhile (· ≠ slash)).tail.reverse else none

/-- `mkdir -p` below a directory; it stops at the first name that it may not create. -/
def makeDirectories (kernel : Kernel) : DiskPath → DiskPath → Disk → Disk
  | _, [], disk => disk
  | front, name :: rest, disk =>
    let place := kernel.canonical (front ++ [name])
    if disk.directory place then makeDirectories kernel (front ++ [name]) rest disk
    else if kernel.grants place && (disk.file place).isNone then
      makeDirectories kernel (front ++ [name]) rest
        { disk with directory := Function.update disk.directory place true }
    else disk

def Disk.openAppend (disk : Disk) (kernel : Kernel) (path : DiskPath) : Option DiskPath :=
  let place := kernel.canonical path
  if disk.directory (kernel.canonical path.dropLast) && !disk.directory place &&
    kernel.grants place then some place else none

def Disk.write (disk : Disk) (place : DiskPath) (contents : Option Bytes) : Disk :=
  { disk with file := Function.update disk.file place contents }

variable {kernel : Kernel} {disk : Disk} {path place other : DiskPath} {contents : Option Bytes}

theorem makeDirectories_file {front rest : DiskPath} :
    (makeDirectories kernel front rest disk).file = disk.file := by
  induction rest generalizing front disk with
  | nil => rfl
  | cons name rest ih =>
      rw [makeDirectories]
      split
      · exact ih
      · split
        · exact ih
        · rfl

theorem Disk.openAppend_some (opened : disk.openAppend kernel path = some place) :
    kernel.canonical path = place := by
  rw [openAppend] at opened
  split at opened
  · exact Option.some.inj opened
  · simp at opened

@[simp] theorem Disk.write_same : (disk.write place contents).file place = contents := by
  simp [write]

theorem Disk.write_other (different : other ≠ place) :
    (disk.write place contents).file other = disk.file other := by
  simp [write, different]

theorem Disk.write_ne (changes : contents ≠ disk.file place) : disk.write place contents ≠ disk := by
  intro same
  have read := congrArg (fun tree : Disk => tree.file place) same
  rw [write_same] at read
  exact changes read

theorem Disk.write_place {others : Option Bytes} (changes : contents ≠ disk.file place)
    (same : disk.write place contents = disk.write other others) : place = other := by
  by_contra different
  have read := congrArg (fun tree : Disk => tree.file place) same
  rw [write_same, write_other different] at read
  exact changes read

end FileTree

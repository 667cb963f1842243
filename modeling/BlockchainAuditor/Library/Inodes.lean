import Mathlib.Logic.Function.Basic

/-! The files that one path names over time. A file stays with those who have opened it, also when
`unlink` has taken the path from it. -/

namespace Inodes

/-- The files by their inodes, of which those below `next` have been given out. -/
structure Disk (α : Type) where
  files : Nat → List α
  next : Nat
  path : Option Nat

variable {α β : Type}

def Disk.empty : Disk α := ⟨fun _ => [], 0, none⟩

def Disk.contents (disk : Disk α) : Option (List α) := disk.path.map disk.files

def Disk.put (disk : Disk α) (inode : Nat) (contents : List α) : Disk α :=
  { disk with files := Function.update disk.files inode contents }

def Disk.openAppend (disk : Disk α) : Disk α × Nat :=
  match disk.path with
  | some inode => (disk, inode)
  | none => (⟨Function.update disk.files disk.next [], disk.next + 1, some disk.next⟩, disk.next)

def Disk.openWrite (disk : Disk α) : Disk α × Nat :=
  match disk.path with
  | some inode => (disk.put inode [], inode)
  | none => (⟨Function.update disk.files disk.next [], disk.next + 1, some disk.next⟩, disk.next)

/-- What is written at the start of the file leaves what is behind it. -/
def Disk.print (disk : Disk α) (inode : Nat) (text : List α) : Disk α :=
  disk.put inode (text ++ (disk.files inode).drop text.length)

def Disk.append (disk : Disk α) (inode : Nat) (text : List α) : Disk α :=
  disk.put inode (disk.files inode ++ text)

def Disk.unlink (disk : Disk α) : Disk α := { disk with path := none }

@[simp] theorem Disk.put_self (disk : Disk α) (inode : Nat) (contents : List α) :
    (disk.put inode contents).files inode = contents := Function.update_self ..

theorem Disk.put_other (disk : Disk α) {inode other : Nat} (apart : other ≠ inode)
    (contents : List α) : (disk.put inode contents).files other = disk.files other :=
  Function.update_of_ne apart _ _

theorem Disk.put_contents {disk : Disk α} {inode : Nat} (named : disk.path = some inode)
    (contents : List α) : (disk.put inode contents).contents = some contents := by
  simp [Disk.contents, Disk.put, named]

theorem Disk.openWrite_contents (disk : Disk α) :
    disk.openWrite.1.path = some disk.openWrite.2 ∧
      disk.openWrite.1.files disk.openWrite.2 = [] := by
  unfold Disk.openWrite
  cases named : disk.path with
  | none => exact ⟨rfl, Function.update_self ..⟩
  | some inode => exact ⟨named, Function.update_self ..⟩

theorem Disk.openWrite_grows {disk : Disk α}
    (below : ∀ inode, disk.path = some inode → inode < disk.next) :
    disk.openWrite.2 < disk.openWrite.1.next ∧ disk.next ≤ disk.openWrite.1.next ∧
      ∀ inode ≠ disk.openWrite.2, disk.openWrite.1.files inode = disk.files inode ∧
        (inode < disk.openWrite.1.next → inode < disk.next) := by
  unfold Disk.openWrite
  cases named : disk.path with
  | none =>
      refine ⟨by simp, by simp, fun inode other => ⟨Function.update_of_ne other _ _, fun under => ?_⟩⟩
      dsimp only at under other
      omega
  | some place =>
      exact ⟨below place named, Nat.le_refl _, fun inode other => ⟨disk.put_other other _, id⟩⟩

structure Disk.Related (holds : List α → List β → Prop) (disk : Disk α) (other : Disk β) :
    Prop where
  files : ∀ inode, holds (disk.files inode) (other.files inode)
  next : disk.next = other.next
  path : disk.path = other.path

section Related

variable {holds : List α → List β → Prop} {disk : Disk α} {other : Disk β}

theorem related_update {files : Nat → List α} {others : Nat → List β}
    (all : ∀ inode, holds (files inode) (others inode)) (inode : Nat) {first : List α}
    {second : List β} (new : holds first second) (place : Nat) :
    holds (Function.update files inode first place) (Function.update others inode second place) := by
  by_cases own : place = inode
  · rw [own, Function.update_self, Function.update_self]
    exact new
  · rw [Function.update_of_ne own, Function.update_of_ne own]
    exact all place

theorem Disk.Related.put (related : Disk.Related holds disk other) (inode : Nat) {first : List α}
    {second : List β} (new : holds first second) :
    Disk.Related holds (disk.put inode first) (other.put inode second) where
  files := related_update related.files inode new
  next := related.next
  path := related.path

theorem Disk.Related.openAppend (related : Disk.Related holds disk other) (empty : holds [] []) :
    Disk.Related holds disk.openAppend.1 other.openAppend.1 ∧
      disk.openAppend.2 = other.openAppend.2 := by
  unfold Disk.openAppend
  rw [related.path]
  cases other.path with
  | some inode => exact ⟨related, rfl⟩
  | none =>
      dsimp only
      rw [related.next]
      exact ⟨⟨related_update related.files _ empty, rfl, rfl⟩, rfl⟩

theorem Disk.Related.openWrite (related : Disk.Related holds disk other) (empty : holds [] []) :
    Disk.Related holds disk.openWrite.1 other.openWrite.1 ∧
      disk.openWrite.2 = other.openWrite.2 := by
  unfold Disk.openWrite
  rw [related.path]
  cases other.path with
  | some inode => exact ⟨related.put inode empty, rfl⟩
  | none =>
      dsimp only
      rw [related.next]
      exact ⟨⟨related_update related.files _ empty, rfl, rfl⟩, rfl⟩

theorem Disk.Related.unlink (related : Disk.Related holds disk other) :
    Disk.Related holds disk.unlink other.unlink :=
  ⟨related.files, related.next, rfl⟩

theorem Disk.Related.contents (related : Disk.Related holds disk other) (empty : holds [] []) :
    holds (disk.contents.getD []) (other.contents.getD []) := by
  unfold Disk.contents
  rw [related.path]
  cases other.path with
  | none => exact empty
  | some inode => exact related.files inode

end Related

end Inodes

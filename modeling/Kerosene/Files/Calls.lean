import Kerosene.Ramfs.File
import Mathlib.Algebra.Group.Int.Defs

/-!
# Reading and seeking in file_op.c

`file_open`, `file_seek` and `file_read` for a regular file, over the functions of its file system. A
position is not negative, as a seek to a negative one goes to 0.
-/

namespace Kerosene.Files
open Ramfs

inductive ReadErr where
  | success
  | failed
  | eof
  | badCluster
  deriving DecidableEq

/-- What a read leaves: the bytes stored in the buffer, from its start on, of which there are
`*actual_read_size`, and the pointer of the file system. -/
structure Answer (γ : Type) where
  err : ReadErr
  stored : List UInt8
  current : γ

/-- A file on a file system whose descriptors keep a pointer in `γ`: where its chain starts, and
`fs->file_seek_absolute` and `fs->file_read`. -/
structure FileSystem (γ : Type) where
  chain : γ
  size : Nat
  fsFileSeekAbsolute : (position : Nat) → (current : γ) → (seekPosition : Int) → Option (ReadErr × Nat × γ)
  fsFileRead : (position : Nat) → (current : γ) → (size : Nat) → Option (Answer γ)

-- `file_description_t`
structure Description (γ : Type) where
  mode : FileMode
  position : Nat
  current : γ
  deriving DecidableEq

inductive Whence where
  | absolute
  | relative
  | bottom

namespace FileSystem
variable {γ : Type}

/-- `file_open` in a slot of the descriptor table, for modes without `FILE_OPEN_TRUNCATE` and
`FILE_OPEN_ONLYDIR`. -/
def fileOpen (fs : FileSystem γ) (slot : Description γ) (mode : FileMode) : Description γ :=
  ⟨mode, 0, if mode.has fileOpenWrite || mode.has fileOpenRead then fs.chain else slot.current⟩

def absolutePosition (fs : FileSystem γ) (file : Description γ) (offset : Int) : Whence → Int
  | .absolute => offset
  | .relative => if file.position + offset < 0 then 0 else file.position + offset
  | .bottom => fs.size

def fileSeek (fs : FileSystem γ) (file : Description γ) (offset : Int) (whence : Whence) : Option (ReadErr × Description γ) := do
  if file.mode.has fileOpenAppend then return (.failed, file)
  let (err, position, current) ← fs.fsFileSeekAbsolute file.position file.current (fs.absolutePosition file offset whence)
  return (err, { file with position := position, current := current })

-- the difference of an `int64_t` and a `uint32_t`, as a `size_t`
def clamp (size fileSize position : Nat) : Nat :=
  if position + size > fileSize then (((fileSize : Int) - position) % 2 ^ 32).toNat else size

def fileRead (fs : FileSystem γ) (file : Description γ) (size : Nat) : Option (ReadErr × List UInt8 × Description γ) := do
  if ¬ file.mode.has fileOpenRead then return (.failed, [], file)
  if file.position = fs.size then return (.eof, [], file)
  let r ← fs.fsFileRead file.position file.current (clamp size fs.size file.position)
  if r.err ≠ .success ∧ r.err ≠ .eof then return (r.err, r.stored, { file with current := r.current })
  return (r.err, r.stored, { file with position := file.position + r.stored.length, current := r.current })

end FileSystem
end Kerosene.Files

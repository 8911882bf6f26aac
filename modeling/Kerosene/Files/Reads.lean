import Kerosene.Files.Calls
import Kerosene.Lib.Machine
import Mathlib.Algebra.GroupWithZero.Nat

/-!
# What the calls on one descriptor deliver

The file is kept in blocks. A descriptor points to the block that holds the byte before its position, and to
the first block at position 0: a read that ends with a block leaves the pointer there.
-/

namespace Kerosene.Files
open Lib Ramfs

variable {γ : Type} {fs : FileSystem γ} {content : List UInt8} {blockSize n p q : Nat} {at_ : γ → Nat → Prop} {g : γ}
  {file : Description γ}

/-- The block of the byte before a position. -/
def blockOf (blockSize position : Nat) : Nat := (position - 1) / blockSize

/-- Reading from where the pointer should be. -/
structure Reads (fs : FileSystem γ) (content : List UInt8) (blockSize : Nat) (at_ : γ → Nat → Prop) : Prop where
  size : fs.size = content.length
  small : content.length < 2 ^ 32
  chain : content ≠ [] → at_ fs.chain 0
  read : ∀ p g n, at_ g (blockOf blockSize p) → 0 < n → p + n ≤ content.length →
    ∃ g', fs.fsFileRead p g n = some ⟨.success, (content.drop p).take n, g'⟩ ∧ at_ g' (blockOf blockSize (p + n))

/-- Where a descriptor stands in the file. -/
structure Stands (content : List UInt8) (blockSize : Nat) (at_ : γ → Nat → Prop) (file : Description γ) : Prop where
  inside : file.position ≤ content.length
  points : content ≠ [] → at_ file.current (blockOf blockSize file.position)

theorem clamp_eq (inside : p ≤ content.length) (small : content.length < 2 ^ 32) :
    FileSystem.clamp n content.length p = min n (content.length - p) := by
  rw [FileSystem.clamp]
  split_ifs <;> omega

namespace Reads
variable (reads : Reads fs content blockSize at_)
include reads

theorem fileOpen_stands {mode : FileMode} (slot : Description γ) (readable : mode.has fileOpenRead) :
    Stands content blockSize at_ (fs.fileOpen slot mode) := by
  refine ⟨Nat.zero_le _, fun nonempty => ?_⟩
  have first : blockOf blockSize 0 = 0 := Nat.zero_div _
  simp only [FileSystem.fileOpen, readable, Bool.or_true, if_true, first]
  exact reads.chain nonempty

theorem fileRead (stands : Stands content blockSize at_ file) (readable : file.mode.has fileOpenRead) (positive : 0 < n) :
    ∃ file', fs.fileRead file n =
        some (if file.position = content.length then .eof else .success, (content.drop file.position).take n, file') ∧
      Stands content blockSize at_ file' ∧ file'.mode = file.mode ∧
      file'.position = file.position + min n (content.length - file.position) := by
  have inside := stands.inside
  simp only [FileSystem.fileRead, readable, not_true, if_false, reads.size, clamp_eq inside reads.small]
  by_cases ended : file.position = content.length
  · refine ⟨file, ?_, stands, rfl, by omega⟩
    rw [if_pos ended, if_pos ended, ended, List.drop_length, List.take_nil]
    rfl
  · have nonempty : content ≠ [] := by
      rintro rfl
      exact ended (Nat.le_zero.mp inside)
    obtain ⟨g, done, points⟩ := reads.read file.position file.current (min n (content.length - file.position))
      (stands.points nonempty) (by omega) (by omega)
    have taken : (content.drop file.position).take (min n (content.length - file.position)) =
        (content.drop file.position).take n := by
      rw [← List.length_drop, ← List.take_eq_take_min]
    have count : ((content.drop file.position).take n).length = min n (content.length - file.position) := by
      rw [List.length_take, List.length_drop]
    rw [taken] at done
    refine ⟨{ file with position := file.position + min n (content.length - file.position), current := g }, ?_,
      ⟨by dsimp only; omega, fun _ => points⟩, rfl, rfl⟩
    rw [if_neg ended, if_neg ended, done]
    simp [count]

end Reads

/-! ## Reading to the end -/

/-- `file_read` with each of the sizes in turn. -/
def FileSystem.fileReads (fs : FileSystem γ) : Description γ → List Nat → Option (List (ReadErr × List UInt8) × Description γ)
  | file, [] => some ([], file)
  | file, size :: sizes => do
      let (err, stored, file) ← fs.fileRead file size
      let (results, file) ← fs.fileReads file sizes
      return ((err, stored) :: results, file)

/-- The content in pieces of the sizes asked for, then the end of the file again and again. -/
def pieces : (content : List UInt8) → (sizes : List Nat) → List (ReadErr × List UInt8)
  | _, [] => []
  | content, size :: sizes =>
      (if content = [] then .eof else .success, content.take size) :: pieces (content.drop size) sizes

theorem pieces_flatten (content : List UInt8) (sizes : List Nat) :
    ((pieces content sizes).map Prod.snd).flatten = content.take sizes.sum := by
  induction sizes generalizing content with
  | nil => simp [pieces]
  | cons size sizes ih => rw [pieces, List.map_cons, List.flatten_cons, ih, List.sum_cons, List.take_add]

theorem pieces_bounded (content : List UInt8) (sizes : List Nat) :
    List.Forall₂ (fun (r : ReadErr × List UInt8) size => r.2.length ≤ size) (pieces content sizes) sizes := by
  induction sizes generalizing content with
  | nil => exact .nil
  | cons size sizes ih => exact .cons (List.length_take_le ..) (ih _)

theorem Reads.fileReads (reads : Reads fs content blockSize at_) (stands : Stands content blockSize at_ file)
    (readable : file.mode.has fileOpenRead) {sizes : List Nat} (positive : ∀ n ∈ sizes, 0 < n) :
    ∃ file', fs.fileReads file sizes = some (pieces (content.drop file.position) sizes, file') := by
  induction sizes generalizing file with
  | nil => exact ⟨file, rfl⟩
  | cons size sizes ih =>
      obtain ⟨file₁, done, stands₁, mode, position⟩ := reads.fileRead stands readable (positive size List.mem_cons_self)
      obtain ⟨file', rest⟩ := ih stands₁ (by rw [mode]; exact readable) fun n member =>
        positive n (List.mem_cons_of_mem _ member)
      have inside := stands.inside
      have left : content.drop file₁.position = (content.drop file.position).drop size := by
        rw [List.drop_drop, position]
        rcases le_total size (content.length - file.position) with short | long
        · rw [Nat.min_eq_left short]
        · rw [List.drop_eq_nil_of_le (by omega), List.drop_eq_nil_of_le (by omega)]
      have ended : content.drop file.position = [] ↔ file.position = content.length := by
        rw [List.drop_eq_nil_iff]
        omega
      refine ⟨file', ?_⟩
      simp only [FileSystem.fileReads, done, rest, left, pieces, ended, Option.bind_eq_bind, Option.bind_some]
      rfl

theorem Reads.sequential (reads : Reads fs content blockSize at_) {mode : FileMode} (readable : mode.has fileOpenRead)
    (slot : Description γ) {sizes : List Nat} (positive : ∀ n ∈ sizes, 0 < n) :
    ∃ file', fs.fileReads (fs.fileOpen slot mode) sizes = some (pieces content sizes, file') :=
  reads.fileReads (reads.fileOpen_stands slot readable) readable positive

/-! ## Seeking and reading -/

/-- Seeking from a position to another one, where the pointer is moved to the right block. -/
structure Seeks (fs : FileSystem γ) (content : List UInt8) (blockSize : Nat) (at_ : γ → Nat → Prop)
    (fair : Nat → Nat → Prop) : Prop where
  seek : ∀ p g (s : Int), p ≤ content.length → (content ≠ [] → at_ g (blockOf blockSize p)) → s ≤ content.length →
    fair p s.toNat → ∃ g', fs.fsFileSeekAbsolute p g s = some (.success, s.toNat, g') ∧
      (content ≠ [] → at_ g' (blockOf blockSize s.toNat))

inductive Call where
  | read (size : Nat)
  | seek (offset : Int) (whence : Whence)

def step (fs : FileSystem γ) (file : Description γ) : Call → Option (Description γ)
  | .read size => (fs.fileRead file size).map fun r => r.2.2
  | .seek offset whence => (fs.fileSeek file offset whence).map Prod.snd

/-- Reads of positive length, and seeks to positions in the file that meet a condition. -/
def machine (fs : FileSystem γ) (fair : Nat → Nat → Prop) : Machine (Description γ) Call where
  Legal
    | _, .read size => 0 < size
    | file, .seek offset whence => fs.absolutePosition file offset whence ≤ fs.size ∧
        fair file.position (fs.absolutePosition file offset whence).toNat
  step := step fs

/-- After a seek to `q`, every read that stays in the file delivers the bytes from `q` on. -/
def SeekThenRead (fs : FileSystem γ) (content : List UInt8) (file : Description γ) (q : Nat) : Prop :=
  ∃ file₁, fs.fileSeek file q .absolute = some (.success, file₁) ∧ ∀ n, 0 < n → q + n ≤ content.length →
    ∃ file₂, fs.fileRead file₁ n = some (.success, (content.drop q).take n, file₂)

variable {fair : Nat → Nat → Prop}

theorem Reads.fileSeek (reads : Reads fs content blockSize at_) (seeks : Seeks fs content blockSize at_ fair)
    (stands : Stands content blockSize at_ file) (noAppend : file.mode.has fileOpenAppend = false) {o : Int}
    {w : Whence} (inside : fs.absolutePosition file o w ≤ fs.size)
    (allowed : fair file.position (fs.absolutePosition file o w).toNat) :
    ∃ file', fs.fileSeek file o w = some (.success, file') ∧ Stands content blockSize at_ file' ∧
      file'.mode = file.mode ∧ file'.position = (fs.absolutePosition file o w).toNat := by
  rw [reads.size] at inside
  obtain ⟨g, done, points⟩ := seeks.seek file.position file.current _ stands.inside stands.points inside allowed
  refine ⟨⟨file.mode, (fs.absolutePosition file o w).toNat, g⟩, ?_, ⟨by dsimp only; omega, points⟩, rfl, rfl⟩
  simp only [FileSystem.fileSeek, noAppend, done, Bool.false_eq_true, if_false, Option.bind_eq_bind, Option.bind_some]
  rfl

/-- What every call of a run keeps. -/
structure Open (content : List UInt8) (blockSize : Nat) (at_ : γ → Nat → Prop) (file : Description γ) : Prop extends
    Stands content blockSize at_ file where
  readable : file.mode.has fileOpenRead
  noAppend : file.mode.has fileOpenAppend = false

theorem Open.step {file' : Description γ} {call : Call} (reads : Reads fs content blockSize at_)
    (seeks : Seeks fs content blockSize at_ fair) (open_ : Open content blockSize at_ file)
    (legal : (machine fs fair).Legal file call) (done : step fs file call = some file') :
    Open content blockSize at_ file' := by
  cases call with
  | read size =>
      obtain ⟨file₁, read, stands, mode, -⟩ := reads.fileRead open_.toStands open_.readable legal
      rw [Files.step, read] at done
      cases done
      exact ⟨stands, by rw [mode]; exact open_.readable, by rw [mode]; exact open_.noAppend⟩
  | seek offset whence =>
      obtain ⟨file₁, sought, stands, mode, -⟩ := reads.fileSeek seeks open_.toStands open_.noAppend legal.1 legal.2
      rw [Files.step, sought] at done
      cases done
      exact ⟨stands, by rw [mode]; exact open_.readable, by rw [mode]; exact open_.noAppend⟩

theorem Reads.seekThenRead (reads : Reads fs content blockSize at_) (seeks : Seeks fs content blockSize at_ fair)
    {mode : FileMode} (readable : mode.has fileOpenRead) (noAppend : mode.has fileOpenAppend = false) (slot : Description γ)
    (run : (machine fs fair).Reaches (fs.fileOpen slot mode) file) (inside : q ≤ content.length)
    (allowed : fair file.position q) : SeekThenRead fs content file q := by
  have open_ : Open content blockSize at_ file := run.invariant (fun _ _ _ kept legal done => kept.step reads seeks legal done)
    ⟨reads.fileOpen_stands slot readable, readable, noAppend⟩
  obtain ⟨file₁, sought, stands, sameMode, position⟩ := reads.fileSeek seeks open_.toStands open_.noAppend (o := q)
    (w := .absolute) (by rw [reads.size]; exact Int.ofNat_le.mpr inside) allowed
  have here : file₁.position = q := position
  refine ⟨file₁, sought, fun n positive fits => ?_⟩
  obtain ⟨file₂, read, -⟩ := reads.fileRead stands (by rw [sameMode]; exact open_.readable) positive
  rw [here, if_neg (by omega)] at read
  exact ⟨file₂, read⟩

end Kerosene.Files

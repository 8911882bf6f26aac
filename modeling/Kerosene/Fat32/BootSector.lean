import Kerosene.Fat32.FileWrite
import Kerosene.Lib.Packed
import Mathlib.Tactic.IntervalCases

/-!
# What is checked when a volume is mounted

`vfs_detectfs` and the part of `fat32_init` that may turn a volume down, over the bytes of the sectors.
A division by zero is a fault, `none` here.
-/

namespace Kerosene.Fat32
open Lib

-- the fields of `fat32_bootrecord_t` that are read
structure Bootrec where
  bytesPerSector : UInt16
  sectorsPerCluster : UInt8
  reservedSectors : UInt16
  fats : UInt8
  totalSectors : UInt16
  sectorsPerFat16 : UInt16
  largeSectorCount : UInt32
  sectorsPerFat : UInt32
  rootdirCluster : UInt32
  fsinfoSector : UInt16
  signature : UInt8
  systemIdentifier : List UInt8

namespace Bootrec

def layout : List Nat := [3, 8, 2, 1, 2, 1, 2, 2, 1, 2, 2, 2, 4, 4, 4, 2, 2, 4, 2, 2, 12, 1, 1, 1, 4, 11]

def ofBytes (sect : List UInt8) : Bootrec :=
  let field := fun k => (unpack layout sect).getD k 0
  { bytesPerSector := .ofNat (field 2)
    sectorsPerCluster := .ofNat (field 3)
    reservedSectors := .ofNat (field 4)
    fats := .ofNat (field 5)
    totalSectors := .ofNat (field 7)
    sectorsPerFat16 := .ofNat (field 9)
    largeSectorCount := .ofNat (field 13)
    sectorsPerFat := .ofNat (field 14)
    rootdirCluster := .ofNat (field 17)
    fsinfoSector := .ofNat (field 18)
    signature := .ofNat (field 23)
    systemIdentifier := (sect.drop layout.sum).take 8 }

def clusterSize (b : Bootrec) : UInt32 := b.sectorsPerCluster.toUInt32 * b.bytesPerSector.toUInt32

def getTotalSectors (b : Bootrec) : UInt32 :=
  if b.totalSectors = 0 then b.largeSectorCount else b.totalSectors.toUInt32

def getFatSize (b : Bootrec) : UInt32 := if b.sectorsPerFat16 = 0 then b.sectorsPerFat else b.sectorsPerFat16.toUInt32

def getFirstDataSector (b : Bootrec) : UInt32 := b.reservedSectors.toUInt32 + b.fats.toUInt32 * b.getFatSize

def getFirstFatSector (b : Bootrec) : UInt32 := b.reservedSectors.toUInt32

def getTotalDataSectors (b : Bootrec) : UInt32 := b.getTotalSectors - b.getFirstDataSector

def getTotalClusters (b : Bootrec) : Option UInt32 :=
  if b.sectorsPerCluster = 0 then none else some (b.getTotalDataSectors / b.sectorsPerCluster.toUInt32)

-- `FAT_offset`, an `int`
def fatOffset (cluster : Nat) : Int := toInt (cluster * 4)

def fatSector (b : Bootrec) (cluster : Nat) : Option UInt32 :=
  if b.bytesPerSector = 0 then none
  else some (b.getFirstFatSector + UInt32.ofInt ((fatOffset cluster).tdiv b.bytesPerSector.toNat))

def entryOffset (b : Bootrec) (cluster : Nat) : Option Int :=
  if b.bytesPerSector = 0 then none else some ((fatOffset cluster).tmod b.bytesPerSector.toNat)

/-- The cluster size and the divisors are not zero, the data area starts inside the volume, and the FAT entries of the
first `m` cluster numbers lie in the buffer for one sector. -/
structure Sound (b : Bootrec) (m : Nat) : Prop where
  size : b.clusterSize ≠ 0
  perSector : b.bytesPerSector ≠ 0
  perCluster : b.sectorsPerCluster ≠ 0
  data : b.getFirstDataSector ≤ b.getTotalSectors
  entries : ∀ c < m, ∃ offset, b.entryOffset c = some offset ∧ 0 ≤ offset ∧ offset + 4 ≤ 512

end Bootrec

-- the fields of `fat32_fsinfo_t` that are read
structure Fsinfo where
  leadSignature : UInt32
  midSignature : UInt32
  freeClusterCount : UInt32
  availableClustersStart : UInt32
  trailSignature : UInt32
deriving DecidableEq

namespace Fsinfo

def layout : List Nat := [4, 480, 4, 4, 4, 12, 4]

def ofBytes (sect : List UInt8) : Fsinfo :=
  let field := fun k => (unpack layout sect).getD k 0
  ⟨.ofNat (field 0), .ofNat (field 2), .ofNat (field 3), .ofNat (field 4), .ofNat (field 6)⟩

end Fsinfo

inductive FsType
  | empty
  | fat32
deriving DecidableEq

def fat32Check (sect : List UInt8) : Bool :=
  let b := Bootrec.ofBytes sect
  (b.signature = 0x28 || b.signature = 0x29) && b.systemIdentifier.all fun c =>
    c = 0x20 || (0x41 ≤ c && c ≤ 0x5a) || (0x61 ≤ c && c ≤ 0x7a) || (0x30 ≤ c && c ≤ 0x39)

def vfsDetectfs (sectors : UInt32 → List UInt8) (lbaStart : UInt32) : FsType :=
  if fat32Check (sectors lbaStart) then .fat32 else .empty

-- The buffer `FAT` of `get_FAT_entry` holds a sector; what lies around it is on the stack.
def getRawFatEntry (sectors : UInt32 → List UInt8) (b : Bootrec) (lbaStart : UInt32) (stack : Int → UInt8)
    (cluster : Nat) : Option Nat := do
  let sector ← b.fatSector cluster
  let offset ← b.entryOffset cluster
  let byte := fun i : Int => if 0 ≤ i ∧ i < 512 then (sectors (lbaStart + sector)).getD i.toNat 0 else stack i
  return decode [byte offset, byte (offset + 1), byte (offset + 2), byte (offset + 3)] &&& 0x0fffffff

-- `get_total_clusters(bootrec) + 2` is evaluated before each of the `n` rounds.
def countLoop (sectors : UInt32 → List UInt8) (b : Bootrec) (lbaStart : UInt32) (stack : Int → UInt8) :
    (n i : Nat) → (freeCount : UInt32) → Option UInt32
  | 0, _, freeCount => some freeCount
  | n + 1, i, freeCount => do
      let val ← getRawFatEntry sectors b lbaStart stack i
      countLoop sectors b lbaStart stack n (i + 1) (if val = fatFreeCluster then freeCount + 1 else freeCount)

def countFreeCluster (sectors : UInt32 → List UInt8) (b : Bootrec) (lbaStart : UInt32) (stack : Int → UInt8) :
    Option UInt32 := do
  let total ← b.getTotalClusters
  countLoop sectors b lbaStart stack ((total + 2).toNat - 2) 2 0

inductive InitErr
  | success
  | oom
  | invalidFsinfo
  | notMounted
deriving DecidableEq

-- `allocated` and `mounted` are whether `kmalloc` and the making of the mount point succeed.
def fat32Init (sectors : UInt32 → List UInt8) (lbaStart : UInt32) (stack : Int → UInt8) (allocated mounted : Bool) :
    Option (InitErr × Fsinfo) := do
  let b := Bootrec.ofBytes (sectors lbaStart)
  let fsinfo := Fsinfo.ofBytes (sectors (lbaStart + b.fsinfoSector.toUInt32))
  if !allocated then return (.oom, fsinfo)
  if fsinfo.leadSignature ≠ 0x41615252 ∨ fsinfo.midSignature ≠ 0x61417272 ∨ fsinfo.trailSignature ≠ 0xaa550000 then
    return (.invalidFsinfo, fsinfo)
  let start := if fsinfo.availableClustersStart = 0xffffffff then 2 else fsinfo.availableClustersStart
  let count ←
    if fsinfo.freeClusterCount = 0xffffffff then countFreeCluster sectors b lbaStart stack else some fsinfo.freeClusterCount
  let fsinfo := { fsinfo with availableClustersStart := start, freeClusterCount := count }
  return (if mounted then .success else .notMounted, fsinfo)

/-! ## The offset of a FAT entry -/

namespace Bootrec
variable {b : Bootrec} {n m : Nat}

-- With `n` bytes in a sector, the entry of the cluster `c` has room in the buffer.
def EntryFits (n c : Nat) : Prop := 0 ≤ (fatOffset c).tmod n ∧ (fatOffset c).tmod n + 4 ≤ 512

theorem fatOffset_small {c : Nat} (small : c < 2 ^ 29) : fatOffset c = (4 * c : Nat) := by
  rw [fatOffset, toInt, if_pos (by omega)]
  omega

theorem entryFits_small {c : Nat} (small : c < 2 ^ 29) : EntryFits n c ↔ 4 * c % n + 4 ≤ 512 := by
  have rest : ((4 * c : Nat) : Int).tmod n = (4 * c % n : Nat) := rfl
  rw [EntryFits, fatOffset_small small, rest]
  omega

theorem entryFits_upTo_iff (pos : 0 < n) (positive : m ≤ 2 ^ 29) :
    (∀ c < m, EntryFits n c) ↔ m ≤ 128 ∨ n ≤ 510 ∨ n = 512 ∨ n = 511 ∧ m ≤ 255 := by
  constructor
  · intro fits
    by_contra outside
    rcases (show n = 511 ∧ 255 < m ∨ 513 ≤ n by omega) with ⟨rfl, many⟩ | large
    · have last := (entryFits_small (by decide)).mp (fits 255 many)
      exact absurd last (by decide)
    · have first := (entryFits_small (by decide)).mp (fits 128 (by omega))
      rw [Nat.mod_eq_of_lt (show 4 * 128 < n by omega)] at first
      exact absurd first (by decide)
  · intro good c inside
    rw [entryFits_small (by omega)]
    have below := Nat.mod_lt (4 * c) pos
    have atMost := Nat.mod_le (4 * c) n
    rcases good with few | less | rfl | ⟨rfl, few⟩
    · omega
    · rcases (show n ≤ 509 ∨ n = 510 by omega) with short | rfl <;> omega
    · omega
    · rcases (show 4 * c / 511 = 0 ∨ 4 * c / 511 = 1 by omega) with first | second <;> omega

theorem dvd_of_neg_tmod (nonneg : 0 ≤ (-(m : Int)).tmod n) : n ∣ m := by
  rw [Int.neg_tmod] at nonneg
  have rest : ((m % n : Nat) : Int) = (m : Int).tmod n := rfl
  exact Nat.dvd_of_mod_eq_zero (by omega)

theorem fatOffset_lowest : fatOffset (2 ^ 29) = -((2 ^ 31 : Nat) : Int) := by decide

theorem entryFits_of_dvd {c : Nat} (divides : (n : Int) ∣ fatOffset c) : EntryFits n c := by
  rw [EntryFits, Int.tmod_eq_zero_of_dvd divides]
  decide

theorem entryFits_lowest : EntryFits n (2 ^ 29) ↔ n ∣ 2 ^ 31 := by
  constructor
  · intro fits
    exact dvd_of_neg_tmod (fatOffset_lowest ▸ fits.1)
  · intro divides
    apply entryFits_of_dvd
    rw [fatOffset_lowest]
    exact (Int.dvd_neg).mpr (Int.natCast_dvd_natCast.mpr divides)

/-- When all entries up to that of the cluster `2 ^ 29 + 1` fit, where `FAT_offset` is negative, every entry fits. -/
theorem divides_four (fits : ∀ c < 2 ^ 29 + 2, EntryFits n c) : n = 1 ∨ n = 2 ∨ n = 4 := by
  have next : fatOffset (2 ^ 29 + 1) = -((2 ^ 31 - 4 : Nat) : Int) := by decide
  have first : n ∣ 2 ^ 31 := entryFits_lowest.mp (fits (2 ^ 29) (by decide))
  have second : n ∣ 2 ^ 31 - 4 := dvd_of_neg_tmod (next ▸ (fits (2 ^ 29 + 1) (by decide)).1)
  have both : n ∣ 4 := (Nat.dvd_add_right second).mp first
  have small := Nat.le_of_dvd (by decide) both
  interval_cases n
  all_goals first
    | decide
    | exact absurd both (by decide)

theorem entryFits_of_divides_four {c : Nat} (divides : n = 1 ∨ n = 2 ∨ n = 4) : EntryFits n c := by
  have four : (4 : Int) ∣ fatOffset c := by
    rw [fatOffset, toInt]
    split_ifs <;> omega
  apply entryFits_of_dvd
  rcases divides with rfl | rfl | rfl
  · exact one_dvd _
  · exact dvd_trans (by decide) four
  · exact four

/-- With `n` bytes in a sector, the entries of the first `m` cluster numbers have room in the buffer. -/
def EntriesFit (n m : Nat) : Prop :=
  n = 1 ∨ n = 2 ∨ n = 4 ∨ m ≤ 128 ∨
    (m ≤ 2 ^ 29 ∨ m = 2 ^ 29 + 1 ∧ n ∣ 2 ^ 31) ∧ (n ≤ 510 ∨ n = 512 ∨ n = 511 ∧ m ≤ 255)

theorem entriesFit_iff (pos : 0 < n) : (∀ c < m, EntryFits n c) ↔ EntriesFit n m := by
  constructor
  · intro fits
    rcases (show m ≤ 2 ^ 29 ∨ m = 2 ^ 29 + 1 ∨ 2 ^ 29 + 2 ≤ m by omega) with positive | rfl | negative
    · rcases (entryFits_upTo_iff pos positive).mp fits with few | good
      · exact .inr (.inr (.inr (.inl few)))
      · exact .inr (.inr (.inr (.inr ⟨.inl positive, good⟩)))
    · have lowest := entryFits_lowest.mp (fits (2 ^ 29) (by decide))
      have others := (entryFits_upTo_iff pos le_rfl).mp fun c inside => fits c (by omega)
      exact .inr (.inr (.inr (.inr ⟨.inr ⟨rfl, lowest⟩, by omega⟩)))
    · rcases divides_four fun c inside => fits c (by omega) with one | two | four
      · exact .inl one
      · exact .inr (.inl two)
      · exact .inr (.inr (.inl four))
  · intro good c inside
    rcases good with one | two | four | few | ⟨positive | ⟨rfl, divides⟩, good⟩
    · exact entryFits_of_divides_four (.inl one)
    · exact entryFits_of_divides_four (.inr (.inl two))
    · exact entryFits_of_divides_four (.inr (.inr four))
    · exact (entryFits_upTo_iff pos (by omega)).mpr (.inl few) c inside
    · exact (entryFits_upTo_iff pos positive).mpr (.inr good) c inside
    · rcases Nat.lt_succ_iff_lt_or_eq.mp inside with below | rfl
      · exact (entryFits_upTo_iff pos le_rfl).mpr (by omega) c below
      · exact entryFits_lowest.mpr divides

/-! ## What validation would have to check -/

theorem clusterSize_toNat : b.clusterSize.toNat = b.sectorsPerCluster.toNat * b.bytesPerSector.toNat := by
  have few := b.sectorsPerCluster.toNat_lt
  have short := b.bytesPerSector.toNat_lt
  have product : b.sectorsPerCluster.toNat * b.bytesPerSector.toNat ≤ 255 * 65535 := Nat.mul_le_mul (by omega) (by omega)
  rw [clusterSize, UInt32.toNat_mul, UInt8.toNat_toUInt32, UInt16.toNat_toUInt32]
  exact Nat.mod_eq_of_lt (by omega)

theorem clusterSize_ne_zero (perSector : b.bytesPerSector ≠ 0) (perCluster : b.sectorsPerCluster ≠ 0) :
    b.clusterSize ≠ 0 := by
  intro none
  have product := clusterSize_toNat (b := b)
  rw [none] at product
  rcases Nat.mul_eq_zero.mp product.symm with zero | zero
  · exact perCluster (UInt8.toNat_inj.mp zero)
  · exact perSector (UInt16.toNat_inj.mp zero)

theorem getFirstDataSector_toNat :
    b.getFirstDataSector.toNat = (b.reservedSectors.toNat + b.fats.toNat * b.getFatSize.toNat) % 2 ^ 32 := by
  rw [getFirstDataSector, UInt32.toNat_add, UInt32.toNat_mul, UInt16.toNat_toUInt32, UInt8.toNat_toUInt32]
  exact Nat.add_mod_mod _ _ _

theorem entryOffset_fits (perSector : b.bytesPerSector ≠ 0) (c : Nat) :
    (∃ offset, b.entryOffset c = some offset ∧ 0 ≤ offset ∧ offset + 4 ≤ 512) ↔
      EntryFits b.bytesPerSector.toNat c := by
  rw [entryOffset, if_neg perSector]
  constructor
  · rintro ⟨offset, computed, fits⟩
    cases computed
    exact fits
  · intro fits
    exact ⟨_, rfl, fits⟩

/-- The divisors are not zero, what comes before the data area (a 32-bit sum) is no longer than the volume, and a sector has
a size with which the FAT entries fit. -/
structure Usable (b : Bootrec) (m : Nat) : Prop where
  perSector : b.bytesPerSector ≠ 0
  perCluster : b.sectorsPerCluster ≠ 0
  area : (b.reservedSectors.toNat + b.fats.toNat * b.getFatSize.toNat) % 2 ^ 32 ≤ b.getTotalSectors.toNat
  fits : EntriesFit b.bytesPerSector.toNat m

theorem sound_iff_usable : b.Sound m ↔ b.Usable m := by
  constructor
  · intro sound
    have pos : 0 < b.bytesPerSector.toNat := Nat.pos_of_ne_zero fun zero => sound.perSector (UInt16.toNat_inj.mp zero)
    have inside := UInt32.le_iff_toNat_le.mp sound.data
    rw [getFirstDataSector_toNat] at inside
    have fits := (entriesFit_iff pos).mp fun c below => (entryOffset_fits sound.perSector c).mp (sound.entries c below)
    exact ⟨sound.perSector, sound.perCluster, inside, fits⟩
  · intro usable
    have pos : 0 < b.bytesPerSector.toNat := Nat.pos_of_ne_zero fun zero => usable.perSector (UInt16.toNat_inj.mp zero)
    have inside : b.getFirstDataSector ≤ b.getTotalSectors := by
      rw [UInt32.le_iff_toNat_le, getFirstDataSector_toNat]
      exact usable.area
    have fits := (entriesFit_iff pos).mpr usable.fits
    exact
      { size := clusterSize_ne_zero usable.perSector usable.perCluster
        perSector := usable.perSector
        perCluster := usable.perCluster
        data := inside
        entries := fun c below => (entryOffset_fits usable.perSector c).mpr (fits c below) }

end Bootrec

/-! ## Validation at mount time -/

-- `vfs_detectfs` says `FS_FAT32` and `fat32_init` accepts the volume.
def Mounts (sectors : UInt32 → List UInt8) (lbaStart : UInt32) (stack : Int → UInt8) : Prop :=
  vfsDetectfs sectors lbaStart = .fat32 ∧ ∃ info, fat32Init sectors lbaStart stack true true = some (.success, info)

def ValidationSuffices (sectors : UInt32 → List UInt8) (lbaStart : UInt32) (stack : Int → UInt8) (m : Nat) : Prop :=
  Mounts sectors lbaStart stack → (Bootrec.ofBytes (sectors lbaStart)).Sound m

/-- What is checked when a volume is mounted says nothing about its geometry. -/
theorem validation_suffices_iff {sectors : UInt32 → List UInt8} {lbaStart : UInt32} {stack : Int → UInt8} {m : Nat} :
    ValidationSuffices sectors lbaStart stack m ↔
      (Mounts sectors lbaStart stack → (Bootrec.ofBytes (sectors lbaStart)).Usable m) := by
  simp only [ValidationSuffices, Bootrec.sound_iff_usable]

-- A volume with 1024 bytes in a sector.
def longSectors : UInt32 → List UInt8
  | 0 => List.replicate 11 0 ++ [0x00, 0x04, 0x01, 0x20, 0x00, 0x02] ++ List.replicate 15 0 ++ [0x00, 0x00, 0x01, 0x00] ++
      [0x00, 0x01, 0x00, 0x00] ++ List.replicate 4 0 ++ [0x02, 0x00, 0x00, 0x00, 0x01, 0x00] ++ List.replicate 16 0 ++
      [0x29] ++ List.replicate 15 0 ++ [0x46, 0x41, 0x54, 0x33, 0x32, 0x20, 0x20, 0x20] ++ List.replicate 422 0
  | _ => [0x52, 0x52, 0x61, 0x41] ++ List.replicate 480 0 ++ [0x72, 0x72, 0x41, 0x61] ++ List.replicate 20 0 ++
      [0x00, 0x00, 0x55, 0xaa]

theorem longSectors_computed : vfsDetectfs longSectors 0 = .fat32 ∧
    fat32Init longSectors 0 (fun _ => 0) true true = some (.success, Fsinfo.ofBytes (longSectors 1)) ∧
    (Bootrec.ofBytes (longSectors 0)).getTotalClusters = some 64992 ∧
    (Bootrec.ofBytes (longSectors 0)).entryOffset 128 = some 512 := by decide +kernel

theorem long_sectors_mount : ¬ ∀ m ≤ 64994, ValidationSuffices longSectors 0 (fun _ => 0) m := by
  intro validated
  obtain ⟨detected, accepted, _, computed⟩ := longSectors_computed
  obtain ⟨offset, found, _, room⟩ := (validated 64994 le_rfl ⟨detected, _, accepted⟩).entries 128 (by decide)
  rw [computed] at found
  cases found
  exact absurd room (by decide)

end Kerosene.Fat32

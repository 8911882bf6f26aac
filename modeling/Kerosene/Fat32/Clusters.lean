import Kerosene.Lib.Chain
import Mathlib.Logic.Function.Basic
import Mathlib.Data.BitVec

/-!
# The cluster operations of fat32.c

The FAT is a map from clusters to raw 32-bit entries, of which 28 bits count. The sector that holds
an entry, the FSInfo sector that `update_fsinfo` writes, and the data that `clear` touches are left
out: no entry depends on them.
-/

namespace Kerosene.Fat32

def fatEoc : Nat := 0x0ffffff8
def fatBadCluster : Nat := 0x0ffffff7
def fatFreeCluster : Nat := 0

inductive FsErr where
  | success
  | badCluster
  deriving DecidableEq

structure Fat where
  entry : Nat → BitVec 32
  totalClusters : Nat
  availableClustersStart : Nat
  freeClusterCount : BitVec 32

namespace Fat

def setFatEntry (f : Fat) (cluster val : Nat) : Fat :=
  { f with entry := Function.update f.entry cluster (BitVec.ofNat 32 val) }

def getFatEntry (f : Fat) (cluster : Nat) : Nat := (f.entry cluster &&& 0x0fffffff#32).toNat

def withFsinfo (f : Fat) (availableClustersStart : Nat) (freeClusterCount : BitVec 32) : Fat :=
  { f with availableClustersStart := availableClustersStart, freeClusterCount := freeClusterCount }

/-- The search loop of `fat32_allocate_clusters`; `none` when it leaves the table. -/
def allocateLoop : (fuel : Nat) → Fat → (clusterCount current start prev : Nat) → BitVec 32 →
    Option (Fat × Nat × Nat × BitVec 32)
  | 0, f, clusterCount, current, start, _, free =>
      if clusterCount = 0 then some (f, start, current, free) else none
  | fuel + 1, f, clusterCount, current, start, prev, free =>
      if clusterCount = 0 then some (f, start, current, free)
      else if f.getFatEntry current = fatFreeCluster then
        if start = 0 then
          allocateLoop fuel f (clusterCount - 1) (current + 1) current current (free - 1#32)
        else
          allocateLoop fuel (f.setFatEntry prev current) (clusterCount - 1) (current + 1) start current
            (free - 1#32)
      else allocateLoop fuel f clusterCount (current + 1) start prev free

def fat32AllocateClusters (f : Fat) (clusterCount : Nat) : Option (Nat × Fat) := do
  let (g, start, past, free) ← allocateLoop (f.totalClusters + 2 - f.availableClustersStart) f clusterCount
    f.availableClustersStart 0 0 f.freeClusterCount
  let current := past - 1
  if start = 0 then return (0, g)
  return (start, (g.setFatEntry current fatEoc).withFsinfo current free)

def expandClusterChain (f : Fat) (endCluster clusterCount : Nat) : Option (Nat × Fat) := do
  let (newChain, g) ← f.fat32AllocateClusters clusterCount
  if newChain = 0 then return (0, g)
  return (newChain, g.setFatEntry endCluster newChain)

/-- The loop of `free_cluster_chain`; `none` when the chain is longer than the table. -/
def freeLoop : (fuel : Nat) → Fat → (current : Nat) → BitVec 32 → Option (Fat × Nat × BitVec 32)
  | 0, _, _, _ => none
  | fuel + 1, f, current, free =>
      if current < fatEoc ∧ current ≠ fatBadCluster then
        freeLoop fuel (f.setFatEntry current fatFreeCluster) (f.getFatEntry current) (free + 1#32)
      else some (f, current, free)

def freeClusterChain (f : Fat) (startCluster : Nat) : Option (FsErr × Fat) := do
  let (g, last, free) ← freeLoop (f.totalClusters + 3) f startCluster f.freeClusterCount
  if last = fatBadCluster then return (.badCluster, g)
  -- the hint moves down only
  let hint := if startCluster < f.availableClustersStart then startCluster else f.availableClustersStart
  return (.success, g.withFsinfo hint free)

def cutClusterChain (f : Fat) (startCluster : Nat) : Option (FsErr × Fat) := do
  let val := f.getFatEntry startCluster
  if val ≥ fatEoc then return (.success, f)
  if val = fatBadCluster then return (.badCluster, f)
  let (err, g) ← f.freeClusterChain val
  if err ≠ .success then return (err, g)
  return (.success, g.setFatEntry startCluster fatEoc)

end Fat
end Kerosene.Fat32

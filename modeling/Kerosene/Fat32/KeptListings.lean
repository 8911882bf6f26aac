import Kerosene.Fat32.Clearing
import Kerosene.Fat32.FoundNames

/-!
# Listings that a new entry leaves alone
-/

namespace Kerosene.Fat32
open Lib Libc
open Ramfs (Name filenameLimit)
open Ramfs.Heap (dot dotdot)

namespace Disk
variable {d d₁ d' : Disk} {chain l : List Nat} {name : Name} {fuel : Nat}

theorem Stays.listing (stays : d.Stays d' chain) (sized : d.Sized) (on : d.DirChain chain)
    (entries : ∀ c ∈ chain, d'.fat.entry c = d.fat.entry c) (nonempty : chain ≠ []) (enough : chain.length ≤ fuel)
    (rootdirCluster : UInt32)
    (stale : Nat → Stale) :
    d'.listDirectory rootdirCluster fuel stale (chain.getD 0 0) = d.listDirectory rootdirCluster fuel stale (chain.getD 0 0) := by
  have perCluster := stays.perCluster
  have clusters : ∀ q, d'.clusterOf chain q = d.clusterOf chain q := fun q => by rw [clusterOf, clusterOf, perCluster]
  have indices : ∀ q, d'.indexOf q = d.indexOf q := fun q => by rw [indexOf, indexOf, perCluster]
  have answers : ∀ ret q r, d'.answer chain rootdirCluster ret q r = d.answer chain rootdirCluster ret q r := by
    intro ret q r
    cases r with
    | entry i s dir => simp only [answer, clusters, indices]
    | ended => rfl
    | free => rfl
  have iterators : ∀ q, d'.iterAt chain q = d.iterAt chain q := by
    intro q
    cases q with
    | zero => rfl
    | succ q => rw [iterAt, iterAt, clusters, indices]
  have all : ∀ rounds q, q ≤ (d.dirSlots chain).length →
      d'.iterateAll rootdirCluster fuel stale rounds (d.iterAt chain q) =
      d.iterateAll rootdirCluster fuel stale rounds (d.iterAt chain q) := by
    intro rounds
    induction rounds with
    | zero => exact fun _ _ => rfl
    | succ rounds ih =>
        intro q inside
        have call := iterateDirectory_eq sized on nonempty inside enough rootdirCluster (stale rounds).ret (stale rounds).entryName
        have call' := iterateDirectory_eq (d := d') (p := q) (sized.congr stays.sectors) (on.kept entries) nonempty
          (by rw [stays.slots]; exact inside) enough rootdirCluster (stale rounds).ret (stale rounds).entryName
        rw [iterators, answers, stays.slots] at call'
        rw [iterateAll, iterateAll, call, call']
        cases found : scanSlots ((d.dirSlots chain).drop q) (.start (stale rounds).entryName) with
        | ended s => rfl
        | free => rfl
        | entry i s dir =>
            have before := scanSlots_entry found
            rw [List.length_drop] at before
            have later := ih (q + i + 1) (by omega)
            rw [iterAt] at later
            simp only [answer]
            rw [later]
  exact all fuel 0 (Nat.zero_le _)

theorem Enters.stays (enters : d.Enters d' chain name) (apart : ∀ x ∈ l, x ∉ chain ∧ x ∉ d.fat.available)
    (small : ∀ x ∈ l, x < fatEoc) : d.Stays d' l ∧ ∀ x ∈ l, d'.fat.entry x = d.fat.entry x := by
  refine ⟨⟨enters.sectors, fun x member => enters.data x (fun grown => ?_) (small x member)⟩, fun x member => ?_⟩
  · rcases mem_grownChain_take grown with old | taken
    · exact (apart x member).1 old
    · exact (apart x member).2 (List.mem_of_mem_take taken)
  · exact enters.fat.same x (apart x member).1 fun taken => (apart x member).2 (List.mem_of_mem_take taken)

theorem Stays.trans {d₂ : Disk} (first : d.Stays d₁ l) (second : d₁.Stays d₂ l) : d.Stays d₂ l :=
  ⟨second.sectors.trans first.sectors, fun c member => (second.data c member).trans (first.data c member)⟩

end Disk
end Kerosene.Fat32

import Kerosene.Fat32.DirectoryAdd
import Mathlib.Order.Bounds.Basic

/-!
# The estimate of `fat32_add_entry`

How many clusters are asked for, against how many the new entries and the end mark take.
-/

namespace Kerosene.Fat32
variable {clusterSize entries count s : Nat}

/-- `k` new clusters of `entries` slots hold `count` long-name entries and the directory entry from slot `s` on, with a slot
to spare. -/
def EnoughClusters (entries count s k : Nat) : Prop := count + 1 < entries - s + k * entries

theorem enoughClusters_least (some : 0 < entries) (count s : Nat) :
    IsLeast {k | EnoughClusters entries count s k}
      (if count + 1 < entries - s then 0 else (count + 1 - (entries - s)) / entries + 1) := by
  split_ifs with fits
  · exact ⟨by rwa [Set.mem_ofPred_eq, EnoughClusters, Nat.zero_mul], fun _ _ => Nat.zero_le _⟩
  · constructor
    · have := Nat.lt_mul_div_succ (count + 1 - (entries - s)) some
      rw [Set.mem_ofPred_eq, EnoughClusters, Nat.mul_comm _ entries]
      omega
    · intro k enough
      rw [Set.mem_ofPred_eq, EnoughClusters] at enough
      exact Nat.div_lt_of_lt_mul (by rw [Nat.mul_comm]; omega)

theorem estimatedNewClusterCount_eq (perCluster : clusterSize / 32 = entries) (least : 16 ≤ entries)
    (word : clusterSize < 2 ^ 32) (inside : s < entries) (few : count ≤ 20) :
    (estimatedNewClusterCount clusterSize count (32 * s)).toNat =
      (if entries - s ≤ count + 17 then count + 17 - (entries - s)
        else 2 ^ 32 - (entries - s - (count + 17))) / entries := by
  have free : (clusterSize - 32 * s) / 32 = entries - s := by omega
  have wrapped : toUnsigned (count - (entries - s : Nat) + 17) =
      if entries - s ≤ count + 17 then count + 17 - (entries - s) else 2 ^ 32 - (entries - s - (count + 17)) := by
    rw [toUnsigned]
    split_ifs <;> omega
  rw [estimatedNewClusterCount, free, perCluster, wrapped]
  generalize value : (if entries - s ≤ count + 17 then count + 17 - (entries - s)
    else 2 ^ 32 - (entries - s - (count + 17))) = v
  have bound : v / entries < 2 ^ 31 := by
    apply Nat.div_lt_of_lt_mul
    split_ifs at value <;> omega
  generalize v / entries = q at bound ⊢
  rw [toInt, if_pos (by omega)]
  omega

/-- The clusters asked for are the least number that is enough, just where the estimate neither wraps around nor
rounds down. -/
theorem new_clusters_least (perCluster : clusterSize / 32 = entries) (least : 16 ≤ entries) (word : clusterSize < 2 ^ 32)
    (inside : s < entries) (few : count ≤ 20) :
    IsLeast {k | EnoughClusters entries count s k} (estimatedNewClusterCount clusterSize count (32 * s)).toNat ↔
      if count + 1 < entries - s then entries - s ≤ count + 17
      else entries - 16 ≤ (count + 1 - (entries - s)) % entries := by
  have isLeast := enoughClusters_least (show 0 < entries by omega) count s
  have unique : IsLeast {k | EnoughClusters entries count s k} (estimatedNewClusterCount clusterSize count (32 * s)).toNat ↔
      (estimatedNewClusterCount clusterSize count (32 * s)).toNat = if count + 1 < entries - s then 0
        else (count + 1 - (entries - s)) / entries + 1 :=
    ⟨fun h => h.unique isLeast, fun h => h ▸ isLeast⟩
  rw [unique, estimatedNewClusterCount_eq perCluster least word inside few]
  by_cases fits : count + 1 < entries - s
  · rw [if_pos fits, if_pos fits, Nat.div_eq_zero_iff]
    split_ifs <;> omega
  · rw [if_neg fits, if_neg fits, if_pos (by omega)]
    obtain ⟨excess, total⟩ : ∃ excess, count + 1 = entries - s + excess := ⟨_, (Nat.add_sub_of_le (not_lt.mp fits)).symm⟩
    have value : count + 17 - (entries - s) = excess + 16 := by omega
    have more : count + 1 - (entries - s) = excess := by omega
    rw [value, more]
    have split := Nat.div_add_mod excess entries
    have rest := Nat.mod_lt excess (show entries > 0 by omega)
    generalize excess / entries = q at *
    generalize excess % entries = r at *
    rw [← split, Nat.add_assoc, Nat.mul_add_div (by omega), Nat.add_right_inj]
    constructor
    · intro one
      by_contra small
      rw [Nat.div_eq_of_lt (by omega)] at one
      cases one
    · intro enough
      exact Nat.div_eq_of_lt_le (by omega) (by omega)

-- clusters of one sector
theorem new_clusters_least_one_sector :
    IsLeast {k | EnoughClusters 16 2 14 k} (estimatedNewClusterCount 512 2 (32 * 14)).toNat :=
  (new_clusters_least (by decide) (by decide) (by decide) (by decide) (by decide)).mpr (by decide)

/-- One slot is left for two entries in a cluster of two sectors, and no cluster is asked for. -/
theorem new_clusters_too_few : ¬ IsLeast {k | EnoughClusters 32 1 31 k} (estimatedNewClusterCount 1024 1 (32 * 31)).toNat := by
  intro least
  have none : (estimatedNewClusterCount 1024 1 (32 * 31)).toNat = 0 := by decide
  have enough : EnoughClusters 32 1 31 0 := none ▸ least.1
  rw [EnoughClusters] at enough
  exact absurd enough (by decide)

namespace Disk

theorem newClusterCount_eq {d : Disk} (sectors : 1 ≤ d.sectorsPerCluster) (byte : d.sectorsPerCluster < 2 ^ 8)
    (inside : s < d.slotsPerCluster) (few : count ≤ 20) : d.newClusterCount count (32 * s) =
      (if d.slotsPerCluster - s ≤ count + 17 then count + 17 - (d.slotsPerCluster - s)
        else 2 ^ 32 - (d.slotsPerCluster - s - (count + 17))) / d.slotsPerCluster := by
  have slots := d.slotsPerCluster_eq
  have size := d.clusterSize_eq
  exact estimatedNewClusterCount_eq rfl (by omega) (by omega) inside few

end Disk
end Kerosene.Fat32

import Kerosene.Fat32.NewFile

/-!
# `copy_cluster_chain`

The copy is a chain like all others from its first cluster on: each round links one more cluster to it and leaves
the chains of the store, so the one that is read, as they are.
-/

namespace Kerosene.Fat32
open Lib

namespace Disk

/-- From `d` to `d'`, `copy` is a new chain with the data of `source`; the rest of the store is as it was. -/
structure CopiesChain (d d' : Disk) (chains : List (List Nat)) (source copy : List Nat) : Prop where
  volume : d'.fat.Volume
  partition : d'.fat.Partition (copy :: chains)
  apart : ∀ l ∈ chains, copy.Disjoint l
  length : copy.length = source.length
  data : ∀ i : Nat, copy[i]?.map d'.data = source[i]?.map d.data
  chains : ∀ c ∈ chains.flatten, d'.fat.entry c = d.fat.entry c
  others : ∀ c, c ∉ copy → d'.data c = d.data c

variable {d d' : Disk} {chains : List (List Nat)} {front read rest source : List Nat} {copied current start fuel : Nat}

theorem copying_of_partition (volume : d.fat.Volume) (part : d.fat.Partition ((front ++ [copied]) :: chains))
    (listed : read ++ current :: rest ∈ chains) : d.Copying (current :: rest) copied := by
  have inside : ∀ c ∈ read ++ current :: rest, c ∈ chains.flatten := fun c member => List.mem_flatten_of_mem listed member
  have inUse : ∀ c ∈ read ++ current :: rest, d.fat.InUse c := fun c member =>
    (part.covers c).mp (List.mem_append_right _ (inside c member))
  have whole : d.DirChain (read ++ current :: rest) :=
    (dirChain_seg fun c member => volume.below (inUse c member).data).mpr (part.links _ (List.mem_cons_of_mem _ listed))
  have apart := (List.nodup_append'.mp part.nodup).2.2
  refine ⟨volume, ?_, fun c member => (inUse c (List.mem_append_right _ member)).notFree', part.member (by simp), fun member => ?_⟩
  · clear listed inside inUse
    induction read with
    | nil => exact whole
    | cons c read ih => exact ih whole.tail
  · exact apart (show copied ∈ front ++ [copied] by simp) (inside copied (List.mem_append_right _ member))

/-- By induction on the clusters still to read. -/
theorem copyLoop_chain (volume : d.fat.Volume) (part : d.fat.Partition ((front ++ [copied]) :: chains))
    (listed : read ++ current :: rest ∈ chains) (enough : rest.length ≤ d.fat.available.length) (rounds : rest.length < fuel) :
    ∃ d' taken, copyLoop fuel d current copied = some d' ∧ d'.fat.Volume ∧ d'.fat.Partition ((front ++ copied :: taken) :: chains) ∧
      (copied :: taken).map d'.data = (current :: rest).map d.data ∧ (∀ c ∈ chains.flatten, d'.fat.entry c = d.fat.entry c) ∧
      ∀ c, c ∉ copied :: taken → d'.data c = d.data c := by
  have copying := copying_of_partition volume part listed
  induction rest generalizing d front copied read current fuel with
  | nil =>
      obtain ⟨fuel, rfl⟩ := Nat.exists_eq_add_one.mpr rounds
      refine ⟨_, [], copyLoop_last copying fuel, volume, part, ?_, fun c _ => rfl, fun c outside => ?_⟩
      · have stored : (d.setData copied (d.data current)).data copied = d.data current := Function.update_self _ _ _
        exact congrArg (fun bytes => [bytes]) stored
      · exact data_setData_of_ne (fun same => outside (List.mem_singleton.mpr same)) ..
  | cons c₂ rest ih =>
      obtain ⟨fuel, rfl⟩ := Nat.exists_eq_add_one.mpr (Nat.zero_lt_of_lt rounds)
      rw [List.length_cons] at enough rounds
      obtain ⟨new, d₂, expanded, -⟩ := expandChain_succeeds (d := d.setData copied (d.data current)) (n := 1) volume le_rfl
        copying.own (Nat.one_le_of_lt enough)
      obtain ⟨later, expands, took, data, -⟩ := copying.next expanded
      obtain ⟨g, rfl, head, grows, -, length⟩ := expandChain_grows (d := d.setData copied (d.data current)) volume le_rfl
        copying.own expanded
      obtain ⟨x, one⟩ := List.length_eq_one_iff.mp length
      rw [one] at head grows
      cases head
      rw [List.append_cons] at listed
      have room : rest.length ≤ g.available.length := by
        have left : g.available = d.fat.available.drop 1 := expands.available
        rw [left, List.length_drop]
        omega
      obtain ⟨d', taken, loop, volume', parts, copies, kept, others⟩ := ih later.volume (grows.partition part) listed room
        (Nat.lt_of_succ_lt_succ rounds) later
      rw [← List.append_cons] at parts
      -- the cluster just filled is not written again
      have filled : copied ∉ new :: taken :=
        (List.nodup_cons.mp (List.nodup_append'.mp (List.nodup_append'.mp parts.nodup).1).2.1).1
      have ahead : ∀ c ∈ c₂ :: rest, (d.setData copied (d.data current)).data c = d.data c := fun c member =>
        data_setData_of_ne (by rintro rfl; exact copying.apart (List.mem_cons_of_mem current member)) ..
      refine ⟨d', new :: taken, ?_, volume', parts, ?_, fun c member => ?_, fun c outside => ?_⟩
      · rw [copyLoop_cons copying, expanded]
        exact loop
      · rw [List.map_cons, copies, others copied filled, List.map_cons, data]
        refine congrArg₂ List.cons (Function.update_self _ _ _) (List.map_congr_left ahead)
      · have notCopied : c ∉ [copied] := fun only => (List.nodup_append'.mp part.nodup).2.2
          (List.mem_append_right front only) member
        have notTaken : c ∉ d.fat.available.take 1 := fun took' =>
          ((part.covers c).mp (List.mem_append_right _ member)).notFree'
            (Fat.available_free volume.hint (List.mem_of_mem_take took'))
        exact (kept c member).trans (expands.same c notCopied notTaken)
      · rw [List.mem_cons, not_or] at outside
        rw [others c outside.2, data]
        exact data_setData_of_ne outside.1 ..

theorem copyClusterChain_copies (volume : d.fat.Volume) (part : d.fat.Partition chains) (listed : source ∈ chains)
    (first : source.head? = some start) (enough : source.length ≤ d.fat.available.length) (rounds : source.length ≤ fuel) :
    ∃ d' copy head, d.copyClusterChain fuel start = some (head, d') ∧ copy.head? = some head ∧ d.CopiesChain d' chains source copy := by
  obtain ⟨current, rest, rfl⟩ : ∃ current rest, source = current :: rest := by
    cases source with
    | nil => cases first
    | cons current rest => exact ⟨current, rest, rfl⟩
  cases first
  rw [List.length_cons] at enough rounds
  obtain ⟨head, g, allocated, nonzero⟩ := allocate_ends volume (List.ne_nil_of_length_pos (Nat.zero_lt_of_lt enough))
  obtain ⟨next, free, -, expands, left, -⟩ := allocate_first volume allocated
  obtain ⟨-, -, takes⟩ := Fat.allocate_expands volume le_rfl allocated
  rw [show d.fat.available.take 1 = [head] by rw [free]; rfl] at takes
  have moves := takes.moves volume
  have part' : (d.withFat g).fat.Partition (([] ++ [head]) :: chains) :=
    part.consNil.replace moves.total moves.same moves.free moves.links moves.members
  have room : rest.length ≤ (d.withFat g).fat.available.length := by
    rw [show (d.withFat g).fat.available = next from left]
    rw [free, List.length_cons] at enough
    omega
  have unread : [] ++ start :: rest ∈ chains := listed
  obtain ⟨d', taken, loop, volume', parts, copies, kept, others⟩ :=
    copyLoop_chain (expands.volume volume) part' unread room rounds
  refine ⟨d', head :: taken, head, ?_, rfl, volume', parts, fun l member => ?_, ?_, fun i => ?_, fun c member => ?_, others⟩
  · rw [copyClusterChain, allocated]
    dsimp only [Option.bind_eq_bind, Option.bind_some]
    rw [if_neg nonzero, loop]
    rfl
  · exact fun c new old => (List.nodup_append'.mp parts.nodup).2.2 new (List.mem_flatten_of_mem member old)
  · have lengths := congrArg List.length copies
    rwa [List.length_map, List.length_map] at lengths
  · rw [← List.getElem?_map, ← List.getElem?_map, copies]
    rfl
  · refine (kept c member).trans (takes.same fun took => ?_)
    exact ((part.covers c).mp member).notFree' (takes.free c took)

-- cluster 2 of the volume with one file of two clusters holds ones, cluster 3 twos
def oneFileDisk : Disk := ⟨Fat.oneFile, 1, fun c _ => if c = 2 then 1 else if c = 3 then 2 else 0⟩

theorem copyClusterChain_copies_oneFile : ∃ d' copy head, oneFileDisk.copyClusterChain 2 2 = some (head, d') ∧
    copy.head? = some head ∧ oneFileDisk.CopiesChain d' [[2, 3]] [2, 3] copy :=
  copyClusterChain_copies ⟨by decide, by decide⟩ Fat.oneFile_partition List.mem_cons_self rfl (by decide) le_rfl

end Disk
end Kerosene.Fat32

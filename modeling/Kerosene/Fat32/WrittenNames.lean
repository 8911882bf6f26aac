import Kerosene.Fat32.FreeSlot

/-!
# What `fat32_add_entry` writes is read back
-/

namespace Kerosene.Fat32
open Lib
open Ramfs (Name filenameLimit)
open Ramfs.Heap (dot dotdot dots_bytes)
variable {name : Name} {count n k : Nat} {checksum attr : UInt8} {slot : List UInt8}

/-! ## The long-name entries -/

/-- The slots written for the entries `n` to `1`. -/
def lfnSlots (name : Name) (count : Nat) (checksum : UInt8) : Nat → List (List UInt8)
  | 0 => []
  | n + 1 => (lfnEntry name count checksum (n + 1)).bytes :: lfnSlots name count checksum n

theorem putLfnEntries_eq (name : Name) (count : Nat) (checksum : UInt8) (n : Nat) (d : Disk) (c : Cursor) :
    d.putLfnEntries name count checksum n c = Disk.putAll (lfnSlots name count checksum n) d c := by
  induction n generalizing d c with
  | zero => rfl
  | succ n ih => exact ih _ _

theorem length_lfnSlots (name : Name) (count : Nat) (checksum : UInt8) (n : Nat) :
    (lfnSlots name count checksum n).length = n := by
  induction n with
  | zero => rfl
  | succ n ih => rw [lfnSlots, List.length_cons, ih]

theorem lfnSlots_get (here : (lfnSlots name count checksum n)[k]? = some slot) :
    k < n ∧ slot = (lfnEntry name count checksum (n - k)).bytes := by
  induction n generalizing k with
  | zero => cases here
  | succ n ih =>
      cases k with
      | zero =>
          cases here
          exact ⟨Nat.succ_pos n, rfl⟩
      | succ k =>
          obtain ⟨inside, rfl⟩ := ih here
          exact ⟨Nat.succ_lt_succ inside, by rw [Nat.add_sub_add_right]⟩

theorem FatLfnEntry.length_bytes (e : FatLfnEntry) : e.bytes.length = 32 := length_pack _ _

theorem FatDirectoryEntry.length_bytes (e : FatDirectoryEntry) : e.bytes.length = 32 := by
  rw [bytes, List.length_append, Vector.length_toList, length_pack]
  rfl

theorem spells_charToUint16 (b : UInt8) : Spells (charToUint16 b) b := by
  rw [Spells, charToUint16]
  split_ifs with low
  · exact ⟨UInt8.toUInt8_toUInt16 b, UInt8.toUInt16_inj (b := 0)⟩
  · have high : ¬ b.toNat < 0x80 := low
    have here := b.toNat_lt
    refine ⟨?_, ?_⟩
    · rw [UInt16.toUInt8_add, UInt8.toUInt8_toUInt16]
      exact UInt8.add_zero b
    · rw [← UInt16.toNat_inj, ← UInt8.toNat_inj, UInt16.toNat_add, UInt8.toNat_toUInt16]
      change (b.toNat + 0xff00) % 2 ^ 16 = 0 ↔ b.toNat = 0
      omega

theorem lfnEntry_chars {j : Nat} (small : j < 13) (name : Name) (count : Nat) (checksum : UInt8) (i : Nat) :
    (lfnEntry name count checksum i).chars[j]? = some (charToUint16 (name.getD ((i - 1) * 13 + j) 0)) := by
  rw [FatLfnEntry.chars]
  by_cases first : j < 5
  · rw [List.getElem?_append_left (by simpa using first)]
    simp [lfnEntry, first]
  · obtain ⟨j, rfl⟩ := Nat.exists_eq_add_of_le (not_lt.mp first)
    rw [List.getElem?_append_right (by simp), Vector.length_toList, Nat.add_sub_cancel_left]
    by_cases second : j < 6
    · rw [List.getElem?_append_left (by simpa using second)]
      simp [lfnEntry, second, Nat.add_comm 5 j]
    · obtain ⟨j, rfl⟩ := Nat.exists_eq_add_of_le (not_lt.mp second)
      have third : j < 2 := by omega
      rw [List.getElem?_append_right (by simp), Vector.length_toList, Nat.add_sub_cancel_left]
      simp [lfnEntry, third, Nat.add_comm 6 j, Nat.add_comm 5 (j + 6), Nat.add_right_comm j 5 6]

theorem storedText_read (name : Name) (j : Nat) : (storedText name).getD j 0 = name.getD j 0 := by
  rcases lt_or_ge j name.length with front | past
  · exact storedText_getD front
  · have none : name.getD j 0 = 0 := by rw [List.getD_eq_getElem?_getD, List.getElem?_eq_none past]; rfl
    rw [none, storedText, List.getD_eq_getElem?_getD, List.getElem?_take]
    split_ifs
    · rw [List.getElem?_append_right past]
      cases j - name.length <;> rfl
    · rfl

theorem lfnEntry_piece {i : Nat} (inside : i < pieceCount name) (count : Nat) (checksum : UInt8) :
    Piece (pieceOf name i) (lfnEntry name count checksum (i + 1)).chars := by
  have length := length_pieceOf inside
  have chars := (lfnEntry name count checksum (i + 1)).length_chars
  rw [Piece, List.forall₂_iff_get]
  refine ⟨by rw [List.length_take]; omega, fun j before after => ?_⟩
  have small : j < 13 := by omega
  have char := lfnEntry_chars small name count checksum (i + 1)
  have text := pieceOf_getD inside small
  rw [List.getElem?_eq_getElem (by omega), Nat.add_sub_cancel, Nat.mul_comm] at char
  rw [List.getD_eq_getElem?_getD, List.getElem?_eq_getElem after, Option.getD_some] at text
  rw [List.get_eq_getElem, List.get_eq_getElem, List.getElem_take, Option.some.inj char, text, storedText_read]
  exact spells_charToUint16 _

theorem lfnSlots_group (nonempty : name ≠ []) (short : name.length < filenameLimit) (nonzero : ∀ c ∈ name, c ≠ 0)
    (checksum : UInt8) : LongGroup name (lfnSlots name (pieceCount name) checksum (pieceCount name)) where
  nonempty := nonempty
  short := short
  nonzero := nonzero
  count := length_lfnSlots ..
  attr slot member := by
    obtain ⟨k, inside, rfl⟩ := List.getElem_of_mem member
    rw [(lfnSlots_get (List.getElem?_eq_getElem inside)).2, FatLfnEntry.ofBytes_bytes]
    rfl
  order k slot here := by
    obtain ⟨inside, rfl⟩ := lfnSlots_get here
    rw [FatLfnEntry.ofBytes_bytes, length_lfnSlots, lfnEntry]
    dsimp only
    by_cases first : k = 0
    · rw [if_pos (by omega), if_pos first]
    · rw [if_neg (by omega), if_neg first, UInt8.or_zero]
  chars k slot here := by
    obtain ⟨inside, rfl⟩ := lfnSlots_get here
    rw [FatLfnEntry.ofBytes_bytes, length_lfnSlots]
    have small : pieceCount name - k - 1 < pieceCount name := by omega
    have piece := lfnEntry_piece small (pieceCount name) checksum
    rwa [Nat.sub_add_cancel (by omega)] at piece

/-! ## The directory entry -/

theorem mem_padded {c : UInt8} {text : Name} (member : c ∈ padded n text) : c ∈ text ∨ c = 0x20 := by
  rw [padded, List.mem_append] at member
  exact member.imp id List.eq_of_mem_replicate

theorem upper_dots : ∀ c ∈ dot ++ dotdot, c = upper c := by
  simp [dots_bytes, upper, isLower]

theorem mem_shortName {c : UInt8} {isDir : Bool} (member : c ∈ shortName name isDir) :
    (∃ b ∈ name, c = upper b) ∨ c = 0x20 ∨ c = 0x7e ∨ c = 0x31 := by
  rw [shortName] at member
  split_ifs at member with dots
  · rcases mem_padded member with inside | space
    · refine .inl ⟨c, inside, upper_dots c (List.mem_append.mpr ?_)⟩
      rcases dots with rfl | rfl
      · exact .inl inside
      · exact .inr inside
    · exact .inr (.inl space)
  · obtain ⟨b, inside, rfl⟩ := List.mem_map.mp member
    have kept : ∀ {n : Nat} {skip : UInt8 → Bool} {room : Nat} {text : Name}, text ⊆ name →
        b ∈ padded n (copyKept skip room text) → b ∈ name ∨ b = 0x20 := by
      intro n skip room text part inside
      exact (mem_padded inside).imp (fun copied => part (mem_copyKept copied).2) id
    have plain : b ∈ name ∨ b = 0x20 → (∃ b' ∈ name, upper b = upper b') ∨ upper b = 0x20 ∨ upper b = 0x7e ∨ upper b = 0x31 := by
      rintro (ofName | rfl)
      · exact .inl ⟨b, ofName, rfl⟩
      · exact .inr (.inl rfl)
    have base : ∀ (c : Bool) (n : Nat), (if c then name.take n else name) ⊆ name := by
      rintro (_ | _) n
      · exact List.Subset.refl _
      · exact List.take_subset _ _
    have ext : ∀ (c : Bool) (n : Nat), b ∈ padded 3 (if c then copyKept isSpecial 3 (name.drop n) else []) →
        b ∈ name ∨ b = 0x20 := by
      rintro (_ | _) n inside
      · exact .inr (List.eq_of_mem_replicate inside)
      · exact kept (List.drop_subset _ _) inside
    have tailed : ∀ {p : Prop} [Decidable p] {l : List UInt8}, b ∈ (if p then l.take 6 ++ [0x7e, 0x31] else l) →
        b ∈ l ∨ b = 0x7e ∨ b = 0x31 := by
      intro p _ l inside
      split_ifs at inside
      · simp only [List.mem_append, List.mem_cons, List.not_mem_nil, or_false] at inside
        exact inside.imp List.mem_of_mem_take id
      · exact .inl inside
    rcases List.mem_append.mp inside with front | back
    · rcases tailed front with copied | rfl | rfl
      · exact plain (kept (base _ _) copied)
      · exact .inr (.inr (.inl rfl))
      · exact .inr (.inr (.inr rfl))
    · exact plain (ext _ _ back)

theorem startCluster_halves (s : UInt32) : (s >>> 16).toUInt16.toUInt32 <<< 16 ||| (s &&& 0xffff).toUInt16.toUInt32 = s := by
  have small := s.toNat_lt
  have shift : (16 : UInt32).toNat % 32 = 16 := rfl
  have mask : (0xffff : UInt32).toNat = 2 ^ 16 - 1 := rfl
  have high : s.toNat / 2 ^ 16 < 2 ^ 16 := by omega
  apply UInt32.toNat_inj.mp
  simp only [UInt32.toNat_or, UInt32.toNat_shiftLeft, UInt16.toNat_toUInt32, UInt32.toNat_toUInt16, UInt32.toNat_shiftRight,
    UInt32.toNat_and]
  rw [shift, mask, Nat.and_two_pow_sub_one_eq_mod, Nat.shiftRight_eq_div_pow, Nat.shiftLeft_eq, Nat.mod_eq_of_lt high,
    Nat.mod_mod, Nat.mod_eq_of_lt (by omega), ← Nat.shiftLeft_eq, ← Nat.shiftLeft_add_eq_or_of_lt (Nat.mod_lt _ (by decide)),
    Nat.shiftLeft_eq]
  omega

theorem shortEntry_ofBytes {dir : FatDirectoryEntry} {startCluster size : UInt32} {attr reserved : UInt8} {clock : Clock}
    (written : shortEntry name startCluster attr size clock reserved = some dir) :
    dir.bytes.getD 0 0 = (shortName name (attr &&& fatAttrDirectory ≠ 0)).getD 0 0 ∧ dir.bytes.getD 11 0 = attr ∧
      startClusterOf dir = startCluster := by
  obtain ⟨names, attrs, -, high, low⟩ := shortEntry_name written
  refine ⟨?_, ?_, ?_⟩
  · have length := length_shortName name (attr &&& fatAttrDirectory ≠ 0)
    rw [FatDirectoryEntry.bytes, names, List.getD_eq_getElem?_getD, List.getElem?_append_left (by omega),
      List.getD_eq_getElem?_getD]
  · rw [← FatDirectoryEntry.attr_ofBytes, FatDirectoryEntry.ofBytes_bytes, attrs]
  · rw [startClusterOf, high, low, startCluster_halves]

/-! ## The entries of a new file -/

/-- All slots that are written for `name`. -/
def newSlots (name : Name) (attr : UInt8) (dir : FatDirectoryEntry) : List (List UInt8) :=
  lfnSlots name (lfnEntryCount name) (genChecksum (shortName name (attr &&& fatAttrDirectory ≠ 0))) (lfnEntryCount name) ++
    [dir.bytes]

theorem length_newSlots (name : Name) (attr : UInt8) (dir : FatDirectoryEntry) :
    (newSlots name attr dir).length = lfnEntryCount name + 1 := by
  rw [newSlots, List.length_append, length_lfnSlots, List.length_singleton]

theorem newSlots_lengths {dir : FatDirectoryEntry} (member : slot ∈ newSlots name attr dir) : slot.length = 32 := by
  rcases List.mem_append.mp member with long | short
  · obtain ⟨k, inside, rfl⟩ := List.getElem_of_mem long
    rw [(lfnSlots_get (List.getElem?_eq_getElem inside)).2, FatLfnEntry.length_bytes]
  · rw [List.mem_singleton.mp short, FatDirectoryEntry.length_bytes]

namespace Disk
variable {d d₁ d' : Disk} {c : Cursor} {startCluster size : UInt32} {clock : Clock} {old : Bytes} {node newNode : FsNode}
  {fuel parent : Nat} {stack : Int → UInt8}

theorem writeEntries_eq (written : d.writeEntries c name startCluster attr size clock old = some (d', node)) :
    ∃ dir reserved, shortEntry name startCluster attr size clock reserved = some dir ∧
      d' = (putAll (newSlots name attr dir) d c).1.finish (putAll (newSlots name attr dir) d c).2 := by
  rw [writeEntries, putLfnEntries_eq] at written
  obtain ⟨dir, entry, written⟩ := Option.bind_eq_some_iff.mp written
  cases written
  refine ⟨dir, _, entry, ?_⟩
  rw [newSlots, putAll_append]
  rfl

theorem addEntry_steps (added : d.fat32AddEntry fuel parent name startCluster attr size newNode clock stack =
      some (.success, d', node)) :
    ∃ d₁ c, d.makeRoom fuel parent name stack = some (.success, d₁, c) ∧
      d₁.writeEntries c name startCluster attr size clock newNode.name = some (d', node) := by
  rw [fat32AddEntry] at added
  obtain ⟨⟨err, d₁, c⟩, room, added⟩ := Option.bind_eq_some_iff.mp added
  dsimp only at added
  by_cases success : err = .success
  · subst success
    rw [if_neg (by simp)] at added
    obtain ⟨⟨d₂, node₂⟩, written, same⟩ := Option.bind_eq_some_iff.mp added
    cases same
    exact ⟨d₁, c, room, written⟩
  · rw [if_pos success] at added
    cases added
    exact absurd rfl success

variable {chain : List Nat} {p : Nat} {tail : List (List UInt8)}

theorem Behind.append {front : List Nat} (behind : d.Behind chain p tail) :
    d.Behind (front ++ chain) (d.slotsPerCluster * front.length + p) tail := by
  rw [Behind] at behind ⊢
  rw [Nat.mul_add_mod, dirSlots, List.flatMap_append, ← List.drop_drop, ← length_dirSlots, List.drop_left' (by rfl)]
  exact behind

theorem DirChain.congr (fat : d'.fat = d.fat) (on : d.DirChain chain) : d'.DirChain chain :=
  ⟨by rw [Linked, fat]; exact on.linked, by rw [fat]; exact on.ends, on.nodup⟩

/-- The directory after a call for which the clusters are enough. -/
structure Added (d d' : Disk) (chain chain' : List Nat) (p : Nat) (slots : List (List UInt8)) : Prop where
  on : d'.DirChain chain'
  slots : ∃ tail, d'.dirSlots chain' = (d.dirSlots chain).take p ++ slots ++ tail ∧
    d.Behind chain' (p + slots.length) tail
  sectors : d'.sectorsPerCluster = d.sectorsPerCluster

theorem Room.added {chain' : List Nat} {slots : List (List UInt8)} {count : Nat} (room : d.Room d₁ c count chain chain' p)
    (lengths : ∀ slot ∈ slots, slot.length = 32) (enough : p + slots.length ≤ d.slotsPerCluster * chain'.length) :
    d.Added ((putAll slots d₁ c).1.finish (putAll slots d₁ c).2) chain chain' p slots := by
  obtain ⟨front, back, k, rfl, small, start, rfl, before, -⟩ := room.position
  have perCluster : d₁.slotsPerCluster = d.slotsPerCluster := by
    rw [slotsPerCluster_eq, slotsPerCluster_eq, room.sectors]
  have here := room.on.drop front.length
  rw [List.drop_left] at here
  rw [List.length_append, List.length_cons, Nat.mul_add, Nat.mul_succ] at enough
  obtain ⟨⟨tail, slots', behind⟩, fat, sectors, others⟩ :=
    putAll_written here.nodup (here.linked.imp fun _ _ next => next.1) start (by omega) lengths
    (by rw [perCluster]; omega)
  have sameSlots : ∀ chain, d₁.dirSlots chain = d.dirSlots chain := fun chain =>
    dirSlots_congr (fun c _ => by rw [room.data]) room.sectors
  have kept : ((putAll slots d₁ c).1.finish (putAll slots d₁ c).2).dirSlots front = d.dirSlots front := by
    rw [← sameSlots]
    exact dirSlots_congr (fun x member => others x ((List.nodup_append'.mp room.on.nodup).2.2 member)) sectors
  refine ⟨room.on.congr fat, ⟨tail, ?_, ?_⟩, sectors.trans room.sectors⟩
  · rw [dirSlots, List.flatMap_append, ← dirSlots, ← dirSlots, kept, slots', ← before]
    simp only [List.append_assoc]
  · have moved := @Behind.append _ _ _ _ front behind
    rw [Behind, perCluster, sameSlots, ← Nat.add_assoc] at moved
    exact moved

theorem addEntry_added {chain : List Nat} (some : 0 < d.slotsPerCluster) (volume : d.fat.Volume)
    (inUse : ∀ c ∈ chain, d.fat.InUse c) (nonempty : chain ≠ []) (on : d.DirChain chain)
    (added : d.fat32AddEntry fuel (chain.getD 0 0) name startCluster attr size newNode clock stack =
      .some (.success, d', node))
    (enough : d.firstFree chain + (lfnEntryCount name + 1) ≤ d.slotsPerCluster * (d.grownChain chain name).length) :
    ∃ dir reserved, shortEntry name startCluster attr size clock reserved = .some dir ∧
      d.Added d' chain (d.grownChain chain name) (d.firstFree chain) (newSlots name attr dir) := by
  obtain ⟨d₁, c, done, written⟩ := addEntry_steps added
  obtain ⟨dir, reserved, entry, rfl⟩ := writeEntries_eq written
  refine ⟨dir, reserved, entry, ?_⟩
  exact (makeRoom_room some volume inUse nonempty on done).added (fun slot member => newSlots_lengths member)
    (by rw [length_newSlots]; exact enough)

end Disk

/-! ## A long name comes back -/

theorem toFatAttr_ne_lfn (flags : BitVec 32) : toFatAttr flags ≠ 0x0f := by
  rw [toFatAttr]
  split_ifs <;> decide

theorem upper_printable {b : UInt8} (printable : 0x20 ≤ b ∧ b ≤ 0x7e) : upper b ≠ 0x00 ∧ upper b ≠ 0xe5 := by
  grind [upper, isLower]

theorem lfnEntryCount_long (notDot : name ≠ dot) (notDotdot : name ≠ dotdot) (long : isValidSfn name = false) :
    lfnEntryCount name = pieceCount name := by
  rw [lfnEntryCount, if_neg (by simp [notDot, notDotdot, long])]
  rfl

theorem printable_short {dir : FatDirectoryEntry} {startCluster size : UInt32} {reserved : UInt8} {clock : Clock}
    (printable : ∀ b ∈ name, 0x20 ≤ b ∧ b ≤ 0x7e) (notLfn : attr ≠ 0x0f)
    (written : shortEntry name startCluster attr size clock reserved = some dir) : Item.Short dir.bytes := by
  obtain ⟨head, attrs, -⟩ := shortEntry_ofBytes written
  have length := length_shortName name (attr &&& fatAttrDirectory ≠ 0)
  have member : dir.bytes.getD 0 0 ∈ shortName name (attr &&& fatAttrDirectory ≠ 0) := by
    rw [head, List.getD_eq_getElem?_getD, List.getElem?_eq_getElem (by omega)]
    exact List.getElem_mem _
  have ne : dir.bytes.getD 0 0 ≠ 0x00 ∧ dir.bytes.getD 0 0 ≠ 0xe5 := by
    rcases mem_shortName member with ⟨b, inside, same⟩ | space | tail | tail
    · rw [same]
      exact upper_printable (printable b inside)
    · rw [space]
      decide
    · rw [tail]
      decide
    · rw [tail]
      decide
  exact ⟨ne.1, ne.2, by rwa [attrs]⟩

/-- The entries that are written for a long name, in whatever clusters they fall, are read back as one entry. -/
theorem long_name_round_trip {d d' : Disk} {chain : List Nat} {fuel fuel' : Nat} {flags : BitVec 32}
    {startCluster size : UInt32} {clock : Clock} {newNode node : FsNode} {stack : Int → UInt8}
    (sized : d.Sized) (volume : d.fat.Volume) (inUse : ∀ c ∈ chain, d.fat.InUse c) (nonempty : chain ≠ [])
    (on : d.DirChain chain) (some : name ≠ []) (short : name.length ≤ 255) (printable : ∀ b ∈ name, 0x20 ≤ b ∧ b ≤ 0x7e)
    (notDot : name ≠ dot) (notDotdot : name ≠ dotdot) (long : isValidSfn name = false)
    (added : d.fat32AddEntry fuel (chain.getD 0 0) name startCluster (toFatAttr flags) size newNode clock stack =
      .some (.success, d', node))
    (inside : d.firstFree chain + (lfnEntryCount name + 1) ≤ d.slotsPerCluster * (d.grownChain chain name).length)
    (enough : (d.grownChain chain name).length ≤ fuel') (rootdirCluster : UInt32) (ret : FsNode) (entryName : Int → UInt8) :
    let chain' := d.grownChain chain name
    let first := d.firstFree chain
    let last := first + lfnEntryCount name
    ∃ found, d'.fat32IterateDirectory rootdirCluster fuel' ⟨d.indexOf first - 32, d.clusterOf chain' first⟩ ret entryName =
        .some (.success, .some (⟨d.indexOf last, d.clusterOf chain' last⟩, found)) ∧
      cString found.name = name ∧ found.flags = toFsNodeFlags (toFatAttr flags) ∧ found.size = size ∧
      found.startCluster = startCluster := by
  have slots := sized.slots
  obtain ⟨dir, reserved, entry, all⟩ := Disk.addEntry_added (by omega) volume inUse nonempty on added inside
  obtain ⟨tail, written, -⟩ := all.slots
  have perCluster : d'.slotsPerCluster = d.slotsPerCluster := by
    rw [Disk.slotsPerCluster_eq, Disk.slotsPerCluster_eq, all.sectors]
  have count := lfnEntryCount_long notDot notDotdot long
  have valid : (Item.file name (lfnSlots name (lfnEntryCount name) (genChecksum (shortName name
      (toFatAttr flags &&& fatAttrDirectory ≠ 0))) (lfnEntryCount name)) dir.bytes).Valid := by
    refine .file (printable_short printable (toFatAttr_ne_lfn flags) entry) (.long ?_)
    rw [count]
    refine lfnSlots_group some (Nat.lt_succ_of_le short) (fun c member zero => ?_) _
    have := (printable c member).1
    rw [zero] at this
    exact absurd this (by decide)
  obtain ⟨s, scan, named⟩ := valid.scan_file tail entryName
  rw [Item.slots] at scan
  have front : ((d.dirSlots chain).take (d.firstFree chain)).length = d.firstFree chain :=
    List.length_take_of_le (List.takeWhile_prefix _).length_le
  have here : (d'.dirSlots (d.grownChain chain name)).drop (d.firstFree chain) =
      newSlots name (toFatAttr flags) dir ++ tail := by
    rw [written, List.append_assoc, List.drop_left' front]
  have before : d.firstFree chain < (d'.dirSlots (d.grownChain chain name)).length := by
    rw [Disk.length_dirSlots, perCluster]
    omega
  have size := d.clusterSize_eq
  have size' := d'.clusterSize_eq
  have index : toUnsigned (((d.indexOf (d.firstFree chain) : Nat) : Int) - 32 + 32) = d.indexOf (d.firstFree chain) := by
    have := Nat.mod_lt (d.firstFree chain) (show d.slotsPerCluster > 0 by omega)
    rw [Disk.indexOf, toUnsigned]
    omega
  have small : ¬ d.indexOf (d.firstFree chain) ≥ d'.clusterSize := by
    have := Nat.mod_lt (d.firstFree chain) (show d.slotsPerCluster > 0 by omega)
    rw [Disk.indexOf]
    omega
  have places : ∀ q, d'.indexOf q = d.indexOf q ∧ d'.clusterOf (d.grownChain chain name) q = d.clusterOf (d.grownChain chain name) q :=
    fun q => ⟨by rw [Disk.indexOf, perCluster, Disk.indexOf], by rw [Disk.clusterOf, perCluster, Disk.clusterOf]⟩
  have run := Disk.iterateLoop_at all.on before enough (.start entryName) rootdirCluster ret
  rw [here, newSlots, scan, Disk.answer, length_lfnSlots] at run
  simp only [places] at run
  obtain ⟨-, attrs, sizes, -⟩ := shortEntry_name entry
  obtain ⟨-, -, cluster⟩ := shortEntry_ofBytes entry
  refine ⟨fillNode rootdirCluster ret (d.clusterOf (d.grownChain chain name) (d.firstFree chain + lfnEntryCount name))
    (d.indexOf (d.firstFree chain + lfnEntryCount name)) s (.ofBytes dir.bytes), ?_, named _, ?_, ?_, ?_⟩
  · rw [Disk.fat32IterateDirectory]
    dsimp only
    rw [index, if_neg small]
    exact run
  all_goals simp only [fillNode, FatDirectoryEntry.ofBytes_bytes, attrs, sizes, cluster, named, notDotdot, and_false, if_false]

-- A volume with the empty directory in cluster 2.
def emptyVolume : Disk :=
  ⟨⟨fun c => if c = 2 then BitVec.ofNat 32 fatEoc else 0, 3, 3, 2⟩, 1, fun _ _ => 0⟩

def blankNode : FsNode := ⟨fun _ => 0, 0, 0, 0, 0, 0, 0, 0, 0, 0⟩

theorem emptyVolume_chain : emptyVolume.DirChain [2] := by
  refine ⟨.singleton 2, ?_, List.nodup_singleton 2⟩
  rintro c ⟨⟩
  decide

theorem emptyVolume_inUse : ∀ c ∈ [2], emptyVolume.fat.InUse c := by
  intro c member
  rw [List.mem_singleton.mp member]
  exact ⟨⟨by decide, by decide⟩, by decide, by decide⟩

-- `notes`
def notes : Name := [0x6e, 0x6f, 0x74, 0x65, 0x73]

-- The name takes the first two of 16 slots.
theorem emptyVolume_adds :
    (emptyVolume.fat32AddEntry 4 2 notes 5 (toFatAttr 0) 10 blankNode ⟨0, 0⟩ fun _ => 0x41).map (·.1) = some .success ∧
      emptyVolume.firstFree [2] = 0 ∧ emptyVolume.grownChain [2] notes = [2] ∧ lfnEntryCount notes = 1 ∧
      emptyVolume.slotsPerCluster = 16 ∧ (shortName notes false).getD 0 0 = 0x4e := by
  decide +kernel

-- A directory with 14 deleted slots, and a name of two pieces: one piece is left for the first cluster, and the entry is in the next.
def deletedSlots : Disk := { emptyVolume with data := fun c i => if c = 2 ∧ i < 32 * 14 then 0xe5 else 0 }

def twoPieces : Name := notes ++ notes ++ notes

theorem deletedSlots_adds :
    (deletedSlots.fat32AddEntry 4 2 twoPieces 5 (toFatAttr 0) 10 blankNode ⟨0, 0⟩ fun _ => 0x41).map (·.1) = some .success ∧
      deletedSlots.firstFree [2] = 14 ∧ deletedSlots.grownChain [2] twoPieces = [2, 3] ∧ lfnEntryCount twoPieces = 2 ∧
      deletedSlots.slotsPerCluster = 16 := by
  decide +kernel

theorem long_name_round_trip_two_clusters : ∃ d' node found,
    deletedSlots.fat32AddEntry 4 2 twoPieces 5 (toFatAttr 0) 10 blankNode ⟨0, 0⟩ (fun _ => 0x41) = some (.success, d', node) ∧
      d'.fat32IterateDirectory 2 4 ⟨416, 2⟩ blankNode (fun _ => 0x42) = some (.success, some (⟨0, 3⟩, found)) ∧
      cString found.name = twoPieces := by
  obtain ⟨done, first, grown, count, perCluster⟩ := deletedSlots_adds
  obtain ⟨⟨err, d', node⟩, added, success⟩ := Option.map_eq_some_iff.mp done
  cases success
  have notDots : twoPieces ≠ dot ∧ twoPieces ≠ dotdot := by
    rw [dots_bytes.1, dots_bytes.2]
    decide
  have printable : ∀ b ∈ twoPieces, 0x20 ≤ b ∧ b ≤ 0x7e := by simp [twoPieces, notes]
  have on : deletedSlots.DirChain [2] := ⟨emptyVolume_chain.1, emptyVolume_chain.2, emptyVolume_chain.3⟩
  have back := long_name_round_trip (d := deletedSlots) ⟨by decide, by decide⟩ ⟨by decide, by decide⟩ emptyVolume_inUse
    (by decide) on (by decide) (by decide) printable notDots.1 notDots.2 (by decide) added
    (by rw [first, count, perCluster, grown]; decide) (show _ ≤ 4 by rw [grown]; decide) 2 blankNode fun _ => 0x42
  have places : deletedSlots.indexOf 14 = 448 ∧ deletedSlots.clusterOf [2, 3] 14 = 2 ∧
      deletedSlots.indexOf (14 + 2) = 0 ∧ deletedSlots.clusterOf [2, 3] (14 + 2) = 3 := by
    decide
  obtain ⟨found, read, named, -⟩ := back
  rw [first, grown, count, places.1, places.2.1, places.2.2.1, places.2.2.2] at read
  exact ⟨d', node, found, added, read, named⟩

end Kerosene.Fat32

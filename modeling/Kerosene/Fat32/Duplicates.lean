import Kerosene.Fat32.Insertion

/-!
# The duplicate search of `fat32_add_entry`

`entry_name` is compared as a string. A long name that fills its last piece is stored without a terminator, so that
what the buffer held before is read on.
-/

namespace Kerosene.Fat32
open Lib
open Ramfs (Name filenameLimit)
variable {name text a b : Name} {buff stack : Int → UInt8} {s : Decoder} {items : List Item} {item : Item} {n i : Nat}

/-! ## Comparing -/

def EqualIgnoringCase (a b : Name) : Prop := a.map toupper = b.map toupper

theorem toupper_eq_zero {c : UInt8} : toupper c = 0 ↔ c = 0 := by
  grind [toupper]

theorem sameIgnoringCase_iff (nonzero : ∀ b ∈ name, b ≠ 0) (i : Nat) : sameIgnoringCase buff i name ↔
    (∀ j < name.length, buff (i + j : Nat) ≠ 0 ∧ toupper (buff (i + j : Nat)) = toupper (name.getD j 0)) ∧
      buff (i + name.length : Nat) = 0 := by
  induction name generalizing i with
  | nil =>
      rw [sameIgnoringCase, decide_eq_true_eq, toupper_eq_zero]
      exact ⟨fun stop => ⟨fun j none => (by cases none), stop⟩, fun h => h.2⟩
  | cons c name ih =>
      obtain ⟨first, later⟩ := List.forall_mem_cons.mp nonzero
      rw [sameIgnoringCase]
      by_cases here : buff i ≠ 0 ∧ toupper (buff i) = toupper c
      · have next : ∀ j, i + 1 + j = i + (j + 1) := fun j => by omega
        rw [if_pos here, ih later, List.length_cons, next]
        refine and_congr_left' ⟨fun rest j inside => ?_, fun all j inside => ?_⟩
        · cases j with
          | zero => exact here
          | succ j =>
              rw [← next]
              exact rest j (Nat.succ_lt_succ_iff.mp inside)
        · rw [next]
          exact all (j + 1) (Nat.succ_lt_succ inside)
      · rw [if_neg here, decide_eq_true_eq]
        constructor
        · intro same
          refine absurd ⟨fun zero => first ?_, same⟩ here
          rw [zero, toupper_eq_zero.mpr rfl] at same
          exact toupper_eq_zero.mp same.symm
        · intro all
          exact absurd (all.1 0 (Nat.succ_pos _)) here

theorem getD_getElem {j : Nat} (inside : j < a.length) : a.getD j 0 = a[j] := by
  rw [List.getD_eq_getElem?_getD, List.getElem?_eq_getElem inside]
  rfl

theorem equalIgnoringCase_iff : EqualIgnoringCase a b ↔
    a.length = b.length ∧ ∀ j < a.length, toupper (a.getD j 0) = toupper (b.getD j 0) := by
  rw [EqualIgnoringCase]
  constructor
  · intro same
    have length := congrArg List.length same
    rw [List.length_map, List.length_map] at length
    refine ⟨length, fun j inside => ?_⟩
    have here := congrArg (fun l : List UInt8 => l[j]?) same
    simp only [List.getElem?_map, List.getElem?_eq_getElem inside, List.getElem?_eq_getElem (length ▸ inside), Option.map_some,
      Option.some.injEq] at here
    rwa [getD_getElem inside, getD_getElem (length ▸ inside)]
  · rintro ⟨length, same⟩
    apply List.ext_getElem
    · rw [List.length_map, List.length_map, length]
    · intro j inside inside'
      rw [List.length_map] at inside inside'
      have here := same j inside
      rw [getD_getElem inside, getD_getElem inside'] at here
      rw [List.getElem_map, List.getElem_map]
      exact here

/-- The buffer starts with `text`. -/
def Starts (buff : Int → UInt8) (text : Name) : Prop := ∀ j < text.length, buff j = text.getD j 0

theorem Starts.nonzero (starts : Starts buff text) (solid : ∀ c ∈ text, c ≠ 0) {j : Nat} (inside : j < text.length) :
    buff j ≠ 0 := by
  rw [starts j inside, getD_getElem inside]
  exact solid _ (List.getElem_mem inside)

theorem sameIgnoringCase_length (starts : Starts buff text) (solid : ∀ c ∈ text, c ≠ 0) (nonzero : ∀ b ∈ name, b ≠ 0)
    (same : sameIgnoringCase buff 0 name) : text.length ≤ name.length ∧ (buff text.length = 0 → text.length = name.length) := by
  obtain ⟨chars, stop⟩ := (sameIgnoringCase_iff nonzero 0).mp same
  simp only [Nat.zero_add] at chars stop
  have enough : text.length ≤ name.length := by
    by_contra less
    exact starts.nonzero solid (not_le.mp less) stop
  refine ⟨enough, fun ends => ?_⟩
  by_contra ne
  exact (chars text.length (by omega)).1 ends

theorem sameIgnoringCase_closed (starts : Starts buff text) (solid : ∀ c ∈ text, c ≠ 0) (stop : buff text.length = 0)
    (nonzero : ∀ b ∈ name, b ≠ 0) : sameIgnoringCase buff 0 name ↔ EqualIgnoringCase text name := by
  rw [equalIgnoringCase_iff]
  constructor
  · intro same
    have length := (sameIgnoringCase_length starts solid nonzero same).2 stop
    obtain ⟨chars, -⟩ := (sameIgnoringCase_iff nonzero 0).mp same
    refine ⟨length, fun j inside => ?_⟩
    have here := (chars j (by omega)).2
    rwa [Nat.zero_add, starts j inside] at here
  · rintro ⟨length, chars⟩
    refine (sameIgnoringCase_iff nonzero 0).mpr ⟨fun j inside => ?_, by rwa [Nat.zero_add, ← length]⟩
    rw [Nat.zero_add]
    refine ⟨starts.nonzero solid (by omega), ?_⟩
    rw [starts j (by omega)]
    exact chars j (by omega)

theorem sameIgnoringCase_open (starts : Starts buff text) (solid : ∀ c ∈ text, c ≠ 0) (more : buff text.length ≠ 0)
    (nonzero : ∀ b ∈ name, b ≠ 0) (same : sameIgnoringCase buff 0 name) : text.length < name.length := by
  have enough := (sameIgnoringCase_length starts solid nonzero same).1
  have stop := ((sameIgnoringCase_iff nonzero 0).mp same).2
  rw [Nat.zero_add] at stop
  refine lt_of_le_of_ne enough fun length => more ?_
  rw [length]
  exact stop

/-! ## The search as a fold -/

-- One slot of the search; it ends with whether a duplicate was found.
def searchSlot (name : Name) (s : Decoder) (slot : List UInt8) : Except Bool Decoder :=
  if slot.getD 0 0 = 0x00 then .error false
  else if slot.getD 0 0 = 0xe5 then .ok s
  else if slot.getD 11 0 = 0x0f then .ok (s.processLfnEntry (.ofBytes slot))
  else
    let s := if s.lfnReady then s else s.processSfnEntry (.ofBytes slot)
    if sameIgnoringCase s.entryName 0 name then .error true
    else .ok { s with lfnReady := false, foundLastLfnEntry := false }

def Search.outcome : Search → Except Bool Decoder
  | ended s => .ok s
  | free _ => .error false
  | existed => .error true

theorem searchCluster_outcome (name : Name) (directory : Bytes) (n i : Nat) (s : Decoder) :
    (searchCluster name directory n i s).outcome = (slotsFrom directory i n).foldlM (searchSlot name) s := by
  induction n generalizing i s with
  | zero => rfl
  | succ n ih =>
      have head : (slotAt directory i).getD 0 0 = directory i := slotAt_getD (by decide) directory i
      have attr : (slotAt directory i).getD 11 0 = directory (i + 11) := slotAt_getD (by decide) directory i
      rw [slotsFrom_succ, List.foldlM_cons, searchCluster, searchSlot, head, attr]
      split_ifs
      · rfl
      · exact ih _ _
      · exact ih _ _
      all_goals
        dsimp only
        split_ifs
        · rfl
        · exact ih _ _

namespace Disk
variable {d d' : Disk} {c : Cursor} {c₀ fuel : Nat} {cs chain : List Nat}

theorem findSpace_existed (some : 0 < d.slotsPerCluster) (on : d.DirChain (c₀ :: cs)) (enough : cs.length < fuel) :
    (∃ d' c, findSpace name fuel d c₀ false s = .some (.entryExisted, d', c)) ↔
      (d.dirSlots (c₀ :: cs)).foldlM (searchSlot name) s = .error true := by
  induction cs generalizing c₀ fuel s with
  | nil =>
      obtain ⟨fuel, rfl⟩ := Nat.exists_eq_add_one.mpr (Nat.zero_lt_of_lt enough)
      have outcome := searchCluster_outcome name (d.data c₀) d.slotsPerCluster 0 s
      rw [dirSlots_cons, dirSlots, List.flatMap_nil, List.append_nil, clusterSlots, ← outcome, findSpace, slotCount_zero,
        if_neg Bool.false_ne_true]
      dsimp only
      cases searchCluster name (d.data c₀) d.slotsPerCluster 0 s with
      | existed => exact ⟨fun _ => rfl, fun _ => ⟨_, _, rfl⟩⟩
      | free i => exact ⟨by rintro ⟨_, _, ⟨⟩⟩, by rintro ⟨⟩⟩
      | ended s' =>
          refine ⟨?_, by rintro ⟨⟩⟩
          rintro ⟨d', c, found⟩
          dsimp only at found
          rw [if_pos (on.ends c₀ rfl)] at found
          cases expanded : d.expandChain c₀ 1 with
          | none =>
              rw [expanded] at found
              cases found
          | some r =>
              obtain ⟨new, d₁⟩ := r
              rw [expanded] at found
              dsimp only at found
              split_ifs at found
              · cases found
              · -- the new cluster is free from its first slot on
                have same : d₁.slotsPerCluster = d.slotsPerCluster := by
                  obtain ⟨g, -, rfl⟩ := expandChain_fat expanded
                  rfl
                obtain ⟨n, slots⟩ := Nat.exists_eq_add_one.mpr some
                cases fuel with
                | zero => cases found
                | succ fuel =>
                    rw [findSpace, slotCount_zero, same, slots, if_pos rfl, searchCluster, if_pos rfl] at found
                    cases found
  | cons c₂ cs ih =>
      obtain ⟨fuel, rfl⟩ := Nat.exists_eq_add_one.mpr (Nat.zero_lt_of_lt enough)
      have outcome := searchCluster_outcome name (d.data c₀) d.slotsPerCluster 0 s
      rw [dirSlots_cons, List.foldlM_append, clusterSlots, ← outcome, findSpace, slotCount_zero, if_neg Bool.false_ne_true]
      dsimp only
      cases searchCluster name (d.data c₀) d.slotsPerCluster 0 s with
      | existed => exact ⟨fun _ => rfl, fun _ => ⟨_, _, rfl⟩⟩
      | free i => exact ⟨by rintro ⟨_, _, ⟨⟩⟩, by rintro ⟨⟩⟩
      | ended s' =>
          obtain ⟨next, notEnd, -⟩ := on.linked.next
          dsimp only
          rw [next, if_neg notEnd]
          exact ih on.tail (Nat.succ_lt_succ_iff.mp enough)

theorem addEntry_existed {parent : Nat} {startCluster size : UInt32} {attr : UInt8} {newNode : FsNode} {clock : Clock} :
    (∃ d' node, d.fat32AddEntry fuel parent name startCluster attr size newNode clock stack = some (.entryExisted, d', node)) ↔
      ∃ d' c, findSpace name fuel d parent false (.start stack) = some (.entryExisted, d', c) := by
  constructor
  · rintro ⟨d', node, added⟩
    rw [fat32AddEntry] at added
    obtain ⟨⟨err, d₁, c⟩, room, added⟩ := Option.bind_eq_some_iff.mp added
    dsimp only at added
    by_cases success : err = .success
    · rw [if_neg (not_not.mpr success)] at added
      obtain ⟨_, _, added⟩ := Option.bind_eq_some_iff.mp added
      cases added
    · rw [if_pos success] at added
      cases added
      rw [makeRoom] at room
      split at room
      · dsimp only at room
        split_ifs at room
        · split at room
          · cases room
          · split_ifs at room
            · cases room
            · cases room
        · cases room
      · exact ⟨d', c, room⟩
  · rintro ⟨d', c, found⟩
    refine ⟨d', { newNode with flags := 0 }, ?_⟩
    rw [fat32AddEntry, makeRoom, found]
    rfl

end Disk

/-! ## What the buffer holds -/

namespace Item

-- the text that reading an item stores
def stored : Item → Name
  | hole _ => []
  | file name long _ => if long = [] then name ++ [0] else storedText name

def write (buff : Int → UInt8) (item : Item) : Int → UInt8 := putText buff 0 item.stored

def name? : Item → Option Name
  | hole _ => none
  | file name _ _ => some name

end Item

theorem Decoded.write {name : Name} (decoded : Decoded name buff 0 s) : s.entryName = putText buff 0 (storedText name) := by
  funext i
  by_cases inside : 0 ≤ i ∧ i < (storedText name).length
  · obtain ⟨j, rfl⟩ := Int.eq_ofNat_of_zero_le inside.1
    have small : j < (storedText name).length := by omega
    have here := @putText_inside _ _ buff 0 small
    rw [Int.zero_add] at here
    rw [decoded.text j (Nat.zero_le _) (by omega)]
    exact here.symm
  · rw [decoded.frame i (by omega)]
    exact (if_neg (by omega)).symm

theorem foldlM_long {long : List (List UInt8)} (used : ∀ slot ∈ long, slot.getD 0 0 ≠ 0x00 ∧ slot.getD 0 0 ≠ 0xe5)
    (attr : ∀ slot ∈ long, slot.getD 11 0 = 0x0f) (s : Decoder) : long.foldlM (searchSlot name) s = .ok (readLong long s) := by
  induction long generalizing s with
  | nil => rfl
  | cons slot long ih =>
      obtain ⟨first, later⟩ := List.forall_mem_cons.mp used
      rw [List.foldlM_cons, searchSlot, if_neg first.1, if_neg first.2, if_pos (attr slot List.mem_cons_self)]
      exact ih later (fun slot member => attr slot (List.mem_cons_of_mem _ member)) _

theorem Item.Valid.search (valid : item.Valid) (name : Name) (ready : s.lfnReady = false) (found : s.foundLastLfnEntry = false) :
    ∃ n, item.slots.foldlM (searchSlot name) s =
      if item.name?.isSome ∧ sameIgnoringCase (item.write s.entryName) 0 name then .error true
      else .ok ⟨item.write s.entryName, n, false, false⟩ := by
  cases valid with
  | @hole slot deleted =>
      refine ⟨s.namelen, ?_⟩
      have used : slot.getD 0 0 ≠ 0x00 := by
        rw [deleted]
        decide
      rw [if_neg (by simp [name?]), slots, List.foldlM_cons, searchSlot, if_neg used, if_pos deleted, write, stored, putText_nil]
      cases s
      cases ready
      cases found
      rfl
  | @file own long short isShort named =>
      cases named with
      | short nonzero =>
          refine ⟨((sfnText (.ofBytes short) ++ [0]).length : Nat), ?_⟩
          rw [slots, List.nil_append, List.foldlM_cons, searchSlot, if_neg isShort.used, if_neg isShort.kept, if_neg isShort.attr, ready]
          simp only [Bool.false_eq_true, if_false, name?, Option.isSome_some, true_and]
          have written : (s.processSfnEntry (.ofBytes short)).entryName =
              write s.entryName (.file (sfnText (.ofBytes short)) [] short) := rfl
          rw [written]
          split_ifs
          · rfl
          · simp only [Decoder.processSfnEntry]
            rfl
      | long group =>
          have decoded := group.decoded found
          have some : long ≠ [] := by
            rintro rfl
            have count := group.count
            have pos := List.length_pos_of_ne_nil group.nonempty
            rw [List.length_nil, pieceCount] at count
            omega
          have written : (readLong long s).entryName = write s.entryName (.file own long short) := by
            rw [decoded.write, write, stored, if_neg some]
          refine ⟨(readLong long s).namelen, ?_⟩
          rw [slots, List.foldlM_append, foldlM_long group.used fun slot member => by
            rw [← FatLfnEntry.attr_ofBytes]
            exact group.attr slot member]
          change searchSlot name (readLong long s) short >>= pure = _
          rw [searchSlot, if_neg isShort.used, if_neg isShort.kept, if_neg isShort.attr, decoded.ready, bind_pure]
          simp only [if_true, name?, Option.isSome_some, true_and, written]

/-- What the buffer holds when the items in front of item `i` were read. -/
def buffAt (stack : Int → UInt8) (items : List Item) (i : Nat) : Int → UInt8 := (items.take i).foldl Item.write stack

/-- A file whose stored name is taken for `name`. -/
def Hit (stack : Int → UInt8) (items : List Item) (name : Name) : Prop :=
  ∃ (i : Nat) (item : Item), items[i]? = some item ∧ item.name?.isSome ∧ sameIgnoringCase (item.write (buffAt stack items i)) 0 name

theorem hit_cons : Hit stack (item :: items) name ↔
    item.name?.isSome ∧ sameIgnoringCase (item.write stack) 0 name ∨ Hit (item.write stack) items name := by
  constructor
  · rintro ⟨i, found, here, isFile, same⟩
    cases i with
    | zero =>
        cases here
        exact .inl ⟨isFile, same⟩
    | succ i => exact .inr ⟨i, found, here, isFile, same⟩
  · rintro (first | ⟨i, found, here, isFile, same⟩)
    · exact ⟨0, item, rfl, first⟩
    · exact ⟨i + 1, found, here, isFile, same⟩

theorem search_items (valid : ∀ item ∈ items, item.Valid) (name : Name) (tail : List (List UInt8)) (stops : Stops tail)
    (ready : s.lfnReady = false) (found : s.foundLastLfnEntry = false) :
    (slotsOf items ++ tail).foldlM (searchSlot name) s = .error true ↔ Hit s.entryName items name := by
  induction items generalizing s with
  | nil =>
      refine ⟨fun ends => ?_, fun ⟨_, _, absent, _⟩ => (by cases absent)⟩
      cases tail with
      | nil => cases ends
      | cons slot tail =>
          rw [slotsOf, List.flatMap_nil, List.nil_append, List.foldlM_cons, searchSlot, if_pos (stops slot rfl)] at ends
          cases ends
  | cons item items ih =>
      obtain ⟨first, later⟩ := List.forall_mem_cons.mp valid
      obtain ⟨n, here⟩ := first.search name ready found
      rw [slotsOf_cons, List.append_assoc, List.foldlM_append, here, hit_cons]
      split_ifs with hit
      · exact ⟨fun _ => .inl hit, fun _ => rfl⟩
      · rw [or_iff_right hit]
        exact ih later (s := ⟨item.write s.entryName, n, false, false⟩) rfl rfl

/-! ## Names that are left open -/

/-- A long name that fills its last piece, in front of a byte of the buffer that is not zero. -/
def Item.LeftOpen (buff : Int → UInt8) : Item → Prop
  | hole _ => False
  | file name long _ => long ≠ [] ∧ name.length % 13 = 0 ∧ buff name.length ≠ 0

theorem Item.Valid.stored {own : Name} (valid : item.Valid) (named : item.name? = some own) (buff : Int → UInt8) :
    (∀ c ∈ own, c ≠ 0) ∧ Starts (item.write buff) own ∧ (item.write buff own.length ≠ 0 ↔ item.LeftOpen buff) := by
  have inside : ∀ {text : Name} {j : Nat}, j < text.length → putText buff 0 text j = text.getD j 0 := by
    intro text j small
    have here := @putText_inside _ _ buff 0 small
    rwa [Int.zero_add] at here
  cases valid with
  | hole => cases named
  | @file own' long short isShort kind =>
      cases named
      cases kind with
      | short nonzero =>
          refine ⟨nonzero, fun j small => ?_, ?_⟩
          · rw [write, Item.stored, if_pos rfl, inside (by rw [List.length_append]; omega), List.getD_eq_getElem?_getD,
              List.getElem?_append_left small, List.getD_eq_getElem?_getD]
          · rw [write, Item.stored, if_pos rfl, inside (by rw [List.length_append, List.length_singleton]; omega)]
            simp [LeftOpen]
      | long group =>
          have some : long ≠ [] := by
            rintro rfl
            have count := group.count
            have pos := List.length_pos_of_ne_nil group.nonempty
            rw [List.length_nil, pieceCount] at count
            omega
          have length := length_storedText own
          rw [write, Item.stored, if_neg some]
          refine ⟨group.nonzero, fun j small => ?_, ?_⟩
          · rw [inside (by have := length_le_stored own; omega), storedText_getD small]
          · rw [pieceCount] at length
            rw [LeftOpen]
            by_cases full : own.length % 13 = 0
            · have outside : putText buff 0 (storedText own) own.length = buff own.length := if_neg (by omega)
              rw [outside]
              exact ⟨fun more => ⟨some, full, more⟩, fun h => h.2.2⟩
            · rw [inside (by omega), storedText_stop]
              exact ⟨fun more => absurd rfl more, fun h => absurd h.2.1 full⟩

/-- No name is left open, when the slots are read in order into the buffer `stack`. -/
def NoneOpen (stack : Int → UInt8) (items : List Item) : Prop :=
  ∀ (i : Nat) (item : Item), items[i]? = some item → ¬ item.LeftOpen (buffAt stack items i)

/-- A file of that name, whatever the case of its letters. -/
def Present (items : List Item) (name : Name) : Prop :=
  ∃ (i : Nat) (item : Item) (own : Name), items[i]? = some item ∧ item.name? = some own ∧ EqualIgnoringCase own name

/-- No two files have the same name up to the case of its letters. -/
def Distinct (items : List Item) : Prop :=
  ∀ (i j : Nat) (item item' : Item) (own own' : Name), items[i]? = some item → items[j]? = some item' → item.name? = some own →
    item'.name? = some own' → EqualIgnoringCase own own' → i = j

theorem Item.Valid.hit_iff {own : Name} (valid : item.Valid) (named : item.name? = some own) (closed : ¬ item.LeftOpen buff)
    (nonzero : ∀ b ∈ name, b ≠ 0) : sameIgnoringCase (item.write buff) 0 name ↔ EqualIgnoringCase own name := by
  obtain ⟨solid, starts, stop⟩ := valid.stored named buff
  exact sameIgnoringCase_closed starts solid (not_not.mp fun more => closed (stop.mp more)) nonzero

theorem NoneOpen.hit_iff (valid : ∀ item ∈ items, item.Valid) (closed : NoneOpen stack items) (nonzero : ∀ b ∈ name, b ≠ 0) :
    Hit stack items name ↔ Present items name := by
  constructor
  · rintro ⟨i, item, here, isFile, same⟩
    obtain ⟨own, named⟩ := Option.isSome_iff_exists.mp isFile
    have item_valid := valid item (List.mem_of_getElem? here)
    exact ⟨i, item, own, here, named, (item_valid.hit_iff named (closed i item here) nonzero).mp same⟩
  · rintro ⟨i, item, own, here, named, same⟩
    have item_valid := valid item (List.mem_of_getElem? here)
    exact ⟨i, item, here, by rw [named]; rfl, (item_valid.hit_iff named (closed i item here) nonzero).mpr same⟩

theorem noneOpen_of_hit (valid : ∀ item ∈ items, item.Valid) (distinct : Distinct items)
    (exact : ∀ name, (∀ b ∈ name, b ≠ 0) → (Hit stack items name ↔ Present items name)) : NoneOpen stack items := by
  have all : ∀ n, ∀ (i : Nat) (item : Item) (own : Name), items[i]? = some item → item.name? = some own → own.length = n →
      ¬ item.LeftOpen (buffAt stack items i) := by
    intro n
    induction n using Nat.strong_induction_on with
    | _ n shorter =>
        intro i item own here named length isOpen
        obtain ⟨solid, -⟩ := (valid item (List.mem_of_getElem? here)).stored named (buffAt stack items i)
        obtain ⟨j, item', here', isFile, same⟩ := (exact own solid).mpr ⟨i, item, own, here, named, rfl⟩
        obtain ⟨own', named'⟩ := Option.isSome_iff_exists.mp isFile
        have valid' := valid item' (List.mem_of_getElem? here')
        by_cases isOpen' : item'.LeftOpen (buffAt stack items j)
        · obtain ⟨solid', starts, stop⟩ := valid'.stored named' (buffAt stack items j)
          have less := sameIgnoringCase_open starts solid' (stop.mpr isOpen') solid same
          exact shorter own'.length (by omega) j item' own' here' named' rfl isOpen'
        · have equal := (valid'.hit_iff named' isOpen' solid).mp same
          obtain rfl := distinct j i item' item own' own here' here named' named equal
          cases here.symm.trans here'
          exact isOpen' isOpen
  intro i item here isOpen
  cases item with
  | hole slot => exact isOpen
  | file own long short => exact all own.length i _ own here rfl rfl isOpen

theorem present_cons : Present (item :: items) name ↔
    (∃ own, item.name? = some own ∧ EqualIgnoringCase own name) ∨ Present items name := by
  constructor
  · rintro ⟨i, found, own, here, named, same⟩
    cases i with
    | zero =>
        cases here
        exact .inl ⟨own, named, same⟩
    | succ i => exact .inr ⟨i, found, own, here, named, same⟩
  · rintro (⟨own, named, same⟩ | ⟨i, found, own, here, named, same⟩)
    · exact ⟨0, item, own, rfl, named, same⟩
    · exact ⟨i + 1, found, own, here, named, same⟩

namespace Disk
variable {d : Disk} {chain : List Nat} {fuel : Nat} {startCluster size : UInt32} {attr : UInt8} {newNode : FsNode} {clock : Clock}

theorem mem_filesFrom (d : Disk) (chain : List Nat) (rootdirCluster : UInt32) (p : Nat) :
    (∃ e ∈ d.filesFrom chain rootdirCluster p items, EqualIgnoringCase e.name name) ↔ Present items name := by
  induction items generalizing p with
  | nil => exact ⟨fun ⟨_, absent, _⟩ => (by cases absent), fun ⟨_, _, _, absent, _⟩ => (by cases absent)⟩
  | cons item items ih =>
      rw [present_cons]
      cases item with
      | hole slot =>
          rw [filesFrom, ih, or_iff_right]
          rintro ⟨own, named, -⟩
          cases named
      | file own long short =>
          rw [filesFrom, ← ih (p + long.length + 1)]
          simp [Item.name?, Item.listed]

/-- What the search answers `ERR_FS_ENTRY_EXISTED` for is what is listed, when no name is left open; and in a directory
without duplicates, only then. -/
theorem duplicate_detection (sized : d.Sized) (dir : d.Directory chain items) (enough : chain.length ≤ fuel)
    (enough' : items.length < fuel) (rootdirCluster : UInt32) (stale : Nat → Stale) (startCluster size : UInt32) (attr : UInt8)
    (newNode : FsNode) (clock : Clock) (stack : Int → UInt8) :
    let Detects := ∀ name, (∀ b ∈ name, b ≠ 0) →
      ((∃ d' node, d.fat32AddEntry fuel (chain.getD 0 0) name startCluster attr size newNode clock stack =
          some (.entryExisted, d', node)) ↔
        ∃ listing, d.listDirectory rootdirCluster fuel stale (chain.getD 0 0) = some listing ∧
          ∃ e ∈ listing, EqualIgnoringCase e.name name)
    (NoneOpen stack items → Detects) ∧ (Distinct items → Detects → NoneOpen stack items) := by
  intro Detects
  have slots := sized.slots
  obtain ⟨tail, all, stops⟩ := dir.slots
  have listing := dir.list sized enough enough' rootdirCluster stale
  have detected : ∀ name, (∃ d' node, d.fat32AddEntry fuel (chain.getD 0 0) name startCluster attr size newNode clock stack =
      some (.entryExisted, d', node)) ↔ Hit stack items name := by
    intro name
    have on := dir.on
    obtain ⟨c₀, cs, rfl⟩ := List.exists_cons_of_ne_nil dir.nonempty
    rw [addEntry_existed, List.getD_cons_zero, findSpace_existed (by omega) on enough, all]
    exact search_items dir.valid name tail stops rfl rfl
  have listed : ∀ name, (∃ listing, d.listDirectory rootdirCluster fuel stale (chain.getD 0 0) = some listing ∧
      ∃ e ∈ listing, EqualIgnoringCase e.name name) ↔ Present items name := by
    intro name
    rw [listing, ← mem_filesFrom d chain rootdirCluster 0]
    exact ⟨fun ⟨_, same, found⟩ => Option.some.inj same ▸ found, fun found => ⟨_, rfl, found⟩⟩
  refine ⟨fun closed name nonzero => ?_, fun distinct detects => ?_⟩
  · rw [detected, listed]
    exact closed.hit_iff dir.valid nonzero
  · refine noneOpen_of_hit dir.valid distinct fun name nonzero => ?_
    rw [← detected, ← listed]
    exact detects name nonzero

-- `abcdefghijklm`
def thirteen : Name := [0x61, 0x62, 0x63, 0x64, 0x65, 0x66, 0x67, 0x68, 0x69, 0x6a, 0x6b, 0x6c, 0x6d]

theorem thirteen_nonzero : ∀ b ∈ thirteen, b ≠ 0 := by
  simp [thirteen]

def thirteenEntry : FatDirectoryEntry :=
  ⟨#v[0x41, 0x42, 0x43, 0x44, 0x45, 0x46, 0x47, 0x48, 0x20, 0x20, 0x20], 0, 0, 0, 0, 0, 0, 0, 0, 0, 3, 0⟩

-- A directory with the file `abcdefghijklm`, whose name fills its only piece.
def thirteenVolume : Disk :=
  { emptyVolume with data := fun c i => if c = 2 then (newSlots thirteen 0 thirteenEntry).flatten.getD i 0 else 0 }

theorem thirteenVolume_holds : lfnEntryCount thirteen = 1 ∧
    thirteenVolume.dirSlots [2] = newSlots thirteen 0 thirteenEntry ++ List.replicate 14 (List.replicate 32 0) ∧
    (thirteenVolume.fat32AddEntry 4 2 thirteen 5 0 10 blankNode ⟨0, 0⟩ fun _ => 0x41).map (·.1) = some .success := by
  decide +kernel

theorem thirteenVolume_directory : thirteenVolume.Directory [2] [newItem thirteen 0 thirteenEntry] := by
  obtain ⟨count, slots, _⟩ := thirteenVolume_holds
  refine ⟨⟨.singleton 2, ?_, List.nodup_singleton 2⟩, by decide, ?_, List.replicate 14 (List.replicate 32 0), ?_, ?_⟩
  · rintro c ⟨⟩
    decide
  · intro item member
    rw [List.mem_singleton.mp member, newItem, newName, count, if_neg Nat.one_ne_zero]
    refine .file ⟨by decide, by decide, by decide⟩ (.long ?_)
    exact lfnSlots_group (by decide) (by decide) thirteen_nonzero _
  · have nothing : slotsOf [] = [] := rfl
    rw [slots, slotsOf_cons, newItem_slots, nothing, List.append_nil]
  · rintro slot ⟨⟩
    rfl

theorem thirteenVolume_listed : ∃ listing, thirteenVolume.listDirectory 2 4 noStale 2 = some listing ∧
    ∃ e ∈ listing, EqualIgnoringCase e.name thirteen := by
  have named : (newItem thirteen 0 thirteenEntry).name? = some thirteen := by
    rw [newItem, newName, thirteenVolume_holds.1, if_neg Nat.one_ne_zero]
    rfl
  exact ⟨_, thirteenVolume_directory.list ⟨by decide, by decide⟩ (by decide) (by decide) 2 noStale,
    (mem_filesFrom ..).mpr ⟨0, _, thirteen, rfl, named, rfl⟩⟩

/-- With a clean stack the name is found. -/
theorem duplicate_detection_thirteen : ∃ d' node,
    thirteenVolume.fat32AddEntry 4 2 thirteen 5 0 10 blankNode ⟨0, 0⟩ (fun _ => 0) = some (.entryExisted, d', node) := by
  have closed : NoneOpen (fun _ => 0) [newItem thirteen 0 thirteenEntry] := by
    intro i item here isOpen
    cases i with
    | zero =>
        cases here
        exact isOpen.2.2 rfl
    | succ i => cases here
  have detects := (duplicate_detection ⟨by decide, by decide⟩ thirteenVolume_directory (show 1 ≤ 4 by decide)
    (show 1 < 4 by decide) 2 noStale 5 10 0 blankNode ⟨0, 0⟩ fun _ => 0).1 closed thirteen thirteen_nonzero
  exact detects.mpr thirteenVolume_listed

/-- With other bytes on the stack it is added a second time. -/
theorem duplicate_not_detected : thirteenVolume.Directory [2] [newItem thirteen 0 thirteenEntry] ∧
    (∃ listing, thirteenVolume.listDirectory 2 4 noStale 2 = some listing ∧ ∃ e ∈ listing, EqualIgnoringCase e.name thirteen) ∧
      ∃ d' node, thirteenVolume.fat32AddEntry 4 2 thirteen 5 0 10 blankNode ⟨0, 0⟩ (fun _ => 0x41) = some (.success, d', node) := by
  refine ⟨thirteenVolume_directory, thirteenVolume_listed, ?_⟩
  obtain ⟨⟨err, d', node⟩, added, success⟩ := Option.map_eq_some_iff.mp thirteenVolume_holds.2.2
  cases success
  exact ⟨d', node, added⟩

end Disk

end Kerosene.Fat32

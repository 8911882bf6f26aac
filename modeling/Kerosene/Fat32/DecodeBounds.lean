import Kerosene.Fat32.DecodeLog

/-!
# Decoding in bounds

The number of a piece says where it goes in the buffer, and it comes from the disk.
-/

namespace Kerosene.Fat32
open Lib
open Ramfs (Name filenameLimit)
variable {s s' : Decoder} {lfn : FatLfnEntry} {log : List Int}

def Inside (writes : List Int) : Prop := ∀ i ∈ writes, 0 ≤ i ∧ i < filenameLimit

structure Log.InBounds (log : Log) : Prop where
  entryName : Inside log.entryName
  name : Inside log.name

/-! ## Where a piece of a long name goes -/

@[simp] theorem inside_nil : Inside [] := List.forall_mem_nil _

theorem inside_append {l r : List Int} : Inside (l ++ r) ↔ Inside l ∧ Inside r := List.forall_mem_append

theorem inside_singleton {i : Int} : Inside [i] ↔ 0 ≤ i ∧ i < filenameLimit := List.forall_mem_singleton

theorem inside_range {n : Nat} (small : n ≤ filenameLimit) : Inside ((List.range n).map Int.ofNat) := by
  intro i member
  obtain ⟨k, below, rfl⟩ := List.mem_map.mp member
  rw [List.mem_range] at below
  exact ⟨Int.natCast_nonneg k, by simp only [Int.ofNat_eq_natCast]; omega⟩

-- the characters of a piece up to the terminator, and the terminator
def unitCount : List UInt16 → Nat
  | [] => 0
  | c :: chars => if c = 0 then 1 else unitCount chars + 1

-- `offset + cnt`, where the buffer has room for the piece
def FatLfnEntry.nameEnd (lfn : FatLfnEntry) : Int := (((lfn.order &&& 0x3f).toNat : Int) - 1) * 13 + unitCount lfn.chars

theorem parseChars_offset (chars : List UInt16) (p : Parse) :
    (parseChars chars p).2.offset - (parseChars chars p).2.cnt = p.offset - p.cnt ∧
      p.offset ≤ (parseChars chars p).2.offset ∧
      ((filenameLimit : Int) ≤ (parseChars chars p).2.offset ↔ (filenameLimit : Int) ≤ p.offset + unitCount chars) := by
  induction chars generalizing p with
  | nil => simp [parseChars, unitCount]
  | cons c chars ih =>
      rw [parseChars, unitCount]
      split_ifs with room last
      · refine ⟨?_, ?_, Iff.rfl⟩ <;> simp only <;> push_cast <;> omega
      · obtain ⟨count, grows, full⟩ := ih ⟨Function.update p.buff p.offset c.toUInt8, p.offset + 1, p.cnt + 1⟩
        simp only at count grows full ⊢
        refine ⟨by push_cast at count; omega, by omega, ?_⟩
        rw [full]
        push_cast
        omega
      · refine ⟨rfl, le_rfl, ?_⟩
        push_cast
        omega
      · refine ⟨rfl, le_rfl, ?_⟩
        push_cast
        omega

theorem loggedChars_writes (chars : List UInt16) (p : Parse) :
    ∀ w ∈ (loggedChars chars p).2, p.offset ≤ w ∧ w < filenameLimit := by
  induction chars generalizing p with
  | nil => exact List.forall_mem_nil _
  | cons c chars ih =>
      rw [loggedChars]
      split_ifs with room last
      · exact List.forall_mem_singleton.mpr ⟨le_rfl, room⟩
      · refine List.forall_mem_cons.mpr ⟨⟨le_rfl, room⟩, fun w member => ?_⟩
        have later := ih _ w member
        simp only at later
        omega
      · exact List.forall_mem_nil _

theorem loggedChars_first {c : UInt16} {chars : List UInt16} {p : Parse} (room : p.offset < filenameLimit) :
    p.offset ∈ (loggedChars (c :: chars) p).2 := by
  rw [loggedChars, if_pos room]
  split_ifs
  · exact List.mem_singleton_self _
  · exact List.mem_cons_self

theorem loggedLfn_writes (lfn : FatLfnEntry) (buff : Int → UInt8) (offset : Int) :
    ∀ w ∈ (loggedLfn lfn buff offset).2, offset ≤ w ∧ w < filenameLimit := by
  have first := loggedChars_writes lfn.chars1.toList ⟨buff, offset, 0⟩
  have one := (parseChars_offset lfn.chars1.toList ⟨buff, offset, 0⟩).2.1
  rw [← loggedChars_erase] at one
  simp only [loggedLfn]
  split_ifs
  · exact first
  all_goals
    have second := loggedChars_writes lfn.chars2.toList (loggedChars lfn.chars1.toList ⟨buff, offset, 0⟩).1.2
    have two := (parseChars_offset lfn.chars2.toList (loggedChars lfn.chars1.toList ⟨buff, offset, 0⟩).1.2).2.1
    rw [← loggedChars_erase] at two
    have second' : ∀ w ∈ _, offset ≤ w ∧ w < _ := fun w member => ⟨one.trans (second w member).1, (second w member).2⟩
  · exact List.forall_mem_append.mpr ⟨first, second'⟩
  · have third := loggedChars_writes lfn.chars3.toList
      (loggedChars lfn.chars2.toList (loggedChars lfn.chars1.toList ⟨buff, offset, 0⟩).1.2).1.2
    refine List.forall_mem_append.mpr ⟨first, List.forall_mem_append.mpr ⟨second', fun w member => ?_⟩⟩
    exact ⟨(one.trans two).trans (third w member).1, (third w member).2⟩

theorem loggedLfn_first (lfn : FatLfnEntry) (buff : Int → UInt8) {offset : Int} (room : offset < filenameLimit) :
    offset ∈ (loggedLfn lfn buff offset).2 := by
  have first : offset ∈ (loggedChars lfn.chars1.toList ⟨buff, offset, 0⟩).2 := by
    have five : lfn.chars1.toList.length = 5 := Vector.length_toList
    obtain ⟨c, chars, cons⟩ := List.exists_cons_of_length_pos (l := lfn.chars1.toList) (by omega)
    rw [cons]
    exact loggedChars_first room
  simp only [loggedLfn]
  split_ifs
  · exact first
  · exact List.mem_append_left _ first
  · exact List.mem_append_left _ first

namespace Decoder

/-- Between two slots: a long name is ready when its first piece was met, and no length is negative. -/
structure Steady (s : Decoder) : Prop where
  ready : s.lfnReady = s.foundLastLfnEntry
  length : 0 ≤ s.namelen

-- Whether the long name in progress, if there is one, leaves room for its terminator in `ret_node->name`.
def lead (s : Decoder) : Option Bool := if s.foundLastLfnEntry then some (s.namelen < filenameLimit) else none

theorem lead_none (steady : s.Steady) : s.lead = none ↔ s.lfnReady = false := by
  rw [lead, steady.ready]
  cases s.foundLastLfnEntry <;> simp

theorem first_inside (fresh : s.foundLastLfnEntry = false) (ordered : lfn.order &&& 0x3f ≠ 0) :
    Inside (s.loggedLfnEntry lfn).2 ∧ (s.loggedLfnEntry lfn).1.Steady ∧
      (s.loggedLfnEntry lfn).1.lead = some (decide (lfn.nameEnd < filenameLimit)) := by
  have order : 1 ≤ (lfn.order &&& 0x3f).toNat := by
    by_contra zero
    exact ordered (UInt8.toNat_inj.mp (show _ = 0 by omega))
  let offset : Int := (((lfn.order &&& 0x3f).toNat : Int) - 1) * 13
  have writes := loggedLfn_writes lfn s.entryName offset
  obtain ⟨count, grows, full⟩ := parseChars_offset lfn.chars ⟨s.entryName, offset, 0⟩
  rw [← parseLfn_eq, ← loggedLfn_erase] at count grows full
  have start : 0 ≤ offset := by simp only [offset]; omega
  have ends : lfn.nameEnd = offset + unitCount lfn.chars := rfl
  have inside : Inside (loggedLfn lfn s.entryName offset).2 :=
    fun w member => ⟨start.trans (writes w member).1, (writes w member).2⟩
  simp only at count grows full
  simp only [loggedLfnEntry, fresh, Bool.not_false, if_true]
  split_ifs with long
  · refine ⟨inside_append.mpr ⟨inside, inside_singleton.mpr (by decide)⟩, ⟨rfl, Int.natCast_nonneg _⟩, ?_⟩
    have past : ¬ lfn.nameEnd < filenameLimit := by
      simp only [offset] at *
      push_cast at *
      omega
    rw [lead, if_pos rfl, decide_eq_false past]
    rfl
  · refine ⟨inside, ⟨rfl, ?_⟩, ?_⟩
    · simp only [offset] at *
      omega
    · have fits : lfn.nameEnd < filenameLimit := by
        simp only [offset] at *
        push_cast at *
        omega
      rw [lead, if_pos rfl, decide_eq_true fits]
      have below : offset + (loggedLfn lfn s.entryName offset).1.cnt < filenameLimit := not_le.mp long
      exact congrArg some (decide_eq_true below)

theorem first_outside (fresh : s.foundLastLfnEntry = false) (zero : lfn.order &&& 0x3f = 0) :
    ¬ Inside (s.loggedLfnEntry lfn).2 := by
  have first : (-13 : Int) ∈ (loggedLfn lfn s.entryName (-13)).2 := loggedLfn_first lfn s.entryName (by decide)
  have written : (-13 : Int) ∈ (s.loggedLfnEntry lfn).2 := by
    simp only [loggedLfnEntry, fresh, Bool.not_false, if_true, zero]
    split_ifs
    · exact List.mem_append_left _ first
    · exact first
  intro inside
  exact absurd (inside _ written).1 (by decide)

theorem later_inside (found : s.foundLastLfnEntry = true) (steady : s.Steady) (used : lfn.order ≠ 0) :
    Inside (s.loggedLfnEntry lfn).2 ∧ (s.loggedLfnEntry lfn).1.Steady ∧ (s.loggedLfnEntry lfn).1.lead = s.lead := by
  have order : 1 ≤ lfn.order.toNat := by
    by_contra zero
    exact used (UInt8.toNat_inj.mp (show _ = 0 by omega))
  have writes := loggedLfn_writes lfn s.entryName (((lfn.order.toNat : Int) - 1) * 13)
  simp only [loggedLfnEntry, found, Bool.not_true, Bool.false_eq_true, if_false]
  refine ⟨fun w member => ?_, ⟨rfl, steady.length⟩, by rw [lead, lead, found]⟩
  have := writes w member
  omega

theorem nameWrites_inside : Inside s.nameWrites ↔ 0 ≤ s.namelen ∧ s.namelen < filenameLimit := by
  rw [nameWrites, inside_append, inside_singleton, and_iff_right_iff_imp]
  rintro ⟨positive, small⟩
  apply inside_range
  have limit : (filenameLimit : Int) = 256 := rfl
  rw [toUnsigned, filenameLimit]
  omega

theorem shortText_length (dir : FatDirectoryEntry) :
    0 < (s.processSfnEntry dir).namelen ∧ (s.processSfnEntry dir).namelen ≤ 13 := by
  have base := ((dir.name.toList.take 8).takeWhile_sublist (· ≠ 0x20)).length_le
  have ext := ((dir.name.toList.drop 8).takeWhile_sublist (· ≠ 0x20)).length_le
  rw [List.length_take, Vector.length_toList] at base
  rw [List.length_drop, Vector.length_toList] at ext
  simp only [processSfnEntry]
  split_ifs
  · rw [List.length_append, List.length_singleton]
    push_cast
    omega
  · rw [List.length_append, List.length_append, List.length_cons, List.length_singleton]
    push_cast
    omega

theorem short_inside (steady : s.Steady) (dir : FatDirectoryEntry) :
    Inside (s.loggedShort dir).2 ∧ (Inside (s.loggedShort dir).1.nameWrites ↔ s.lead ≠ some false) ∧
      0 ≤ (s.loggedShort dir).1.namelen := by
  rw [loggedShort]
  by_cases ready : s.lfnReady = true
  · rw [if_pos ready]
    refine ⟨inside_nil, ?_, steady.length⟩
    rw [nameWrites_inside, lead, if_pos (steady.ready ▸ ready)]
    simp [steady.length]
  · have none := (lead_none steady).mpr (Bool.eq_false_iff.mpr ready)
    have length := shortText_length (s := s) dir
    have limit : filenameLimit = 256 := rfl
    rw [if_neg ready, none]
    refine ⟨inside_range (by rw [limit]; omega), iff_of_true ?_ (by rintro ⟨⟩), length.1.le⟩
    rw [nameWrites_inside, limit]
    change 0 ≤ (s.processSfnEntry dir).namelen ∧ _
    exact ⟨length.1.le, by
      change (s.processSfnEntry dir).namelen < _
      push_cast
      omega⟩

end Decoder

/-! ## Long names that fit -/

/-- What a call of `fat32_iterate_directory` finds: the first piece of the name has a place in the buffer, and the entry
behind the name can be returned. -/
def CallFits : Option Bool → List (List UInt8) → Prop
  | _, [] => True
  | lead, slot :: slots =>
      if slot.getD 0 0 = 0x00 then True
      else if slot.getD 0 0 = 0xe5 then CallFits lead slots
      else if slot.getD 11 0 = 0x0f then
        (lead = none → slot.getD 0 0 &&& 0x3f ≠ 0) ∧
          CallFits (some (lead.getD ((FatLfnEntry.ofBytes slot).nameEnd < filenameLimit))) slots
      else lead ≠ some false

/-- The same for all entries up to the first slot that was never used. -/
def NamesFit : Option Bool → List (List UInt8) → Prop
  | _, [] => True
  | lead, slot :: slots =>
      if slot.getD 0 0 = 0x00 then True
      else if slot.getD 0 0 = 0xe5 then NamesFit lead slots
      else if slot.getD 11 0 = 0x0f then
        (lead = none → slot.getD 0 0 &&& 0x3f ≠ 0) ∧
          NamesFit (some (lead.getD ((FatLfnEntry.ofBytes slot).nameEnd < filenameLimit))) slots
      else lead ≠ some false ∧ NamesFit none slots

instance namesFitDecidable : (lead : Option Bool) → (slots : List (List UInt8)) → Decidable (NamesFit lead slots)
  | _, [] => inferInstanceAs (Decidable True)
  | lead, slot :: slots =>
      have : Decidable (NamesFit lead slots) := namesFitDecidable lead slots
      have : Decidable (NamesFit none slots) := namesFitDecidable none slots
      have : Decidable (NamesFit (some (lead.getD ((FatLfnEntry.ofBytes slot).nameEnd < filenameLimit))) slots) :=
        namesFitDecidable _ slots
      decidable_of_iff' _ (iff_of_eq (NamesFit.eq_2 lead slot slots))

/-- Slot `k` is the one behind a directory entry, in front of the slots that were never used. -/
def Resumes (slots : List (List UInt8)) (k : Nat) : Prop :=
  (∀ slot ∈ slots.take k, slot.getD 0 0 ≠ 0x00) ∧ ∃ j slot, k = j + 1 ∧ slots[j]? = some slot ∧ Item.Short slot

variable {slots rest : List (List UInt8)} {slot : List UInt8} {lead : Option Bool} {directory : Bytes} {n i k : Nat}

theorem resumes_cons (used : slot.getD 0 0 ≠ 0x00) (k : Nat) :
    Resumes (slot :: slots) (k + 1) ↔ k = 0 ∧ Item.Short slot ∨ Resumes slots k := by
  rw [Resumes, Resumes, List.take_succ_cons, List.forall_mem_cons]
  constructor
  · rintro ⟨⟨-, before⟩, j, short, same, here, isShort⟩
    cases j with
    | zero =>
        cases here
        exact .inl ⟨Nat.succ.inj same, isShort⟩
    | succ j => exact .inr ⟨before, j, short, Nat.succ.inj same, here, isShort⟩
  · rintro (⟨rfl, isShort⟩ | ⟨before, j, short, rfl, here, isShort⟩)
    · exact ⟨⟨used, List.forall_mem_nil _⟩, 0, slot, rfl, rfl, isShort⟩
    · exact ⟨⟨used, before⟩, j + 1, short, rfl, here, isShort⟩

theorem forall_resumes_cons (used : slot.getD 0 0 ≠ 0x00) :
    (∀ k, Resumes (slot :: slots) k → CallFits none ((slot :: slots).drop k)) ↔
    (Item.Short slot → CallFits none slots) ∧ ∀ k, Resumes slots k → CallFits none (slots.drop k) := by
  constructor
  · intro all
    exact ⟨fun isShort => all 1 ((resumes_cons used 0).mpr (.inl ⟨rfl, isShort⟩)),
      fun k resumes => all (k + 1) ((resumes_cons used k).mpr (.inr resumes))⟩
  · rintro ⟨first, later⟩ k resumes
    cases k with
    | zero =>
        obtain ⟨-, j, _, absurd, -⟩ := resumes
        cases absurd
    | succ k =>
        rcases (resumes_cons used k).mp resumes with ⟨rfl, isShort⟩ | resumes
        · exact first isShort
        · exact later k resumes

theorem namesFit_iff : NamesFit lead slots ↔
    CallFits lead slots ∧ ∀ k, Resumes slots k → CallFits none (slots.drop k) := by
  induction slots generalizing lead with
  | nil => simp [NamesFit, CallFits]
  | cons slot slots ih =>
      rw [NamesFit, CallFits]
      by_cases free : slot.getD 0 0 = 0x00
      · rw [if_pos free, if_pos free]
        refine ⟨fun _ => ⟨trivial, ?_⟩, fun _ => trivial⟩
        rintro k ⟨before, j, _, rfl, -⟩
        exact absurd free (before slot (by rw [List.take_succ_cons]; exact List.mem_cons_self))
      · rw [if_neg free, if_neg free, forall_resumes_cons free]
        by_cases deleted : slot.getD 0 0 = 0xe5
        · rw [if_pos deleted, if_pos deleted, ih]
          exact and_congr_right' (iff_and_self.mpr fun _ isShort => absurd deleted isShort.kept)
        · rw [if_neg deleted, if_neg deleted]
          by_cases isLfn : slot.getD 11 0 = 0x0f
          · rw [if_pos isLfn, if_pos isLfn]
            have noShort : ¬ Item.Short slot := fun isShort => isShort.attr isLfn
            rw [ih, and_assoc]
            simp only [noShort, false_implies, true_and]
          · rw [if_neg isLfn, if_neg isLfn, ih]
            have isShort : Item.Short slot := ⟨free, deleted, isLfn⟩
            simp only [isShort, true_implies]

/-! ## Scans -/

theorem loggedScan_log (directory : Bytes) (n i : Nat) (s : Decoder) (log : List Int) :
    Inside (loggedScan directory n i s log).2 → Inside log := by
  induction n generalizing i s log with
  | zero => exact id
  | succ n ih =>
      rw [loggedScan]
      split_ifs
      · exact id
      · exact ih _ _ _
      · exact fun inside => (inside_append.mp (ih _ _ _ inside)).1
      · exact fun inside => (inside_append.mp inside).1

theorem slotAt_order (directory : Bytes) (i : Nat) : (FatLfnEntry.ofBytes (slotAt directory i)).order = directory i := by
  rw [FatLfnEntry.order_ofBytes, slotAt_getD (by decide), Nat.add_zero]

theorem Decoder.lfnEntry_steady (steady : s.Steady) (used : lfn.order ≠ 0) (inside : Inside (s.loggedLfnEntry lfn).2) :
    (s.loggedLfnEntry lfn).1.Steady := by
  cases found : s.foundLastLfnEntry with
  | false => exact (first_inside found fun zero => first_outside found zero inside).2.1
  | true => exact (later_inside found steady used).2.1

theorem loggedScan_steady {log' : List Int} (steady : s.Steady) (passed : loggedScan directory n i s log = (.ended s', log'))
    (inside : Inside log') : s'.Steady := by
  induction n generalizing i s log with
  | zero =>
      cases passed
      exact steady
  | succ n ih =>
      rw [loggedScan] at passed
      split_ifs at passed with free deleted isLfn
      · cases passed
      · exact ih steady passed
      · change loggedScan directory n (i + 32) (s.loggedLfnEntry _).1 (log ++ (s.loggedLfnEntry _).2) = _ at passed
        refine ih (Decoder.lfnEntry_steady steady (by rwa [slotAt_order]) ?_) passed
        have all := loggedScan_log directory n (i + 32) _ _ (by rw [passed]; exact inside)
        exact (inside_append.mp all).2
      · cases passed

-- What a scan has written, and what is to come.
def ScanFits (rest : List (List UInt8)) : Scan × List Int → Prop
  | (.ended s, log) => Inside log ∧ CallFits s.lead rest
  | (.free, log) => Inside log
  | (.entry _ s _, log) => Inside log ∧ Inside s.nameWrites

theorem ScanFits.written {r : Scan × List Int} (fits : ScanFits rest r) : Inside r.2 := by
  match r with
  | (.ended s, log) => exact fits.1
  | (.free, log) => exact fits
  | (.entry _ s _, log) => exact fits.1

theorem loggedScan_fits (steady : s.Steady) (rest : List (List UInt8)) :
    ScanFits rest (loggedScan directory n i s log) ↔ Inside log ∧ CallFits s.lead (slotsFrom directory i n ++ rest) := by
  induction n generalizing i s log with
  | zero => exact Iff.rfl
  | succ n ih =>
      have head : (slotAt directory i).getD 0 0 = directory i := slotAt_getD (by decide) directory i
      have attr : (slotAt directory i).getD 11 0 = directory (i + 11) := slotAt_getD (by decide) directory i
      rw [slotsFrom_succ, List.cons_append, loggedScan, CallFits, head, attr]
      by_cases free : directory i = 0x00
      · rw [if_pos free, if_pos free]
        exact (and_iff_left trivial).symm
      rw [if_neg free, if_neg free]
      by_cases deleted : directory i = 0xe5
      · rw [if_pos deleted, if_pos deleted]
        exact ih steady
      rw [if_neg deleted, if_neg deleted]
      by_cases isLfn : directory (i + 11) = 0x0f
      · rw [if_pos isLfn, if_pos isLfn]
        have order := slotAt_order directory i
        simp only
        cases found : s.foundLastLfnEntry with
        | false =>
            have none : s.lead = none := by rw [Decoder.lead, found]; rfl
            rw [none]
            by_cases zero : directory i &&& 0x3f = 0
            · have outside := Decoder.first_outside found (by rw [order]; exact zero)
              refine iff_of_false (fun fits => outside ?_) fun fits => fits.2.1 rfl zero
              exact (inside_append.mp (loggedScan_log _ _ _ _ _ fits.written)).2
            · obtain ⟨inside, steady', lead'⟩ := Decoder.first_inside found
                (by rw [order]; exact zero)
              rw [ih steady', inside_append, lead', and_iff_left inside]
              exact and_congr_right' (and_iff_right fun _ => zero).symm
        | true =>
            have some : s.lead = some (decide (s.namelen < filenameLimit)) := by rw [Decoder.lead, found]; rfl
            obtain ⟨inside, steady', lead'⟩ := Decoder.later_inside found steady
              (by rw [order]; exact free)
            rw [ih steady', inside_append, lead', and_iff_left inside, some]
            exact and_congr_right' (and_iff_right (by rintro ⟨⟩)).symm
      · rw [if_neg isLfn, if_neg isLfn]
        obtain ⟨writes, name, -⟩ := Decoder.short_inside steady (.ofBytes (slotAt directory i))
        simp only [ScanFits]
        rw [inside_append, and_iff_left writes, name]

namespace Disk
variable {d : Disk} {c fuel p : Nat} {cs chain : List Nat} {rootdirCluster : UInt32} {ret : FsNode} {name : Name}
  {r : DirErr × Option (DirectoryIterator × FsNode)} {writes : Log}

theorem loggedLoop_log (done : d.loggedLoop rootdirCluster ret fuel c i s log = some (r, writes)) :
    Inside writes.entryName → Inside log := by
  induction fuel generalizing c i s log with
  | zero => cases done
  | succ fuel ih =>
      have grows := loggedScan_log (d.data c) (d.slotCount i) i s log
      rw [loggedLoop] at done
      generalize loggedScan (d.data c) (d.slotCount i) i s log = scanned at grows done
      obtain ⟨scan, log'⟩ := scanned
      cases scan with
      | free =>
          cases done
          exact grows
      | entry i s dir =>
          cases done
          exact grows
      | ended s =>
          simp only at done
          split_ifs at done
          · cases done
            exact grows
          · cases done
            exact grows
          · exact fun inside => grows (ih done inside)

theorem loggedLoop_fits (on : d.DirChain (c :: cs)) (inside : k ≤ d.slotsPerCluster) (steady : s.Steady)
    (done : d.loggedLoop rootdirCluster ret fuel c (32 * k) s log = some (r, writes)) :
    writes.InBounds ↔ Inside log ∧ CallFits s.lead ((d.dirSlots (c :: cs)).drop k) := by
  induction fuel generalizing c cs k s log with
  | zero => cases done
  | succ fuel ih =>
      have fits := @loggedScan_fits s log (d.data c) (d.slotsPerCluster - k) (32 * k) steady (d.dirSlots cs)
      have after := fun s' log' => @loggedScan_steady s s' log (d.data c) (d.slotsPerCluster - k) (32 * k) log' steady
      have row : slotsFrom (d.data c) (32 * k) (d.slotsPerCluster - k) ++ d.dirSlots cs = (d.dirSlots (c :: cs)).drop k := by
        rw [dirSlots_cons, List.drop_append_of_le_length (by rw [length_clusterSlots]; exact inside), clusterSlots,
          drop_slotsFrom, Nat.zero_add]
      rw [row] at fits
      rw [← fits]
      rw [loggedLoop, slotCount_eq] at done
      generalize loggedScan (d.data c) (d.slotsPerCluster - k) (32 * k) s log = scanned at after done ⊢
      obtain ⟨scan, log'⟩ := scanned
      cases scan with
      | free =>
          cases done
          exact ⟨fun all => all.entryName, fun all => ⟨all, inside_nil⟩⟩
      | entry i s dir =>
          cases done
          exact ⟨fun all => ⟨all.entryName, all.name⟩, fun all => ⟨all.1, all.2⟩⟩
      | ended s' =>
          simp only [ScanFits]
          simp only at done
          cases cs with
          | nil =>
              rw [if_pos (on.ends c rfl)] at done
              cases done
              exact ⟨fun all => ⟨all.entryName, trivial⟩, fun all => ⟨all.1, inside_nil⟩⟩
          | cons c₂ cs =>
              obtain ⟨link, notEnd, notBad⟩ := on.linked.next
              rw [link, if_neg notEnd, if_neg notBad] at done
              by_cases within : Inside log'
              · exact ih on.tail (k := 0) (Nat.zero_le _) (after s' log' rfl within) done
              · exact iff_of_false (fun all => within (loggedLoop_log done all.entryName)) fun all => within all.1

theorem loggedLoop_at (on : d.DirChain chain) (inside : p < (d.dirSlots chain).length) (steady : s.Steady)
    (done : d.loggedLoop rootdirCluster ret fuel (d.clusterOf chain p) (d.indexOf p) s log = some (r, writes)) :
    writes.InBounds ↔ Inside log ∧ CallFits s.lead ((d.dirSlots chain).drop p) := by
  obtain ⟨cs, _, on', _, column, slots⟩ := on.row inside
  rw [indexOf] at done
  have fits := loggedLoop_fits on' column.le steady done
  rwa [slots] at fits

theorem loggedIterate_fits (sized : d.Sized) (on : d.DirChain chain) (nonempty : chain ≠ [])
    (inside : p ≤ (d.dirSlots chain).length) {entryName : Int → UInt8}
    (done : d.loggedIterate rootdirCluster fuel (d.iterAt chain p) ret entryName = some (r, writes)) :
    writes.InBounds ↔ CallFits none ((d.dirSlots chain).drop p) := by
  have steady : (Decoder.start entryName).Steady := ⟨rfl, le_rfl⟩
  have run := fun within => @loggedLoop_at _ [] d fuel p chain rootdirCluster ret r writes on within steady
  simp only [loggedIterate] at done
  cases iterAt_starts sized on nonempty inside with
  | here within room cluster index =>
      rw [if_neg (not_le.mpr room), cluster, index] at done
      exact (run within done).trans (and_iff_right inside_nil)
  | next within past link notEnd notBad index =>
      rw [if_pos past, link, if_neg notEnd, if_neg notBad, ← index] at done
      exact (run within done).trans (and_iff_right inside_nil)
  | atEnd all past last =>
      rw [if_pos past, if_pos last] at done
      cases done
      rw [all, List.drop_length]
      exact iff_of_true ⟨inside_nil, inside_nil⟩ trivial

end Disk

/-! ## The duplicate search -/

theorem loggedSearch_inside {name : Name} (steady : s.Steady) (inside : Inside log)
    (fits : NamesFit s.lead (slotsFrom directory i n ++ rest)) :
    Inside (loggedSearch name directory n i s log).2 ∧
      ∀ s', (loggedSearch name directory n i s log).1 = .ended s' → s'.Steady ∧ NamesFit s'.lead rest := by
  induction n generalizing i s log with
  | zero =>
      refine ⟨inside, ?_⟩
      rintro _ ⟨⟩
      exact ⟨steady, fits⟩
  | succ n ih =>
      have head : (slotAt directory i).getD 0 0 = directory i := slotAt_getD (by decide) directory i
      have attr : (slotAt directory i).getD 11 0 = directory (i + 11) := slotAt_getD (by decide) directory i
      rw [slotsFrom_succ, List.cons_append, NamesFit, head, attr] at fits
      rw [loggedSearch]
      by_cases free : directory i = 0x00
      · rw [if_pos free]
        exact ⟨inside, by rintro _ ⟨⟩⟩
      rw [if_neg free] at fits ⊢
      by_cases deleted : directory i = 0xe5
      · rw [if_pos deleted] at fits ⊢
        exact ih steady inside fits
      rw [if_neg deleted] at fits ⊢
      by_cases isLfn : directory (i + 11) = 0x0f
      · rw [if_pos isLfn] at fits ⊢
        have order := slotAt_order directory i
        simp only
        cases found : s.foundLastLfnEntry with
        | false =>
            have none : s.lead = none := by rw [Decoder.lead, found]; rfl
            rw [none] at fits
            obtain ⟨writes, steady', lead'⟩ := Decoder.first_inside found
              (by rw [order]; exact fits.1 rfl)
            refine ih steady' (inside_append.mpr ⟨inside, writes⟩) ?_
            rw [lead']
            exact fits.2
        | true =>
            have some : s.lead = some (decide (s.namelen < filenameLimit)) := by rw [Decoder.lead, found]; rfl
            obtain ⟨writes, steady', lead'⟩ := Decoder.later_inside found steady
              (by rw [order]; exact free)
            refine ih steady' (inside_append.mpr ⟨inside, writes⟩) ?_
            rw [lead', some]
            rw [some] at fits
            exact fits.2
      · rw [if_neg isLfn] at fits ⊢
        obtain ⟨writes, -, length⟩ := Decoder.short_inside steady (.ofBytes (slotAt directory i))
        simp only
        split_ifs with same
        · exact ⟨inside_append.mpr ⟨inside, writes⟩, by rintro _ ⟨⟩⟩
        · exact ih ⟨rfl, length⟩ (inside_append.mpr ⟨inside, writes⟩) fits.2

namespace Disk
variable {d : Disk} {c fuel p : Nat} {cs chain : List Nat} {name : Name} {r : DirErr × Disk × Cursor} {writes : List Int}

theorem loggedFindSpace_new (pos : 0 < d.clusterSize)
    (done : loggedFindSpace name fuel d c true s log = some (r, writes)) : writes = log := by
  cases fuel with
  | zero => cases done
  | succ fuel =>
      obtain ⟨n, count⟩ : ∃ n, d.slotCount 0 = n + 1 := Nat.exists_eq_add_one.mpr (by rw [slotCount]; omega)
      rw [loggedFindSpace, count, if_pos rfl, loggedSearch, if_pos rfl] at done
      cases done
      rfl

theorem loggedFindSpace_inside (sized : d.Sized) (on : d.DirChain (c :: cs)) (steady : s.Steady) (inside : Inside log)
    (fits : NamesFit s.lead (d.dirSlots (c :: cs)))
    (done : loggedFindSpace name fuel d c false s log = some (r, writes)) : Inside writes := by
  induction fuel generalizing c cs s log with
  | zero => cases done
  | succ fuel ih =>
      have slots := sized.slots
      have size := d.clusterSize_eq
      have count : d.slotCount 0 = d.slotsPerCluster := slotCount_eq d 0
      rw [dirSlots_cons, clusterSlots] at fits
      obtain ⟨within, later⟩ := loggedSearch_inside steady inside fits
      rw [loggedFindSpace, if_neg Bool.false_ne_true, count] at done
      generalize loggedSearch name (d.data c) d.slotsPerCluster 0 s log = searched at within later done
      obtain ⟨search, log'⟩ := searched
      cases search with
      | existed =>
          cases done
          exact within
      | free startIndex =>
          cases done
          exact within
      | ended s' =>
          obtain ⟨steady', fits'⟩ := later s' rfl
          simp only at done
          cases cs with
          | nil =>
              rw [if_pos (on.ends c rfl)] at done
              cases expanded : d.expandChain c 1 with
              | none =>
                  rw [expanded] at done
                  cases done
              | some result =>
                  obtain ⟨newCluster, d'⟩ := result
                  rw [expanded] at done
                  simp only at done
                  split_ifs at done with full
                  · cases done
                    exact within
                  · obtain ⟨⟨_, fat⟩, -, same⟩ := Option.map_eq_some_iff.mp expanded
                    cases same
                    rw [loggedFindSpace_new (by change 0 < d.clusterSize; omega) done]
                    exact within
          | cons c₂ cs =>
              obtain ⟨link, notEnd, -⟩ := on.linked.next
              rw [link, if_neg notEnd] at done
              exact ih on.tail steady' within fits' done

/-! ## A directory that is decoded in bounds -/

/-- In bounds are the calls of `fat32_iterate_directory` that list the directory, and the search for any name. -/
structure DecodesInBounds (d : Disk) (chain : List Nat) : Prop where
  iterate : ∀ k ≤ (d.dirSlots chain).length, k = 0 ∨ Resumes (d.dirSlots chain) k →
    ∀ fuel rootdirCluster ret stack r writes,
      d.loggedIterate rootdirCluster fuel (d.iterAt chain k) ret stack = some (r, writes) → writes.InBounds
  search : ∀ fuel name stack r writes,
    loggedFindSpace name fuel d (chain.getD 0 0) false (.start stack) [] = some (r, writes) → Inside writes

/-- The decoding stays in bounds exactly when no long name starts with a piece that has no number, and those that belong to
an entry leave room for a terminator. -/
theorem decodes_in_bounds_iff (sized : d.Sized) (on : d.DirChain chain) (nonempty : chain ≠ []) :
    d.DecodesInBounds chain ↔ NamesFit none (d.dirSlots chain) := by
  constructor
  · intro bounds
    have call : ∀ k ≤ (d.dirSlots chain).length, k = 0 ∨ Resumes (d.dirSlots chain) k →
        CallFits none ((d.dirSlots chain).drop k) := by
      intro k inside start
      let blank : FsNode := ⟨fun _ => 0, 0, 0, 0, 0, 0, 0, 0, 0, 0⟩
      have result := iterateDirectory_eq sized on nonempty inside le_rfl 0 blank fun _ => 0
      rw [← loggedIterate_erase] at result
      obtain ⟨⟨r, writes⟩, done, -⟩ := Option.map_eq_some_iff.mp result
      exact (loggedIterate_fits sized on nonempty inside done).mp (bounds.iterate k inside start _ _ _ _ r writes done)
    rw [namesFit_iff]
    refine ⟨call 0 (Nat.zero_le _) (.inl rfl), fun k resumes => ?_⟩
    obtain ⟨-, j, slot, rfl, here, -⟩ := id resumes
    exact call (j + 1) (List.getElem?_eq_some_iff.mp here).1 (.inr resumes)
  · intro fits
    refine ⟨fun k inside start fuel rootdirCluster ret stack r writes done => ?_, fun fuel name stack r writes done => ?_⟩
    · rw [loggedIterate_fits sized on nonempty inside done]
      obtain ⟨first, later⟩ := namesFit_iff.mp fits
      rcases start with rfl | resumes
      · exact first
      · exact later k resumes
    · obtain ⟨c, cs, rfl⟩ := List.exists_cons_of_ne_nil nonempty
      exact loggedFindSpace_inside (s := .start stack) sized on ⟨rfl, le_rfl⟩ inside_nil fits done

def oneCluster (slots : List UInt8) : Disk where
  fat := ⟨fun c => if c = 2 then 0x0ffffff8#32 else 0, 8, 3, 7⟩
  sectorsPerCluster := 1
  data := fun c i => if c = 2 then slots.getD i 0 else 0

theorem oneCluster_chain (slots : List UInt8) : (oneCluster slots).DirChain [2] where
  linked := .singleton 2
  ends := by
    rintro c ⟨⟩
    change fatEoc ≤ (0x0ffffff8#32 &&& 0x0fffffff#32).toNat
    decide
  nodup := List.nodup_singleton 2

-- `minutes of the day.txt` in two pieces, and the start of its directory entry
def minutes : List UInt8 :=
  [0x42, 0x65, 0x00, 0x20, 0x00, 0x64, 0x00, 0x61, 0x00, 0x79, 0x00, 0x0f, 0x00, 0xca, 0x2e, 0x00,
    0x74, 0x00, 0x78, 0x00, 0x74, 0x00, 0x00, 0x00, 0xff, 0xff, 0x00, 0x00, 0xff, 0xff, 0xff, 0xff,
    0x01, 0x6d, 0x00, 0x69, 0x00, 0x6e, 0x00, 0x75, 0x00, 0x74, 0x00, 0x0f, 0x00, 0xca, 0x65, 0x00,
    0x73, 0x00, 0x20, 0x00, 0x6f, 0x00, 0x66, 0x00, 0x20, 0x00, 0x00, 0x00, 0x74, 0x00, 0x68, 0x00,
    0x4d, 0x49, 0x4e, 0x55, 0x54, 0x45, 0x7e, 0x31, 0x54, 0x58, 0x54, 0x20]

theorem decodes_in_bounds_two_pieces : (oneCluster minutes).DecodesInBounds [2] :=
  (decodes_in_bounds_iff ⟨by decide, by decide⟩ (oneCluster_chain minutes) (by decide)).mpr (by decide +kernel)

-- The first piece of a name of 255 characters, and a directory entry.
def fullName : List UInt8 :=
  [0x54, 0x41, 0x00, 0x41, 0x00, 0x41, 0x00, 0x41, 0x00, 0x41, 0x00, 0x0f, 0x00, 0x00, 0x41, 0x00, 0x41, 0x00, 0x41, 0x00,
    0x00, 0x00, 0xff, 0xff, 0xff, 0xff, 0x00, 0x00, 0xff, 0xff, 0xff, 0xff] ++ List.replicate 32 0x41

theorem full_name_out_of_bounds : ¬ (oneCluster fullName).DecodesInBounds [2] := by
  intro bounds
  let blank : FsNode := ⟨fun _ => 0, 0, 0, 0, 0, 0, 0, 0, 0, 0⟩
  have written : ((oneCluster fullName).loggedIterate 2 1 ((oneCluster fullName).iterAt [2] 0) blank fun _ => 0).map
      (fun result => result.2.name.getLast?) = some (some 256) := by decide
  obtain ⟨⟨r, writes⟩, done, last⟩ := Option.map_eq_some_iff.mp written
  have inside := (bounds.iterate 0 (Nat.zero_le _) (.inl rfl) _ _ _ _ r writes done).name
  exact absurd (inside 256 (List.mem_of_getLast? last)).2 (by decide)

end Disk

end Kerosene.Fat32

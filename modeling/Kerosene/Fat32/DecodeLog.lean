import Kerosene.Fat32.DirectoryAdd
import Kerosene.Fat32.Listing

/-!
# Where a decoded name is written

The functions that decode the names of a directory, with the indices of `entry_name` and of `ret_node->name` that
they write, in that order.
-/

namespace Kerosene.Fat32
open Lib
open Ramfs (Name filenameLimit)

structure Log where
  entryName : List Int
  name : List Int

/-! ## The functions with their writes -/

def loggedChars : List UInt16 → Parse → (Bool × Parse) × List Int
  | [], p => ((false, p), [])
  | c :: chars, p =>
      if p.offset < filenameLimit then
        let next : Parse := ⟨Function.update p.buff p.offset c.toUInt8, p.offset + 1, p.cnt + 1⟩
        if c = 0 then ((true, next), [p.offset])
        else
          let (r, writes) := loggedChars chars next
          (r, p.offset :: writes)
      else ((false, p), [])

def loggedLfn (lfn : FatLfnEntry) (buff : Int → UInt8) (offset : Int) : Parse × List Int :=
  let ((done, p), first) := loggedChars lfn.chars1.toList ⟨buff, offset, 0⟩
  if done then (p, first)
  else
    let ((done, p), second) := loggedChars lfn.chars2.toList p
    if done then (p, first ++ second)
    else
      let ((_, p), third) := loggedChars lfn.chars3.toList p
      (p, first ++ (second ++ third))

namespace Decoder

def loggedLfnEntry (s : Decoder) (lfn : FatLfnEntry) : Decoder × List Int :=
  let lastLfnEntry := !s.foundLastLfnEntry
  let order : UInt8 := if lastLfnEntry then lfn.order &&& 0x3f else lfn.order
  let offset : Int := ((order.toNat : Int) - 1) * 13
  let (p, writes) := loggedLfn lfn s.entryName offset
  if lastLfnEntry then
    if offset + p.cnt ≥ filenameLimit then
      (⟨Function.update p.buff (filenameLimit - 1) 0, filenameLimit, true, true⟩, writes ++ [(filenameLimit : Int) - 1])
    else (⟨p.buff, offset + p.cnt, true, true⟩, writes)
  else ({ s with entryName := p.buff, lfnReady := true }, writes)

-- the characters from `entry_name[0]` on, and `namelen` counts them
def loggedSfnEntry (s : Decoder) (dir : FatDirectoryEntry) : Decoder × List Int :=
  let s' := s.processSfnEntry dir
  (s', (List.range s'.namelen.toNat).map Int.ofNat)

-- a long name is ready, or the short name is taken
def loggedShort (s : Decoder) (dir : FatDirectoryEntry) : Decoder × List Int :=
  if s.lfnReady then (s, []) else s.loggedSfnEntry dir

-- `memcpy` and the terminator
def nameWrites (s : Decoder) : List Int := (List.range (toUnsigned s.namelen)).map Int.ofNat ++ [s.namelen]

end Decoder

def loggedScan (directory : Bytes) : (slots : Nat) → (i : Nat) → Decoder → List Int → Scan × List Int
  | 0, _, s, log => (.ended s, log)
  | slots + 1, i, s, log =>
      if directory i = 0x00 then (.free, log)
      else if directory i = 0xe5 then loggedScan directory slots (i + 32) s log
      else if directory (i + 11) = 0x0f then
        let (s, writes) := s.loggedLfnEntry (.ofBytes (slotAt directory i))
        loggedScan directory slots (i + 32) s (log ++ writes)
      else
        let dir := FatDirectoryEntry.ofBytes (slotAt directory i)
        let (s, writes) := s.loggedShort dir
        (.entry i s dir, log ++ writes)

def loggedSearch (name : Name) (directory : Bytes) : (slots : Nat) → (i : Nat) → Decoder → List Int → Search × List Int
  | 0, _, s, log => (.ended s, log)
  | slots + 1, i, s, log =>
      if directory i = 0x00 then (.free i, log)
      else if directory i = 0xe5 then loggedSearch name directory slots (i + 32) s log
      else if directory (i + 11) = 0x0f then
        let (s, writes) := s.loggedLfnEntry (.ofBytes (slotAt directory i))
        loggedSearch name directory slots (i + 32) s (log ++ writes)
      else
        let (s, writes) := s.loggedShort (.ofBytes (slotAt directory i))
        if sameIgnoringCase s.entryName 0 name then (.existed, log ++ writes)
        else
          loggedSearch name directory slots (i + 32) { s with lfnReady := false, foundLastLfnEntry := false } (log ++ writes)

namespace Disk

def loggedLoop (d : Disk) (rootdirCluster : UInt32) (ret : FsNode) : (fuel : Nat) → (current iter : Nat) → Decoder →
    List Int → Option ((DirErr × Option (DirectoryIterator × FsNode)) × Log)
  | 0, _, _, _, _ => none
  | fuel + 1, current, iter, s, log =>
      match loggedScan (d.data current) (d.slotCount iter) iter s log with
      | (.free, log) => some ((.eof, none), ⟨log, []⟩)
      | (.entry i s dir, log) =>
          some ((.success, some (⟨i, current⟩, fillNode rootdirCluster ret current i s dir)), ⟨log, s.nameWrites⟩)
      | (.ended s, log) =>
          let val := d.fat.getFatEntry current
          if val ≥ fatEoc then some ((.eof, none), ⟨log, []⟩)
          else if val = fatBadCluster then some ((.badCluster, none), ⟨log, []⟩)
          else loggedLoop d rootdirCluster ret fuel val 0 s log

def loggedIterate (d : Disk) (rootdirCluster : UInt32) (fuel : Nat) (diriter : DirectoryIterator) (ret : FsNode)
    (entryName : Int → UInt8) : Option ((DirErr × Option (DirectoryIterator × FsNode)) × Log) :=
  let iter := toUnsigned (diriter.currentIndex + 32)
  if iter ≥ d.clusterSize then
    let val := d.fat.getFatEntry diriter.currentCluster
    if val ≥ fatEoc then some ((.eof, none), ⟨[], []⟩)
    else if val = fatBadCluster then some ((.badCluster, none), ⟨[], []⟩)
    else d.loggedLoop rootdirCluster ret fuel val 0 (.start entryName) []
  else d.loggedLoop rootdirCluster ret fuel diriter.currentCluster iter (.start entryName) []

-- the search for a free slot and for a duplicate
def loggedFindSpace (name : Name) : (fuel : Nat) → Disk → (current : Nat) → (newClusterCreated : Bool) → Decoder →
    List Int → Option ((DirErr × Disk × Cursor) × List Int)
  | 0, _, _, _, _, _ => none
  | fuel + 1, d, current, newClusterCreated, s, log =>
      let directory := if newClusterCreated then fun _ => 0 else d.data current
      match loggedSearch name directory (d.slotCount 0) 0 s log with
      | (.existed, log) => some ((.entryExisted, d, ⟨directory, current, 0⟩), log)
      | (.free startIndex, log) => some ((.success, d, ⟨directory, current, startIndex⟩), log)
      | (.ended s, log) =>
          let val := d.fat.getFatEntry current
          if val ≥ fatEoc then
            match d.expandChain current 1 with
            | none => none
            | some (newCluster, d) =>
                if newCluster = 0 then some ((.notEnoughSpace, d, ⟨directory, newCluster, 0⟩), log)
                else loggedFindSpace name fuel d newCluster true s log
          else loggedFindSpace name fuel d val newClusterCreated s log

end Disk

/-! ## Without the writes they are the functions themselves -/

theorem loggedChars_erase (chars : List UInt16) (p : Parse) : (loggedChars chars p).1 = parseChars chars p := by
  induction chars generalizing p with
  | nil => rfl
  | cons c chars ih =>
      rw [loggedChars, parseChars]
      split_ifs
      · rfl
      · exact ih _
      · rfl

theorem loggedLfn_erase (lfn : FatLfnEntry) (buff : Int → UInt8) (offset : Int) :
    (loggedLfn lfn buff offset).1 = parseLfn lfn buff offset := by
  simp only [loggedLfn, parseLfn, loggedChars_erase]
  split_ifs <;> rfl

theorem Decoder.loggedLfnEntry_erase (s : Decoder) (lfn : FatLfnEntry) :
    (s.loggedLfnEntry lfn).1 = s.processLfnEntry lfn := by
  simp only [loggedLfnEntry, processLfnEntry, loggedLfn_erase]
  split_ifs <;> rfl

theorem Decoder.loggedShort_erase (s : Decoder) (dir : FatDirectoryEntry) :
    (s.loggedShort dir).1 = if s.lfnReady then s else s.processSfnEntry dir := by
  rw [loggedShort]
  split_ifs <;> rfl

theorem loggedScan_erase (directory : Bytes) (n i : Nat) (s : Decoder) (log : List Int) :
    (loggedScan directory n i s log).1 = scanCluster directory n i s := by
  induction n generalizing i s log with
  | zero => rfl
  | succ n ih =>
      simp only [loggedScan, scanCluster, ← Decoder.loggedShort_erase, ← Decoder.loggedLfnEntry_erase]
      split_ifs
      · rfl
      · exact ih _ _ _
      · exact ih _ _ _
      · rfl

theorem loggedSearch_erase (name : Name) (directory : Bytes) (n i : Nat) (s : Decoder) (log : List Int) :
    (loggedSearch name directory n i s log).1 = searchCluster name directory n i s := by
  induction n generalizing i s log with
  | zero => rfl
  | succ n ih =>
      simp only [loggedSearch, searchCluster, ← Decoder.loggedShort_erase, ← Decoder.loggedLfnEntry_erase]
      split_ifs
      · rfl
      · exact ih _ _ _
      · exact ih _ _ _
      · rfl
      · exact ih _ _ _

namespace Disk

theorem loggedLoop_erase (d : Disk) (rootdirCluster : UInt32) (ret : FsNode) (fuel current iter : Nat) (s : Decoder)
    (log : List Int) : (d.loggedLoop rootdirCluster ret fuel current iter s log).map Prod.fst =
      d.iterateLoop rootdirCluster ret fuel current iter s := by
  induction fuel generalizing current iter s log with
  | zero => rfl
  | succ fuel ih =>
      rw [loggedLoop, iterateLoop, ← loggedScan_erase _ _ _ _ log]
      obtain ⟨scan, log⟩ := loggedScan (d.data current) (d.slotCount iter) iter s log
      cases scan with
      | free => rfl
      | entry i s dir => rfl
      | ended s =>
          simp only
          split_ifs
          · rfl
          · rfl
          · exact ih _ _ _ _

theorem loggedIterate_erase (d : Disk) (rootdirCluster : UInt32) (fuel : Nat) (diriter : DirectoryIterator) (ret : FsNode)
    (entryName : Int → UInt8) : (d.loggedIterate rootdirCluster fuel diriter ret entryName).map Prod.fst =
      d.fat32IterateDirectory rootdirCluster fuel diriter ret entryName := by
  simp only [loggedIterate, fat32IterateDirectory]
  split_ifs
  · rfl
  · rfl
  · exact loggedLoop_erase ..
  · exact loggedLoop_erase ..

theorem loggedFindSpace_erase (name : Name) (fuel : Nat) (d : Disk) (current : Nat) (newClusterCreated : Bool) (s : Decoder)
    (log : List Int) : (loggedFindSpace name fuel d current newClusterCreated s log).map Prod.fst =
      findSpace name fuel d current newClusterCreated s := by
  induction fuel generalizing d current newClusterCreated s log with
  | zero => rfl
  | succ fuel ih =>
      simp only [loggedFindSpace, findSpace]
      rw [← loggedSearch_erase _ _ _ _ _ log]
      match loggedSearch name (if newClusterCreated then fun _ => 0 else d.data current) (d.slotCount 0) 0 s log with
      | (.existed, log) => rfl
      | (.free startIndex, log) => rfl
      | (.ended s, log) =>
          by_cases last : d.fat.getFatEntry current ≥ fatEoc
          · simp only [if_pos last]
            match d.expandChain current 1 with
            | none => rfl
            | some (newCluster, d') =>
                by_cases full : newCluster = 0
                · simp only [if_pos full, Option.map_some]
                · simp only [if_neg full]
                  exact ih _ _ _ _ _
          · simp only [if_neg last]
            exact ih _ _ _ _ _

end Disk

end Kerosene.Fat32

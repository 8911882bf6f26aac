import Kerosene.Fat32.FileRead
import Kerosene.Ramfs.FileRead

/-!
# How much a read stores

`file_read` subtracts the position from the size of the file, so that it keeps to the buffer as long as the position
is not behind the end. Reads leave it there. A seek may not, as the chain of a file is longer than its size, and on
FAT32 a write may not, as the size has 32 bits.
-/

namespace Kerosene.Files
open Lib Ramfs Fat32

/-! ## The calls on one descriptor -/

/-- A file and a descriptor of it. `ω` is what a write takes from an allocator. -/
structure Handle (σ γ ω : Type) where
  fileSystem : σ → FileSystem γ
  file : σ → Description γ
  setFile : σ → Description γ → σ
  fileWrite : σ → (buffer : List UInt8) → ω → Option σ

inductive IoCall (ω : Type) where
  | read (size : Nat)
  | seek (offset : Int) (whence : Whence)
  | write (buffer : List UInt8) (given : ω)

namespace Handle
variable {σ γ ω : Type} {h : Handle σ γ ω} {s s' : σ} {fallsBack : σ → Nat → Prop} {fits : σ → List UInt8 → ω → Prop}

def step (h : Handle σ γ ω) (s : σ) : IoCall ω → Option σ
  | .read size => ((h.fileSystem s).fileRead (h.file s) size).map fun r => h.setFile s r.2.2
  | .seek offset whence => ((h.fileSystem s).fileSeek (h.file s) offset whence).map fun r => h.setFile s r.2
  | .write buffer given => h.fileWrite s buffer given

/-- Any calls at all. -/
def calls (h : Handle σ γ ω) : Machine σ (IoCall ω) where
  Legal _ _ := True
  step := h.step

def BoundedRead (h : Handle σ γ ω) (s : σ) : Prop :=
  ∀ size r, (h.fileSystem s).fileRead (h.file s) size = some r →
    r.2.1.length ≤ size ∧ r.2.1.length ≤ (h.fileSystem s).size - (h.file s).position

/-- On a descriptor for reading, a seek does not go behind the end of the file, or so far that it falls back to the
end, and a write fits. -/
def machine (h : Handle σ γ ω) (fallsBack : σ → Nat → Prop) (fits : σ → List UInt8 → ω → Prop) : Machine σ (IoCall ω) where
  Legal
    | _, .read _ => True
    | s, .seek offset whence => (h.file s).mode.has fileOpenRead → (h.file s).mode.has fileOpenAppend = false →
        (h.fileSystem s).absolutePosition (h.file s) offset whence ≤ (h.fileSystem s).size ∨
          fallsBack s ((h.fileSystem s).absolutePosition (h.file s) offset whence).toNat
    | s, .write buffer given => (h.file s).mode.has fileOpenRead → fits s buffer given
  step := h.step

/-- What the functions of the file system do to the position. -/
structure Laws (h : Handle σ γ ω) (fallsBack : σ → Nat → Prop) (fits : σ → List UInt8 → ω → Prop) : Prop where
  file : ∀ s file, h.file (h.setFile s file) = file
  size : ∀ s file, (h.fileSystem (h.setFile s file)).size = (h.fileSystem s).size
  read : ∀ s p g n r, (h.fileSystem s).fsFileRead p g n = some r → r.stored.length ≤ n
  seek : ∀ s (q : Int) r, (h.fileSystem s).fsFileSeekAbsolute (h.file s).position (h.file s).current q = some r →
    r.2.1 = (h.file s).position ∨ r.2.1 = q.toNat ∧ ¬ fallsBack s q.toNat ∨ r.2.1 = (h.fileSystem s).size
  mode : ∀ s buffer given s', h.fileWrite s buffer given = some s' → (h.file s').mode = (h.file s).mode
  write : ∀ s buffer given s', (h.file s).position ≤ (h.fileSystem s).size → fits s buffer given →
    h.fileWrite s buffer given = some s' → (h.file s').position ≤ (h.fileSystem s').size

variable {file file' : Description γ} {fs : FileSystem γ} {n p : Nat} {r : ReadErr × List UInt8 × Description γ}

theorem clamp_le {fileSize : Nat} (inside : p ≤ fileSize) :
    FileSystem.clamp n fileSize p ≤ n ∧ FileSystem.clamp n fileSize p ≤ fileSize - p := by
  rw [FileSystem.clamp]
  split_ifs <;> omega

theorem fileRead_bounded (read : ∀ p g n r, fs.fsFileRead p g n = some r → r.stored.length ≤ n)
    (inside : file.mode.has fileOpenRead → file.position ≤ fs.size) (done : fs.fileRead file n = some r) :
    r.2.1.length ≤ n ∧ r.2.1.length ≤ fs.size - file.position ∧ r.2.2.mode = file.mode ∧
      (file.mode.has fileOpenRead → r.2.2.position ≤ fs.size) := by
  simp only [FileSystem.fileRead, Option.bind_eq_bind, Option.pure_def] at done
  split_ifs at done with readable ended
  · cases done
    exact ⟨Nat.zero_le _, Nat.zero_le _, rfl, inside⟩
  · have inside := inside readable
    obtain ⟨answer, answered, done⟩ := Option.bind_eq_some_iff.mp done
    have stored := read _ _ _ _ answered
    obtain ⟨asked, left⟩ := clamp_le (n := n) inside
    split_ifs at done with failed
    · cases done
      exact ⟨stored.trans asked, stored.trans left, rfl, fun _ => inside⟩
    · cases done
      refine ⟨stored.trans asked, stored.trans left, rfl, fun _ => ?_⟩
      dsimp only
      omega
  · cases done
    exact ⟨Nat.zero_le _, Nat.zero_le _, rfl, fun reads => absurd reads readable⟩

theorem fileSeek_some {offset : Int} {whence : Whence} {r : ReadErr × Description γ}
    (done : fs.fileSeek file offset whence = some r) :
    r.2.mode = file.mode ∧ (r.2.position = file.position ∨ file.mode.has fileOpenAppend = false ∧
      ∃ r', fs.fsFileSeekAbsolute file.position file.current (fs.absolutePosition file offset whence) = some r' ∧
        r.2.position = r'.2.1) := by
  simp only [FileSystem.fileSeek, Option.bind_eq_bind, Option.pure_def] at done
  split_ifs at done with appends
  · cases done
    exact ⟨rfl, .inl rfl⟩
  · obtain ⟨r', sought, done⟩ := Option.bind_eq_some_iff.mp done
    cases done
    exact ⟨rfl, .inr ⟨Bool.eq_false_iff.mpr appends, r', sought, rfl⟩⟩

/-- A descriptor for reading is not behind the end of the file. -/
def Inside (h : Handle σ γ ω) (s : σ) : Prop :=
  (h.file s).mode.has fileOpenRead → (h.file s).position ≤ (h.fileSystem s).size

theorem Laws.bounded (laws : h.Laws fallsBack fits) (inside : h.Inside s) : h.BoundedRead s := by
  intro size r done
  obtain ⟨asked, left, -⟩ := fileRead_bounded (laws.read s) inside done
  exact ⟨asked, left⟩

theorem Laws.step {call : IoCall ω} (laws : h.Laws fallsBack fits) (inside : h.Inside s)
    (legal : (h.machine fallsBack fits).Legal s call) (done : h.step s call = some s') : h.Inside s' := by
  cases call with
  | read size =>
      obtain ⟨r, read, rfl⟩ := Option.map_eq_some_iff.mp done
      obtain ⟨-, -, mode, kept⟩ := fileRead_bounded (laws.read s) inside read
      rw [Inside, laws.file, laws.size, mode]
      exact kept
  | seek offset whence =>
      obtain ⟨r, sought, rfl⟩ := Option.map_eq_some_iff.mp done
      obtain ⟨mode, position⟩ := fileSeek_some sought
      rw [Inside, laws.file, laws.size, mode]
      intro readable
      rcases position with same | ⟨noAppend, r', moved, there⟩
      · rw [same]
        exact inside readable
      · rw [there]
        rcases laws.seek s _ r' moved with same | ⟨target, stays⟩ | atEnd
        · rw [same]
          exact inside readable
        · rw [target]
          rcases legal readable noAppend with before | back
          · omega
          · exact absurd back stays
        · rw [atEnd]
  | write buffer given =>
      have mode := laws.mode s buffer given s' done
      intro readable
      rw [mode] at readable
      exact laws.write s buffer given s' (inside readable) (legal readable) done

theorem Laws.reaches {start : σ} (laws : h.Laws fallsBack fits) (opened : (h.file start).position = 0)
    (run : (h.machine fallsBack fits).Reaches start s) : h.BoundedRead s :=
  laws.bounded (run.invariant (fun _ _ _ inside legal done => laws.step inside legal done) fun _ => by
    rw [opened]
    exact Nat.zero_le _)

end Handle
end Kerosene.Files

/-! ## ramfs -/

namespace Kerosene.Ramfs
open Lib Files

theorem readLoop_stored {s : Datanodes Block} {fuel size : Nat} {start : Addr} {stored : List UInt8} {r : Answer Addr}
    (done : readLoop s fuel start size stored = some r) : r.stored.length ≤ stored.length + size := by
  induction fuel generalizing start size stored with
  | zero => cases done
  | succ fuel ih =>
      simp only [readLoop, Option.bind_eq_bind, Option.bind_eq_some_iff] at done
      obtain ⟨node, here, done⟩ := done
      generalize chosen : (if size < ramfsDatanodeSize then size else ramfsDatanodeSize) = readSize at done
      have least : readSize ≤ size := by split_ifs at chosen <;> omega
      have grown : (stored ++ node.data.toList.take readSize).length ≤ stored.length + readSize := by
        rw [List.length_append]
        exact Nat.add_le_add_left (List.length_take_le ..) _
      split_ifs at done with ended
      · cases done
        exact grown.trans (by omega)
      · cases next : node.next with
        | none =>
            rw [next] at done
            cases done
            exact grown.trans (by omega)
        | some next' =>
            rw [next] at done
            exact (ih done).trans (by omega)

theorem readFile_stored {s : Datanodes Block} {start : Addr} {size dataOffset : Nat} {r : Answer Addr}
    (done : readFile s start size dataOffset = some r) : r.stored.length ≤ size := by
  simp only [readFile, Option.bind_eq_bind, Option.bind_eq_some_iff] at done
  obtain ⟨⟨err, start, offset⟩, skipped, done⟩ := done
  dsimp only at done
  split_ifs at done with failed within inside
  · cases done
    exact Nat.zero_le _
  · obtain ⟨node, here, done⟩ := Option.bind_eq_some_iff.mp done
    cases done
    exact List.length_take_le ..
  · obtain ⟨node, here, done⟩ := Option.bind_eq_some_iff.mp done
    have first : ((node.data.toList.drop offset).take (ramfsDatanodeSize - offset)).length ≤ ramfsDatanodeSize - offset :=
      List.length_take_le ..
    cases next : node.next with
    | none =>
        rw [next] at done
        cases done
        exact first.trans (by omega)
    | some next' =>
        rw [next] at done
        exact (readLoop_stored done).trans (by omega)
  · have stored := readLoop_stored done
    rwa [List.length_nil, Nat.zero_add] at stored

namespace File

def handle : Handle (File × FileDescription) (Option Addr) (List (Datanodes.Grant Block)) where
  fileSystem s := s.1.fileSystem
  file s := ⟨s.2.mode, s.2.position, s.2.currentDatanode⟩
  setFile s file := (s.1, { s.2 with mode := file.mode, position := file.position, currentDatanode := file.current })
  fileWrite s buffer grants := (s.1.fileWrite s.2 buffer grants).map fun r => (r.file, r.description)

/-- The chain ends more than a datanode before the target, as the loop counts. -/
def FallsBack (s : File × FileDescription) (q : Nat) : Prop :=
  ∃ r, seekLoop s.1.datanode q chainFuel (if s.2.position < q then s.2.currentDatanode else s.1.datanodeChain)
    (if s.2.position < q then s.2.position - s.2.position % ramfsDatanodeSize else 0) = some r ∧
      r.1 + ramfsDatanodeSize < q

theorem ramfsFileSeekAbsolute_position {f : File} {d : FileDescription} {q : Int} {r : ReadErr × Nat × Option Addr}
    (done : f.ramfsFileSeekAbsolute d.position d.currentDatanode q = some r) :
    r.2.1 = q.toNat ∧ ¬ FallsBack (f, d) q.toNat ∨ r.2.1 = f.size := by
  have target : (if q < 0 then 0 else q.toNat) = q.toNat := by split_ifs <;> omega
  have start : (if d.position < q.toNat then (d.currentDatanode, d.position - d.position % ramfsDatanodeSize)
      else (f.datanodeChain, 0)) = (if d.position < q.toNat then d.currentDatanode else f.datanodeChain,
        if d.position < q.toNat then d.position - d.position % ramfsDatanodeSize else 0) := by
    split_ifs <;> rfl
  simp only [ramfsFileSeekAbsolute, target, start, Option.bind_eq_bind, Option.bind_eq_some_iff] at done
  obtain ⟨⟨counted, found⟩, looped, done⟩ := done
  cases done
  dsimp only
  split_ifs with back
  · exact .inr rfl
  · refine .inl ⟨rfl, ?_⟩
    rintro ⟨r, same, less⟩
    rw [looped] at same
    cases same
    exact back less

theorem fileWrite_position {f : File} {d : FileDescription} {buffer : List UInt8} {grants : List (Datanodes.Grant Block)}
    {r : WriteResult} (done : f.fileWrite d buffer grants = some r) :
    r.description.mode = d.mode ∧ (d.position ≤ f.size → r.description.position ≤ r.file.size) := by
  by_cases writes : d.mode.has fileOpenWrite
  · rw [fileWrite, if_pos writes, Option.bind_eq_bind] at done
    obtain ⟨r', wrote, done⟩ := Option.bind_eq_some_iff.mp done
    have kept : r'.description.mode = d.mode ∧ r'.description.position = d.position ∧ r'.file.size = f.size := by
      simp only [ramfsFileWrite, Option.bind_eq_bind] at wrote
      split_ifs at wrote
      all_goals
        obtain ⟨start, -, wrote⟩ := Option.bind_eq_some_iff.mp wrote
        obtain ⟨r'', -, wrote⟩ := Option.bind_eq_some_iff.mp wrote
        cases wrote
        exact ⟨rfl, rfl, rfl⟩
    obtain ⟨mode, position, size⟩ := kept
    split_ifs at done with failed
    · cases done
      exact ⟨mode, fun inside => by rwa [position, size]⟩
    · cases done
      exact ⟨mode, fun _ => le_rfl⟩
    · cases done
      refine ⟨mode, fun _ => ?_⟩
      dsimp only
      split_ifs <;> omega
  · rw [fileWrite, if_neg writes] at done
    cases done
    exact ⟨rfl, id⟩

theorem handle_laws : handle.Laws FallsBack fun _ _ _ => True where
  file _ _ := rfl
  size _ _ := rfl
  read s p g n r done := by
    simp only [handle, fileSystem, ramfsFileRead, Option.bind_eq_bind, Option.bind_eq_some_iff] at done
    obtain ⟨start, -, answer, done, same⟩ := done
    cases same
    exact readFile_stored done
  seek s q r done := .inr (ramfsFileSeekAbsolute_position done)
  mode s buffer given s' done := by
    obtain ⟨r, wrote, rfl⟩ := Option.map_eq_some_iff.mp done
    exact (fileWrite_position wrote).1
  write s buffer given s' inside _ done := by
    obtain ⟨r, wrote, rfl⟩ := Option.map_eq_some_iff.mp done
    exact (fileWrite_position wrote).2 inside

end File
end Kerosene.Ramfs

/-! ## FAT32 -/

namespace Kerosene.Fat32
open Lib Ramfs Files

namespace Disk
variable {d : Disk} {current size whole : Nat} {stored : List UInt8}

theorem readClusters_stored {s : List UInt8} {n : Nat} {c : Nat} (count : whole = n / d.clusterSize) :
    (d.readClusters whole c n s).stored.length ≤ s.length + n := by
  induction whole generalizing c n s with
  | zero =>
      rw [readClusters, List.length_append]
      exact Nat.add_le_add_left (List.length_take_le ..) _
  | succ whole ih =>
      have sized : 0 < d.clusterSize := by
        refine Nat.pos_of_ne_zero fun zero => ?_
        rw [zero, Nat.div_zero] at count
        omega
      have large : d.clusterSize ≤ n := by
        by_contra less
        rw [Nat.div_eq_of_lt (by omega)] at count
        omega
      have left : whole = (n - d.clusterSize) / d.clusterSize := by
        rw [Nat.div_eq_sub_div sized large] at count
        omega
      have grown : (s ++ d.cluster c).length = s.length + d.clusterSize := by
        rw [List.length_append, cluster_length]
      rw [readClusters]
      dsimp only
      split_ifs
      · exact grown.le.trans (by omega)
      · exact grown.le.trans (by omega)
      · exact grown.le.trans (by omega)
      · exact (ih left).trans (by omega)

theorem readFile_stored (d : Disk) (startCluster size clusterOffset : Nat) :
    (d.readFile startCluster size clusterOffset).stored.length ≤ size := by
  rw [readFile]
  obtain ⟨err, current, offset⟩ := d.skip (clusterOffset / d.clusterSize) startCluster clusterOffset
  dsimp only
  have first : (((d.cluster current).drop offset).take (d.clusterSize - offset)).length ≤ d.clusterSize - offset :=
    List.length_take_le ..
  split_ifs
  · exact Nat.zero_le _
  · exact List.length_take_le ..
  · exact first.trans (by omega)
  · exact first.trans (by omega)
  · exact (readClusters_stored rfl).trans (by omega)
  · have stored := d.readClusters_stored (c := current) (n := size) (s := []) rfl
    rwa [List.length_nil, Nat.zero_add] at stored

def handle : Handle (Disk × FatNode × FatDescription) Nat Unit where
  fileSystem s := s.1.fileSystem s.2.1
  file s := ⟨s.2.2.mode, s.2.2.position, s.2.2.currentCluster⟩
  setFile s file := (s.1, s.2.1, { s.2.2 with mode := file.mode, position := file.position, currentCluster := file.current })
  fileWrite s buffer _ := (s.1.fileWrite s.2.1 s.2.2 buffer).map fun r => (r.disk, r.node, r.file)

/-- The chain ends more than a cluster before the target, as the loop counts. -/
def FallsBack (s : Disk × FatNode × FatDescription) (q : Nat) : Prop :=
  ∃ r, s.1.seekLoop q (2 ^ 32) (if s.2.2.position ≤ q then s.2.2.currentCluster else s.2.1.startCluster)
    (if s.2.2.position ≤ q then alignDown s.2.2.position s.1.clusterSize else 0) = some r ∧
      (r.2.1 + s.1.clusterSize) % 2 ^ 32 < q

/-- A write without `FILE_OPEN_APPEND` that succeeds ends where a size can be. -/
def Fits (s : Disk × FatNode × FatDescription) (buffer : List UInt8) (_ : Unit) : Prop :=
  s.2.2.mode.has fileOpenAppend = false →
    ∀ r, s.1.fileWrite s.2.1 s.2.2 buffer = some r → r.err = .success → s.2.2.position + buffer.length < 2 ^ 32

theorem fat32FileSeekAbsolute_position {node : FatNode} {file : FatDescription} {q : Int} {r : ReadErr × Nat × Nat}
    (done : d.fat32FileSeekAbsolute node file.position file.currentCluster q = some r) :
    r.2.1 = file.position ∨ r.2.1 = q.toNat ∧ ¬ FallsBack (d, node, file) q.toNat ∨ r.2.1 = node.size := by
  have target : (if q < 0 then 0 else q.toNat) = q.toNat := by split_ifs <;> omega
  have start : (if file.position ≤ q.toNat then (file.currentCluster, alignDown file.position d.clusterSize)
      else (node.startCluster, 0)) = (if file.position ≤ q.toNat then file.currentCluster else node.startCluster,
        if file.position ≤ q.toNat then alignDown file.position d.clusterSize else 0) := by
    split_ifs <;> rfl
  rw [fat32FileSeekAbsolute, target] at done
  dsimp only at done
  by_cases here : file.position = q.toNat
  · rw [if_pos here] at done
    cases done
    exact .inl rfl
  · rw [if_neg here, start, Option.bind_eq_bind] at done
    obtain ⟨⟨err, counted, found⟩, looped, done⟩ := Option.bind_eq_some_iff.mp done
    dsimp only at done
    split_ifs at done with failed back
    · cases done
      exact .inl rfl
    · cases done
      exact .inr (.inr rfl)
    · cases done
      refine .inr (.inl ⟨rfl, ?_⟩)
      rintro ⟨r, same, less⟩
      rw [looped] at same
      cases same
      exact back less

/-! ## What a write counts -/

theorem writeClusters_actual {keep : Bool} {buffer : List UInt8} {actual : Nat} (count : whole = buffer.length / d.clusterSize) :
    (writeClusters keep whole d current buffer actual).actualWriteSize ≤ actual + buffer.length := by
  induction whole generalizing d current buffer actual with
  | zero => exact le_rfl
  | succ whole ih =>
      have sized : 0 < d.clusterSize := by
        refine Nat.pos_of_ne_zero fun zero => ?_
        rw [zero, Nat.div_zero] at count
        omega
      have large : d.clusterSize ≤ buffer.length := by
        by_contra less
        rw [Nat.div_eq_of_lt (by omega)] at count
        omega
      have length : (buffer.drop d.clusterSize).length = buffer.length - d.clusterSize := List.length_drop ..
      have left : whole = (buffer.drop d.clusterSize).length / (d.putCluster current buffer).clusterSize := by
        rw [Nat.div_eq_sub_div sized large] at count
        rw [length, clusterSize_putCluster]
        omega
      rw [writeClusters]
      dsimp only
      split_ifs
      · exact Nat.add_le_add_left large _
      · exact Nat.add_le_add_left large _
      · exact Nat.add_le_add_left large _
      · exact (ih left).trans (by omega)

theorem writeRest_actual {keep : Bool} {buffer : List UInt8} {actual : Nat} {r : WriteResult}
    (done : d.writeRest keep current buffer actual = some r) : r.actualWriteSize ≤ actual + buffer.length := by
  simp only [writeRest] at done
  split_ifs at done with many
  · split at done
    · cases done
    · split_ifs at done with full
      · cases done
        exact Nat.le_add_right _ _
      · cases done
        exact writeClusters_actual rfl
  · cases done
    exact writeClusters_actual rfl

theorem writeFile_actual {buffer : List UInt8} {startCluster clusterOffset fileSize nextPosition : Nat} {r : WriteResult}
    (done : d.writeFile startCluster buffer clusterOffset fileSize nextPosition = some r) :
    r.actualWriteSize ≤ buffer.length := by
  rw [writeFile] at done
  split at done
  · cases done
  · dsimp only at done
    split_ifs at done with failed within whole
    · cases done
      exact Nat.zero_le _
    · cases done
      exact le_rfl
    · have wrote := writeRest_actual done
      rw [List.length_drop] at wrote
      omega
    · have wrote := writeRest_actual done
      rwa [Nat.zero_add] at wrote

theorem fileWrite_position {node : FatNode} {file : FatDescription} {buffer : List UInt8} {r : FileResult}
    (done : d.fileWrite node file buffer = some r) : r.file.mode = file.mode ∧
      (file.position ≤ node.size → Fits (d, node, file) buffer () → r.file.position ≤ r.node.size) := by
  have result := done
  rw [fileWrite] at done
  split_ifs at done with writes isFile
  · obtain ⟨⟨w, file'⟩, wrote, same⟩ := Option.map_eq_some_iff.mp done
    have kept : file'.mode = file.mode ∧ file'.position = file.position ∧ w.actualWriteSize ≤ buffer.length := by
      simp only [fat32FileWrite] at wrote
      split_ifs at wrote
      all_goals
        obtain ⟨w', written, same⟩ := Option.map_eq_some_iff.mp wrote
        cases same
        exact ⟨rfl, rfl, writeFile_actual written⟩
    obtain ⟨mode, position, actual⟩ := kept
    dsimp only at same
    split_ifs at same with failed appends
    · subst same
      exact ⟨mode, fun inside _ => by rwa [position]⟩
    · subst same
      exact ⟨mode, fun _ _ => le_rfl⟩
    all_goals
      have noAppend : file.mode.has fileOpenAppend = false := by rw [← mode]; exact Bool.eq_false_iff.mpr appends
      refine ⟨by rw [← same]; exact mode, fun _ fits => ?_⟩
      have below : file.position + buffer.length < 2 ^ 32 := fits noAppend r result (by rw [← same])
      subst same
      dsimp only
      omega
  · cases done
    exact ⟨rfl, fun inside _ => inside⟩
  · cases done
    exact ⟨rfl, fun inside _ => inside⟩

theorem handle_laws : handle.Laws FallsBack Fits where
  file _ _ := rfl
  size _ _ := rfl
  read s p g n r done := by
    cases done
    exact s.1.readFile_stored g n _
  seek s q r done := fat32FileSeekAbsolute_position done
  mode s buffer given s' done := by
    obtain ⟨r, wrote, rfl⟩ := Option.map_eq_some_iff.mp done
    exact (fileWrite_position wrote).1
  write s buffer given s' inside fits done := by
    obtain ⟨r, wrote, rfl⟩ := Option.map_eq_some_iff.mp done
    exact (fileWrite_position wrote).2 inside fits

end Disk
end Kerosene.Fat32

/-! ## Every descriptor -/

namespace Kerosene.Files
open Lib Ramfs Fat32

theorem fileOpen_ramfs_position {f : File} {slot d : FileDescription} {mode : FileMode} (opened : f.fileOpen slot mode = some d) :
    d.position = 0 := by
  rw [File.fileOpen, File.ramfsFileOpen] at opened
  by_cases appends : mode.has fileOpenAppend
  · rw [if_pos appends] at opened
    obtain ⟨last, -, same⟩ := Option.bind_eq_some_iff.mp opened
    cases same
    rfl
  · rw [if_neg appends] at opened
    cases opened
    rfl

theorem fileOpen_fat32_position {d : Disk} {node : FatNode} {slot file : FatDescription} {mode : FileMode}
    (opened : d.fileOpen node slot mode = some file) : file.position = 0 := by
  rw [Disk.fileOpen, Disk.fat32FileOpen] at opened
  by_cases appends : mode.has fileOpenAppend
  · rw [if_pos appends] at opened
    obtain ⟨last, -, same⟩ := Option.bind_eq_some_iff.mp opened
    cases same
    rfl
  · rw [if_neg appends] at opened
    cases opened
    rfl

/-- From `file_open` on, a read stores at most what was asked for and at most what is left of the file, as long as no seek
ends behind the file and, on FAT32, no write ends behind the last size there is. -/
theorem read_bounded (mode : FileMode) :
    (∀ (f : File) (slot d : FileDescription) (s : File × FileDescription),
      f.fileOpen slot mode = some d → (File.handle.machine File.FallsBack fun _ _ _ => True).Reaches (f, d) s →
      File.handle.BoundedRead s) ∧
    (∀ (d : Disk) (node : FatNode) (slot file : FatDescription) (s : Disk × FatNode × FatDescription),
      d.fileOpen node slot mode = some file → (Disk.handle.machine Disk.FallsBack Disk.Fits).Reaches (d, node, file) s →
      Disk.handle.BoundedRead s) :=
  ⟨fun _ _ _ _ opened run => File.handle_laws.reaches (fileOpen_ramfs_position opened) run,
    fun _ _ _ _ _ opened run => Disk.handle_laws.reaches (fileOpen_fat32_position opened) run⟩

/-! ## A file of three bytes -/

section ThreeBytes

def opened : FileDescription := ⟨fileOpenRead, 0, some 1, none⟩

def readsWrites : FileMode := fileOpenRead ||| fileOpenWrite

def after {σ γ ω : Type} (h : Handle σ γ ω) (s : σ) (call : IoCall ω) : σ := (h.step s call).getD s

theorem reaches_after {σ γ ω : Type} {h : Handle σ γ ω} {fallsBack : σ → Nat → Prop} {fits : σ → List UInt8 → ω → Prop}
    {start s : σ} {call : IoCall ω} (run : (h.machine fallsBack fits).Reaches start s)
    (legal : (h.machine fallsBack fits).Legal s call) (moves : (h.step s call).isSome) :
    (h.machine fallsBack fits).Reaches start (after h s call) := by
  obtain ⟨s', step⟩ := Option.isSome_iff_exists.mp moves
  rw [after, step]
  exact run.snoc legal step

-- a seek, a read of one byte and a write of two
def soughtFile := after File.handle (File.threeBytes, ⟨readsWrites, 0, some 1, none⟩) (.seek 1 .absolute)
def readFile := after File.handle soughtFile (.read 1)
def writtenFile := after File.handle readFile (.write [9, 9] [])

def soughtDisk := after Disk.handle (twoClustersDisk, twoClustersNode, ⟨readsWrites, 0, 2, 0⟩) (.seek 600 .absolute)
def readDisk := after Disk.handle soughtDisk (.read 1)
def writtenDisk := after Disk.handle readDisk (.write [9, 9] ())

theorem read_bounded_three_calls :
    (writtenFile.2.position = 4 ∧ writtenFile.1.size = 4 ∧ File.handle.BoundedRead writtenFile) ∧
      writtenDisk.2.2.position = 603 ∧ Disk.handle.BoundedRead writtenDisk := by
  have file : (File.handle.machine File.FallsBack fun _ _ _ => True).Reaches
      (File.threeBytes, ⟨readsWrites, 0, some 1, none⟩) writtenFile :=
    reaches_after (reaches_after (reaches_after (.refl _) (fun _ _ => .inl (by decide)) (by decide +kernel)) trivial
      (by decide +kernel)) (fun _ => trivial) (by decide +kernel)
  have disk : (Disk.handle.machine Disk.FallsBack Disk.Fits).Reaches
      (twoClustersDisk, twoClustersNode, ⟨readsWrites, 0, 2, 0⟩) writtenDisk := by
    refine reaches_after (s := readDisk) (reaches_after (reaches_after (.refl _) (fun _ _ => .inl (by decide))
      (by decide +kernel)) trivial (by decide +kernel)) (fun _ _ r _ _ => ?_) (by decide +kernel)
    have position : readDisk.2.2.position = 601 := by decide +kernel
    rw [position]
    decide
  exact ⟨⟨by decide +kernel, by decide +kernel,
    (read_bounded readsWrites).1 File.threeBytes ⟨0, 0, none, none⟩ ⟨readsWrites, 0, some 1, none⟩ _ rfl file⟩,
    by decide +kernel,
    (read_bounded readsWrites).2 twoClustersDisk twoClustersNode ⟨0, 0, 0, 0⟩ ⟨readsWrites, 0, 2, 0⟩ _ rfl disk⟩

/-- A seek to 100 stays there, and a read of 5 bytes stores the 412 that follow in the datanode. -/
theorem read_past_end_stores_datanode :
    ¬ ∀ (f : File) (slot d : FileDescription) (mode : FileMode) (s : File × FileDescription),
      f.fileOpen slot mode = some d → File.handle.calls.Reaches (f, d) s → File.handle.BoundedRead s := by
  intro always
  have sought : File.threeBytes.fileSystem.fileSeek ⟨fileOpenRead, 0, some 1⟩ 100 .absolute =
      some (.success, ⟨fileOpenRead, 100, some 1⟩) := by decide
  have moved : File.handle.step (File.threeBytes, opened) (.seek 100 .absolute) =
      some (File.threeBytes, ⟨fileOpenRead, 100, some 1, none⟩) :=
    congrArg (Option.map fun r : ReadErr × Description (Option Addr) => File.handle.setFile (File.threeBytes, opened) r.2)
      sought
  have run : File.handle.calls.Reaches (File.threeBytes, opened) (File.threeBytes, ⟨fileOpenRead, 100, some 1, none⟩) :=
    (Machine.Reaches.refl (M := File.handle.calls) _).snoc (i := .seek 100 .absolute) trivial moved
  have bounded := always File.threeBytes ⟨0, 0, none, none⟩ opened fileOpenRead _ rfl run 5
  have wrong : (File.threeBytes.fileSystem.fileRead ⟨fileOpenRead, 100, some 1⟩ 5).any (fun r => r.2.1.length == 412) =
      true := by decide +kernel
  obtain ⟨r, read, length⟩ := Option.any_eq_true _ _ |>.mp wrong
  have few := (bounded r read).1
  rw [beq_iff_eq.mp length] at few
  exact absurd few (by decide)

end ThreeBytes
end Kerosene.Files

import Kerosene.Lib.Count
import Kerosene.Vfs.Open

/-!
# The descriptor table of a process

Four functions keep `file_count` and the marks of free slots: `process_set_stdfile`, `vfs_open`,
`vfs_close` and `semaphore_syscall_create`. `process_new` takes the table from `kmalloc` as it comes.
-/

namespace Kerosene.Process
open Lib Ramfs Vfs

-- The part for the filesystem is left out: only `file_open` of the filesystem writes it.
structure Description where
  node : Option Addr
  mode : FileMode
  position : Int
deriving DecidableEq

abbrev Table := Fin maxFile → Description

structure Descriptors where
  fileDescriptorTable : Table
  fileCount : BitVec 32

-- A node a lookup returns, with what `file_open` asks of it.
structure Found where
  node : Addr
  isDirectory : Bool
  fsFileOpen : Bool

inductive FileErr
  | success
  | notDir
  | notSupported
deriving DecidableEq

-- `none` is the fault of `node_reset(NULL)`.
def fileOpen (file : Description) (found : Found) (mode : FileMode) : Option (FileErr × Description) :=
  if mode.has fileOpenOnlydir ∧ ¬ found.isDirectory then some (.notDir, file)
  else if mode.has fileOpenWrite ∧ mode.has fileOpenTruncate ∧ file.node.isNone then none
  else some (if found.fsFileOpen then .success else .notSupported, ⟨some found.node, mode, 0⟩)

theorem fileOpen_success {file file' : Description} {found : Found} {mode : FileMode}
    (opened : fileOpen file found mode = some (.success, file')) : file'.node = some found.node := by
  rw [fileOpen] at opened
  split_ifs at opened with notDir truncates
  · simp at opened
  all_goals
    simp only [Option.some.injEq, Prod.mk.injEq] at opened
    rw [← opened.2]

namespace Descriptors

def node (p : Descriptors) (fd : Fin maxFile) : Option Addr := (p.fileDescriptorTable fd).node

def setSlot (p : Descriptors) (fd : Fin maxFile) (file : Description) : Descriptors :=
  { p with fileDescriptorTable := Function.update p.fileDescriptorTable fd file }

def clearSlot (p : Descriptors) (fd : Fin maxFile) : Descriptors :=
  p.setSlot fd { p.fileDescriptorTable fd with node := none }

-- `fdt` is what the block held when `kmalloc` gave it.
def processNew (fdt : Table) : Descriptors := ⟨fdt, 0#32⟩

def sysfileFdStdin : Fin maxFile := ⟨0, zero_lt_maxFile⟩
def sysfileFdStdout : Fin maxFile := ⟨1, one_lt_maxFile⟩

def processSetStdfile (p : Descriptors) (stdin : Found) (stdinFlags : FileMode) (stdout : Found)
    (stdoutFlags : FileMode) : Option Descriptors := do
  let first ← fileOpen (p.fileDescriptorTable sysfileFdStdin) stdin stdinFlags
  let p := p.setSlot sysfileFdStdin first.2
  let second ← fileOpen (p.fileDescriptorTable sysfileFdStdout) stdout stdoutFlags
  let p := p.setSlot sysfileFdStdout second.2
  return { p with fileCount := 2#32 }

-- From the search for a slot to `file_count++`. Both callers empty the slot again when `file_open`
-- fails.
def openSlot (p : Descriptors) (found : Found) (mode : FileMode) : Option (Option (Fin maxFile) × Descriptors) :=
  match Files.freeSlot p.node with
  | none => some (none, p)
  | some fd => do
      let opened ← fileOpen (p.fileDescriptorTable fd) found mode
      let p := p.setSlot fd opened.2
      if opened.1 = .success then return (some fd, { p with fileCount := p.fileCount + 1#32 })
      else return (none, p.clearSlot fd)

-- `lookup` is the answer of `vfs_find_and_create_node`, `validated` that of `validate_user_string`.
def vfsOpen (p : Descriptors) (validated cwd : Bool) (lookup : Option Found) (mode : FileMode) :
    Option (Option (Fin maxFile) × Descriptors) :=
  if ¬ validated ∨ p.fileCount.toNat ≥ maxFile ∨ ¬ cwd then some (none, p)
  else match lookup with
  | none => some (none, p)
  | some found => p.openSlot found mode

def vfsClose (p : Descriptors) (fileDescriptor : Int) : Descriptors :=
  if small : 0 ≤ fileDescriptor ∧ fileDescriptor.toNat < maxFile then
    let fd : Fin maxFile := ⟨fileDescriptor.toNat, descriptor_lt small⟩
    if (p.node fd).isNone then p
    else { p.clearSlot fd with fileCount := p.fileCount - 1#32 }
  else p

-- `named` tells whether there is a name, `sem` is the answer of `semaphore_create`.
def semaphoreSyscallCreate (p : Descriptors) (named sem validated : Bool) (lookup : Option Found) :
    Option (Option (Fin maxFile) × Descriptors) :=
  if ¬ named ∨ ¬ sem ∨ ¬ validated then some (none, p)
  else match lookup with
  | none => some (none, p)
  | some found => p.openSlot found (fileOpenRead ||| fileOpenWrite)

-- The nodes of which `process_delete` drops a reference, in order.
def closeSlots (p : Descriptors) : List (Fin maxFile) → List Addr
  | [] => []
  | fd :: rest =>
      if p.fileCount = 0#32 then []
      else match p.node fd with
      | none => p.closeSlots rest
      | some node => node :: { p.clearSlot fd with fileCount := p.fileCount - 1#32 }.closeSlots rest

def processDelete (p : Descriptors) : List Addr := p.closeSlots (List.finRange maxFile)

def used (p : Descriptors) : Nat := (List.finRange maxFile).countP fun fd => (p.node fd).isSome

end Descriptors

/-! ## What a process has open -/

inductive FileCall
  | vfsOpen (validated cwd : Bool) (lookup : Option Found) (mode : FileMode)
  | vfsClose (fileDescriptor : Int)
  | semaphoreSyscallCreate (named sem validated : Bool) (lookup : Option Found)

-- The table beside the descriptors the process was given and did not close since.
structure Session where
  files : Descriptors
  held : Fin maxFile → Option Addr

namespace Session

def given (held : Fin maxFile → Option Addr) (lookup : Option Found) :
    Option (Fin maxFile) → Fin maxFile → Option Addr
  | none => held
  | some fd => Function.update held fd (lookup.map Found.node)

def step (s : Session) : FileCall → Option Session
  | .vfsOpen validated cwd lookup mode => do
      let (fd, files) ← s.files.vfsOpen validated cwd lookup mode
      return ⟨files, given s.held lookup fd⟩
  | .vfsClose fileDescriptor =>
      some ⟨s.files.vfsClose fileDescriptor, fun fd => if (fd : Int) = fileDescriptor then none else s.held fd⟩
  | .semaphoreSyscallCreate named sem validated lookup => do
      let (fd, files) ← s.files.semaphoreSyscallCreate named sem validated lookup
      return ⟨files, given s.held lookup fd⟩

-- `std` is `none` for a process that `process_set_stdfile` is not called for.
def start (fdt : Table) : Option (Found × Found) → Option Session
  | none => some ⟨.processNew fdt, fun _ => none⟩
  | some (stdin, stdout) => do
      let files ← (Descriptors.processNew fdt).processSetStdfile stdin fileOpenRead stdout
        (fileOpenWrite ||| fileOpenAppend)
      let held := Function.update (fun _ => none) Descriptors.sysfileFdStdin (some stdin.node)
      return ⟨files, Function.update held Descriptors.sysfileFdStdout (some stdout.node)⟩

def run (s : Session) (calls : List FileCall) : Option Session := calls.foldlM step s

structure Consistent (s : Session) : Prop where
  counted : s.files.fileCount.toNat = s.files.used
  opened : ∀ fd node, s.files.node fd = some node → s.held fd = some node
  deleted : s.files.processDelete = (List.finRange maxFile).filterMap s.held

end Session

namespace Descriptors
variable {p p' : Descriptors} {fd fd' : Fin maxFile} {file : Description} {found : Found} {mode : FileMode}
  {lookup : Option Found} {slots : List (Fin maxFile)} {result : Option (Fin maxFile)}

@[simp] theorem node_setSlot : (p.setSlot fd file).node fd = file.node := by
  simp [node, setSlot]

theorem node_setSlot_of_ne (other : fd' ≠ fd) : (p.setSlot fd file).node fd' = p.node fd' := by
  simp [node, setSlot, other]

@[simp] theorem node_clearSlot : (p.clearSlot fd).node fd = none := by
  simp [clearSlot]

theorem node_clearSlot_of_ne (other : fd' ≠ fd) : (p.clearSlot fd).node fd' = p.node fd' :=
  node_setSlot_of_ne other

theorem used_fill {q : Descriptors} (free : p.node fd = none) (filled : (q.node fd).isSome)
    (others : ∀ fd', fd' ≠ fd → q.node fd' = p.node fd') : q.used = p.used + 1 := by
  refine countP_insert (List.nodup_finRange _) (List.mem_finRange fd) (by simp [free]) filled ?_
  intro fd' _ other
  rw [others fd' other]

theorem used_le (p : Descriptors) : p.used ≤ maxFile := by
  have bound := List.countP_le_length (p := fun fd => (p.node fd).isSome) (l := List.finRange maxFile)
  rwa [List.length_finRange] at bound

theorem freeSlot_none (slot : Files.freeSlot p.node = some fd) : p.node fd = none := by
  have stops := List.find?_some slot
  simpa using stops

/-! ## One call -/

-- Everything a call can do to the table: nothing, empty a slot again it could not open, fill a free
-- slot and count it.
theorem openSlot_cases (done : p.openSlot found mode = some (result, p')) :
    (result = none ∧ p'.fileCount = p.fileCount ∧ p'.node = p.node) ∨
      ∃ fd, result = some fd ∧ p.node fd = none ∧ p'.fileCount = p.fileCount + 1#32 ∧
        p'.node = Function.update p.node fd (some found.node) := by
  rw [openSlot] at done
  cases slot : Files.freeSlot p.node with
  | none =>
      simp only [slot, Option.some.injEq, Prod.mk.injEq] at done
      obtain ⟨rfl, rfl⟩ := done
      exact .inl ⟨rfl, rfl, rfl⟩
  | some fd =>
      have free := freeSlot_none slot
      simp only [slot, Option.bind_eq_bind, Option.bind_eq_some_iff] at done
      obtain ⟨⟨err, file⟩, opened, done⟩ := done
      by_cases success : err = .success
      · subst success
        have filled := fileOpen_success opened
        simp only [if_true, Option.pure_def, Option.some.injEq, Prod.mk.injEq] at done
        obtain ⟨rfl, rfl⟩ := done
        refine .inr ⟨fd, rfl, free, rfl, ?_⟩
        funext fd'
        by_cases here : fd' = fd
        · subst here
          rw [Function.update_self, ← filled]
          exact node_setSlot
        · rw [Function.update_of_ne here]
          exact node_setSlot_of_ne here
      · simp only [success, if_false, Option.pure_def, Option.some.injEq, Prod.mk.injEq] at done
        obtain ⟨rfl, rfl⟩ := done
        refine .inl ⟨rfl, rfl, ?_⟩
        funext fd'
        by_cases here : fd' = fd
        · subst here
          rw [free]
          exact node_clearSlot
        · rw [node_clearSlot_of_ne here, node_setSlot_of_ne here]

theorem vfsOpen_cases {validated cwd : Bool} (done : p.vfsOpen validated cwd lookup mode = some (result, p')) :
    (result = none ∧ p' = p) ∨ ∃ found, lookup = some found ∧ p.openSlot found mode = some (result, p') := by
  cases lookup with
  | none =>
      simp only [vfsOpen, ite_self, Option.some.injEq, Prod.mk.injEq] at done
      exact .inl ⟨done.1.symm, done.2.symm⟩
  | some found =>
      simp only [vfsOpen] at done
      split_ifs at done with refused
      · simp only [Option.some.injEq, Prod.mk.injEq] at done
        exact .inl ⟨done.1.symm, done.2.symm⟩
      · exact .inr ⟨found, rfl, done⟩

theorem semaphoreSyscallCreate_cases {named sem validated : Bool}
    (done : p.semaphoreSyscallCreate named sem validated lookup = some (result, p')) :
    (result = none ∧ p' = p) ∨ ∃ found, lookup = some found ∧
      p.openSlot found (fileOpenRead ||| fileOpenWrite) = some (result, p') := by
  cases lookup with
  | none =>
      simp only [semaphoreSyscallCreate, ite_self, Option.some.injEq, Prod.mk.injEq] at done
      exact .inl ⟨done.1.symm, done.2.symm⟩
  | some found =>
      simp only [semaphoreSyscallCreate] at done
      split_ifs at done with refused
      · simp only [Option.some.injEq, Prod.mk.injEq] at done
        exact .inl ⟨done.1.symm, done.2.symm⟩
      · exact .inr ⟨found, rfl, done⟩

/-! ## Deleting the process -/

theorem closeSlots_eq (nodup : slots.Nodup)
    (counted : p.fileCount.toNat = slots.countP fun fd => (p.node fd).isSome) :
    p.closeSlots slots = slots.filterMap p.node := by
  induction slots generalizing p with
  | nil => rfl
  | cons fd rest ih =>
      rw [List.nodup_cons] at nodup
      rw [closeSlots, List.filterMap_cons]
      by_cases zero : p.fileCount = 0#32
      · -- nothing is counted, so nothing is left in the slots
        have nothing : (fd :: rest).countP (fun fd => (p.node fd).isSome) = 0 := by
          rw [← counted, zero]
          rfl
        rw [List.countP_eq_zero] at nothing
        have empty : ∀ fd' ∈ fd :: rest, p.node fd' = none := fun fd' member => by simpa using nothing fd' member
        rw [if_pos zero, empty fd List.mem_cons_self]
        exact (List.filterMap_eq_nil_iff.mpr fun fd' member => empty fd' (List.mem_cons_of_mem fd member)).symm
      · rw [if_neg zero]
        cases held : p.node fd with
        | none =>
            rw [List.countP_cons_of_neg (by simp [held])] at counted
            exact ih nodup.2 counted
        | some node =>
            have positive : 1 ≤ p.fileCount.toNat := by
              by_contra none
              exact zero (BitVec.eq_of_toNat_eq (by simp; omega))
            have same : ∀ fd' ∈ rest, (p.clearSlot fd).node fd' = p.node fd' := fun fd' member =>
              node_clearSlot_of_ne (by rintro rfl; exact nodup.1 member)
            rw [List.countP_cons_of_pos (by simp [held])] at counted
            dsimp only
            rw [ih nodup.2 ?_]
            · exact congrArg _ (List.filterMap_congr same)
            · rw [BitVec.toNat_sub_of_le (by simpa [BitVec.le_def] using positive)]
              have others : (rest.countP fun fd' => ((p.clearSlot fd).node fd').isSome) =
                  rest.countP fun fd' => (p.node fd').isSome :=
                List.countP_congr fun fd' member => by rw [same fd' member]
              change p.fileCount.toNat - 1 = rest.countP fun fd' => ((p.clearSlot fd).node fd').isSome
              omega

theorem processDelete_eq (counted : p.fileCount.toNat = p.used) :
    p.processDelete = (List.finRange maxFile).filterMap p.node :=
  closeSlots_eq (List.nodup_finRange _) counted

theorem used_empty (empty : ∀ fd, p.node fd = none) : p.used = 0 := by
  rw [used, List.countP_eq_zero]
  intro fd _
  simp [empty fd]

theorem vfsClose_cases {f : Int} :
    (p.vfsClose f = p ∧ ∀ fd : Fin maxFile, (fd : Int) = f → p.node fd = none) ∨
      ∃ fd : Fin maxFile, (fd : Int) = f ∧ (p.node fd).isSome ∧
        p.vfsClose f = { p.clearSlot fd with fileCount := p.fileCount - 1#32 } := by
  rw [vfsClose]
  by_cases small : 0 ≤ f ∧ f.toNat < maxFile
  · rw [dif_pos small]
    by_cases empty : (p.node ⟨f.toNat, small.2⟩).isNone
    · rw [if_pos empty]
      refine .inl ⟨rfl, fun fd here => ?_⟩
      have same : fd = ⟨f.toNat, small.2⟩ := Fin.ext (by dsimp only; omega)
      rw [same]
      exact Option.isNone_iff_eq_none.mp empty
    · rw [if_neg empty]
      refine .inr ⟨⟨f.toNat, small.2⟩, by dsimp only; omega, ?_, rfl⟩
      exact Option.isSome_iff_ne_none.mpr fun none => empty (Option.isNone_iff_eq_none.mpr none)
  · rw [dif_neg small]
    refine .inl ⟨rfl, fun fd here => absurd ⟨by omega, ?_⟩ small⟩
    have := fd.isLt
    omega

end Descriptors

/-! ## Over a run -/

namespace Session
open Descriptors
variable {s s' : Session} {fdt : Table} {std : Option (Found × Found)} {calls : List FileCall}

structure Sound (s : Session) : Prop where
  counted : s.files.fileCount.toNat = s.files.used
  held : s.files.node = s.held

theorem Sound.consistent (sound : s.Sound) : s.Consistent where
  counted := sound.counted
  opened fd node filled := by rw [← sound.held, filled]
  deleted := by rw [processDelete_eq sound.counted, sound.held]

theorem Sound.openSlot {found : Found} {mode : FileMode} {result : Option (Fin maxFile)} {files : Descriptors}
    (sound : s.Sound) (done : s.files.openSlot found mode = some (result, files)) :
    Sound ⟨files, given s.held (some found) result⟩ := by
  obtain ⟨rfl, count, nodes⟩ | ⟨fd, rfl, free, count, nodes⟩ := openSlot_cases done
  · have same : files.used = s.files.used := by rw [used, used, nodes]
    exact ⟨by rw [count, same]; exact sound.counted, by rw [nodes]; exact sound.held⟩
  · have more : files.used = s.files.used + 1 := by
      refine used_fill free (by simp [nodes]) fun fd' other => ?_
      rw [nodes, Function.update_of_ne other]
    have room := used_le files
    refine ⟨?_, ?_⟩
    · dsimp only
      have small : maxFile = 128 := rfl
      rw [count, more, BitVec.toNat_add, sound.counted]
      change (s.files.used + 1) % 2 ^ 32 = _
      omega
    · dsimp only
      rw [nodes, sound.held]
      rfl

theorem Sound.vfsClose (sound : s.Sound) (fileDescriptor : Int) :
    Sound ⟨s.files.vfsClose fileDescriptor, fun fd => if (fd : Int) = fileDescriptor then none else s.held fd⟩ := by
  obtain ⟨same, empty⟩ | ⟨fd, rfl, filled, closed⟩ :=
    vfsClose_cases (p := s.files) (f := fileDescriptor)
  · rw [same]
    refine ⟨sound.counted, ?_⟩
    funext fd
    dsimp only
    split_ifs with here
    · exact empty fd here
    · rw [sound.held]
  · have others : ∀ fd', fd' ≠ fd → s.files.node fd' = (s.files.vfsClose fd).node fd' := by
      intro fd' other
      rw [closed]
      exact (node_clearSlot_of_ne other).symm
    have cleared : (s.files.vfsClose fd).node fd = none := by
      rw [closed]
      exact node_clearSlot
    have fewer : s.files.used = (s.files.vfsClose fd).used + 1 := used_fill cleared filled others
    have count : (s.files.vfsClose fd).fileCount = s.files.fileCount - 1#32 := by rw [closed]
    refine ⟨?_, ?_⟩
    · have positive : 1#32 ≤ s.files.fileCount := by
        rw [BitVec.le_def, sound.counted, fewer]
        exact Nat.le_add_left _ _
      dsimp only
      rw [count, BitVec.toNat_sub_of_le positive, sound.counted, fewer]
      rfl
    · funext fd'
      dsimp only
      split_ifs with here
      · rw [Fin.ext (by omega : (fd' : Nat) = fd)]
        exact cleared
      · rw [← others fd' (by rintro rfl; exact here rfl), sound.held]

theorem Sound.step {call : FileCall} (sound : s.Sound) (done : s.step call = some s') : s'.Sound := by
  cases call with
  | vfsOpen validated cwd lookup mode =>
      simp only [Session.step, Option.bind_eq_bind, Option.bind_eq_some_iff] at done
      obtain ⟨⟨fd, files⟩, opened, done⟩ := done
      cases done
      obtain ⟨rfl, rfl⟩ | ⟨found, rfl, filled⟩ := vfsOpen_cases opened
      · exact sound
      · exact sound.openSlot filled
  | vfsClose fileDescriptor =>
      cases done
      exact sound.vfsClose fileDescriptor
  | semaphoreSyscallCreate named sem validated lookup =>
      simp only [Session.step, Option.bind_eq_bind, Option.bind_eq_some_iff] at done
      obtain ⟨⟨fd, files⟩, opened, done⟩ := done
      cases done
      obtain ⟨rfl, rfl⟩ | ⟨found, rfl, filled⟩ := semaphoreSyscallCreate_cases opened
      · exact sound
      · exact sound.openSlot filled

theorem Sound.run (sound : s.Sound) (done : s.run calls = some s') : s'.Sound := by
  induction calls generalizing s with
  | nil =>
      cases done
      exact sound
  | cons call calls ih =>
      rw [Session.run, List.foldlM_cons] at done
      obtain ⟨next, first, rest⟩ := Option.bind_eq_some_iff.mp done
      exact ih (sound.step first) rest

/-! ## The block from `kmalloc` -/

-- The slots `process_set_stdfile` fills.
def filled (std : Option (Found × Found)) : List (Fin maxFile) :=
  if std.isSome then [sysfileFdStdin, sysfileFdStdout] else []

def standard (fdt : Table) (stdin stdout : Found) : Descriptors where
  fileDescriptorTable := Function.update (Function.update fdt sysfileFdStdin ⟨some stdin.node, fileOpenRead, 0⟩)
    sysfileFdStdout ⟨some stdout.node, fileOpenWrite ||| fileOpenAppend, 0⟩
  fileCount := 2#32

theorem fileOpen_plain {file : Description} {found : Found} {m : FileMode}
    (anyNode : m.has fileOpenOnlydir = false) (keeps : m.has fileOpenTruncate = false) :
    ∃ err, fileOpen file found m = some (err, ⟨some found.node, m, 0⟩) := by
  simp [fileOpen, anyNode, keeps]

theorem processSetStdfile_eq (fdt : Table) (stdin stdout : Found) :
    (Descriptors.processNew fdt).processSetStdfile stdin fileOpenRead stdout (fileOpenWrite ||| fileOpenAppend) =
      some (standard fdt stdin stdout) := by
  obtain ⟨err, first⟩ := fileOpen_plain (m := fileOpenRead)
    (by decide) (by decide)
  obtain ⟨err', second⟩ := fileOpen_plain
    (m := fileOpenWrite ||| fileOpenAppend) (by decide) (by decide)
  have untouched : ((Descriptors.processNew fdt).setSlot sysfileFdStdin ⟨some stdin.node, fileOpenRead, 0⟩).fileDescriptorTable
      sysfileFdStdout = fdt sysfileFdStdout := by
    have other : sysfileFdStdout ≠ sysfileFdStdin := by decide
    simp [setSlot, Descriptors.processNew, other]
  rw [processSetStdfile, show (Descriptors.processNew fdt).fileDescriptorTable = fdt from rfl, first, Option.bind_eq_bind,
    Option.bind_some]
  dsimp only
  rw [untouched, second]
  rfl

theorem start_none (blank : ∀ fd, (fdt fd).node = none) : Sound ⟨Descriptors.processNew fdt, fun _ => none⟩ where
  counted := (used_empty (p := Descriptors.processNew fdt) blank).symm
  held := funext blank

theorem start_std {stdin stdout : Found} (done : start fdt (some (stdin, stdout)) = some s)
    (blank : ∀ fd, fd ∉ [sysfileFdStdin, sysfileFdStdout] → (fdt fd).node = none) : s.Sound := by
  rw [start, processSetStdfile_eq, Option.bind_eq_bind, Option.bind_some, Option.pure_def, Option.some.injEq] at done
  subst done
  have held : (standard fdt stdin stdout).node = Function.update (Function.update (fun _ => none) sysfileFdStdin
      (some stdin.node)) sysfileFdStdout (some stdout.node) := by
    funext fd
    simp only [node, standard]
    by_cases second : fd = sysfileFdStdout
    · subst second
      simp
    · by_cases first : fd = sysfileFdStdin
      · subst first
        simp [second]
      · simpa [first, second] using blank fd (by simp [first, second])
  refine ⟨?_, held⟩
  dsimp only
  rw [used, held]
  rfl

theorem consistent_iff_blank (fdt : Table) (std : Option (Found × Found)) :
    (∃ s, start fdt std = some s ∧ ∀ calls s', s.run calls = some s' → s'.Consistent) ↔
      ∀ fd, fd ∉ filled std → (fdt fd).node = none := by
  cases std with
  | none =>
      constructor
      · rintro ⟨s, made, consistent⟩ fd -
        cases made
        have opened := (consistent [] _ rfl).opened fd
        cases stale : (fdt fd).node with
        | none => rfl
        | some node => cases opened node stale
      · intro blank
        have sound := start_none fun fd => blank fd (by simp [filled])
        exact ⟨_, rfl, fun calls s' done => (sound.run done).consistent⟩
  | some pair =>
      obtain ⟨stdin, stdout⟩ := pair
      have made : ∃ s, start fdt (some (stdin, stdout)) = some s := by
        rw [start, processSetStdfile_eq]
        exact ⟨_, rfl⟩
      obtain ⟨s, made⟩ := made
      constructor
      · rintro ⟨s', made', consistent⟩ fd outside
        obtain rfl := Option.some.inj (made.symm.trans made')
        have opened := (consistent [] _ rfl).opened fd
        simp only [filled, Option.isSome_some, if_true, List.mem_cons, List.not_mem_nil, or_false, not_or] at outside
        rw [start, processSetStdfile_eq] at made
        cases made
        simp only [node, standard, Function.update_of_ne outside.1, Function.update_of_ne outside.2] at opened
        cases stale : (fdt fd).node with
        | none => rfl
        | some node => cases opened node stale
      · intro blank
        have sound := start_std made fun fd outside => blank fd outside
        exact ⟨s, made, fun calls s' done => (sound.run done).consistent⟩

-- A block that held other data before: where slot 5 has its node there is the word 4096.
def recycled : Table := fun fd => ⟨if fd.val = 5 then some 4096 else none, fileOpenRead, 0⟩

theorem stale_slot_in_use :
    ∃ s, start recycled none = some s ∧ s.files.fileCount = 0#32 ∧ s.files.used = 1 ∧ ¬s.Consistent := by
  refine ⟨_, rfl, rfl, by decide, fun consistent => ?_⟩
  have counted : 0 = 1 := consistent.counted.trans (by decide)
  cases counted

end Session
end Kerosene.Process

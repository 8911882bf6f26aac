import Kerosene.Mem.Paging
import Kerosene.Mem.PmmRun

/-!
# What the kernel sees through the recursive and the temporary windows
-/

namespace Kerosene.Mem

/-! ## Indices -/

theorem pageDirectoryIndex_eq (addr : Word) : pageDirectoryIndex addr = addr.toNat / 2 ^ 22 := by
  rw [pageDirectoryIndex, BitVec.toNat_and, BitVec.toNat_ushiftRight, Nat.shiftRight_eq_div_pow]
  have small : addr.toNat / 2 ^ 22 < 2 ^ 10 := by
    have := addr.isLt
    omega
  rw [show (0x3ff#32).toNat = 2 ^ 10 - 1 from rfl, Nat.and_two_pow_sub_one_eq_mod, Nat.mod_eq_of_lt small]

theorem pageTableIndex_eq (addr : Word) : pageTableIndex addr = addr.toNat / 4096 % 1024 := by
  rw [pageTableIndex, BitVec.toNat_and, BitVec.toNat_ushiftRight, Nat.shiftRight_eq_div_pow,
    show (0x3ff#32).toNat = 2 ^ 10 - 1 from rfl, Nat.and_two_pow_sub_one_eq_mod]

theorem wordIndex_eq (addr : Word) : wordIndex addr = addr.toNat % 4096 / 4 := by
  rw [wordIndex, BitVec.toNat_ushiftRight, BitVec.toNat_and, Nat.shiftRight_eq_div_pow,
    show (0xfff#32).toNat = 2 ^ 12 - 1 from rfl, Nat.and_two_pow_sub_one_eq_mod]

theorem pageDirectoryIndex_lt (addr : Word) : pageDirectoryIndex addr < 1024 := by
  rw [pageDirectoryIndex_eq]
  have := addr.isLt
  omega

theorem pageTableIndex_lt (addr : Word) : pageTableIndex addr < 1024 := by
  rw [pageTableIndex_eq]
  omega

/-- The word `idx` of the page at `base`, seen as the processor splits its address. -/
structure Splits (addr : Word) (directory table idx : Nat) : Prop where
  directory : pageDirectoryIndex addr = directory
  table : pageTableIndex addr = table
  idx : wordIndex addr = idx

theorem splits_of_toNat {addr : Word} {d t i : Nat} (ht : t < 1024) (hi : i < 1024)
    (value : addr.toNat = d * 2 ^ 22 + t * 4096 + 4 * i) : Splits addr d t i := by
  refine ⟨?_, ?_, ?_⟩
  · rw [pageDirectoryIndex_eq, value]
    omega
  · rw [pageTableIndex_eq, value]
    omega
  · rw [wordIndex_eq, value]
    omega

theorem entryAddr_splits {table : Word} {d t i : Nat} (ht : t < 1024) (hi : i < 1024)
    (value : table.toNat = d * 2 ^ 22 + t * 4096) : Splits (entryAddr table i) d t i := by
  apply splits_of_toNat ht hi
  rw [entryAddr, BitVec.toNat_add, BitVec.toNat_ofNat, value]
  omega

theorem directory_splits {i : Nat} (hi : i < 1024) : Splits (entryAddr vmmngrPd i) 1023 1023 i :=
  entryAddr_splits (by decide) hi rfl

theorem table_splits {d i : Nat} (hd : d < 1024) (hi : i < 1024) :
    Splits (entryAddr (pageTableAddr d) i) 1023 d i := by
  refine entryAddr_splits hd hi ?_
  rw [pageTableAddr, BitVec.toNat_add, BitVec.toNat_ofNat, BitVec.toNat_ofNat]
  omega

theorem tempTable_splits {i : Nat} (hi : i < 1024) : Splits (entryAddr vmmngrTempTable i) 768 1022 i :=
  entryAddr_splits (by decide) hi rfl

theorem tempPd_splits {i : Nat} (hi : i < 1024) : Splits (entryAddr vmmngrTempPd i) 768 1023 i :=
  entryAddr_splits (by decide) hi rfl

/-! ## Entries -/

def Aligned (addr : Word) : Prop := addr &&& 0xfff#32 = 0#32

theorem isPresent_iff (entry : Word) : isPresent entry = true ↔ entry.getLsbD 0 = true := by
  rw [isPresent, entryPresent, BitVec.and_one_eq_setWidth_ofBool_getLsbD]
  cases entry.getLsbD 0 <;> decide

theorem pageFrameBits_bit (i : Nat) (hi : i < 32) : pageFrameBits.getLsbD i = decide (12 ≤ i) := by
  have all : ∀ j : Fin 32, pageFrameBits.getLsbD j = decide (12 ≤ j.val) := by decide
  exact all ⟨i, hi⟩

theorem attribBits_bit (i : Nat) (hi : i < 32) : (0xfff#32).getLsbD i = decide (i < 12) := by
  have all : ∀ j : Fin 32, (0xfff#32).getLsbD j = decide (j.val < 12) := by decide
  exact all ⟨i, hi⟩

theorem Aligned.bit {addr : Word} (aligned : Aligned addr) {i : Nat} (hi : i < 12) :
    addr.getLsbD i = false := by
  have low := congrArg (fun w => w.getLsbD i) aligned
  simpa [BitVec.getLsbD_and, attribBits_bit i (by omega), hi] using low

theorem frameOf_aligned (entry : Word) : Aligned (frameOf entry) := by
  apply BitVec.eq_of_getLsbD_eq
  intro i hi
  rw [frameOf, BitVec.getLsbD_and, BitVec.getLsbD_and, pageFrameBits_bit i hi, attribBits_bit i hi]
  by_cases low : i < 12 <;> simp [low]

/-- The entry that `page_entry_add_attrib` and then `page_entry_set_frame` leave. -/
def entryWith (old attrib frame : Word) : Word :=
  ((old ||| (attrib &&& 0xfff#32)) &&& ~~~pageFrameBits) ||| frame

theorem frameOf_or {entry frame : Word} (aligned : Aligned frame) (low : frameOf entry = 0#32) :
    frameOf (entry ||| frame) = frame := by
  apply BitVec.eq_of_getLsbD_eq
  intro i hi
  have bit := congrArg (fun w => w.getLsbD i) low
  simp only [frameOf, BitVec.getLsbD_and, pageFrameBits_bit i hi, BitVec.getLsbD_zero] at bit
  rw [frameOf, BitVec.getLsbD_and, BitVec.getLsbD_or, pageFrameBits_bit i hi]
  by_cases high : 12 ≤ i
  · simp only [high, decide_true, Bool.and_true] at bit ⊢
    simp [bit]
  · have : i < 12 := by omega
    simp [high, aligned.bit this]

theorem frameOf_entryWith (old attrib : Word) {frame : Word} (aligned : Aligned frame) :
    frameOf (entryWith old attrib frame) = frame := by
  apply frameOf_or aligned
  rw [frameOf, BitVec.and_assoc, show ~~~pageFrameBits &&& pageFrameBits = 0#32 from rfl, BitVec.and_zero]

theorem isPresent_entryWith (old attrib frame : Word) (present : attrib.getLsbD 0 = true) :
    isPresent (entryWith old attrib frame) = true := by
  have kept : (~~~pageFrameBits).getLsbD 0 = true := by decide
  have low : (0xfff#32).getLsbD 0 = true := by decide
  rw [isPresent_iff, entryWith, BitVec.getLsbD_or, BitVec.getLsbD_and, BitVec.getLsbD_or,
    BitVec.getLsbD_and, present, kept, low]
  simp

/-! ## Windows -/

namespace Vm
variable {m : Vm}

@[simp] theorem cr3_write (m : Vm) (frame : Word) (idx : Nat) (value : Word) :
    (m.write frame idx value).cr3 = m.cr3 := rfl
@[simp] theorem pmm_write (m : Vm) (frame : Word) (idx : Nat) (value : Word) :
    (m.write frame idx value).pmm = m.pmm := rfl

theorem word_write (m : Vm) (frame : Word) (idx : Nat) (value : Word) (g : Word) (j : Nat) :
    (m.write frame idx value).word g j = if g = frame ∧ j = idx then value else m.word g j := by
  by_cases frames : g = frame
  · subst frames
    by_cases same : j = idx
    · subst same
      simp [write]
    · simp [write, same]
  · simp [write, frames]

theorem word_write_self (m : Vm) (frame : Word) (idx : Nat) (value : Word) :
    (m.write frame idx value).word frame idx = value := by
  simp [word_write]

theorem word_write_frame {frame g : Word} (other : g ≠ frame) (m : Vm) (idx : Nat) (value : Word) :
    (m.write frame idx value).word g = m.word g := by
  funext j
  simp [word_write, other]

theorem write_write (m : Vm) (frame : Word) (idx : Nat) (first second : Word) :
    (m.write frame idx first).write frame idx second = m.write frame idx second := by
  simp [write]

/-- `addr` is where the running code sees word `idx` of `frame`. -/
structure Window (m : Vm) (addr frame : Word) (idx : Nat) : Prop where
  walk : m.walk m.cr3 addr = some frame
  idx : wordIndex addr = idx

theorem Window.load {addr frame : Word} {idx : Nat} (window : m.Window addr frame idx) :
    m.load addr = some (m.word frame idx) := by
  rw [Vm.load, window.walk, Option.map_some, window.idx]

theorem Window.store {addr frame : Word} {idx : Nat} (window : m.Window addr frame idx) (value : Word) :
    m.store addr value = some (m.write frame idx value) := by
  rw [Vm.store, window.walk, Option.map_some, window.idx]

theorem window_of_splits {addr : Word} {d t i : Nat} (splits : Splits addr d t i)
    (directory : isPresent (m.word m.cr3 d) = true)
    (table : isPresent (m.word (frameOf (m.word m.cr3 d)) t) = true) :
    m.Window addr (frameOf (m.word (frameOf (m.word m.cr3 d)) t)) i := by
  refine ⟨?_, splits.idx⟩
  simp [walk, splits.directory, splits.table, directory, table]

theorem setEntry {addr frame : Word} {idx : Nat} (window : m.Window addr frame idx)
    (stable : ∀ value, (m.write frame idx value).Window addr frame idx) (attrib target : Word) :
    (m.pageEntryAddAttrib addr attrib).bind (fun m => m.pageEntrySetFrame addr target) =
      some (m.write frame idx (entryWith (m.word frame idx) attrib target)) := by
  have first : m.pageEntryAddAttrib addr attrib =
      some (m.write frame idx (m.word frame idx ||| (attrib &&& 0xfff#32))) := by
    simp [pageEntryAddAttrib, window.load, window.store]
  rw [first, Option.bind_some, pageEntrySetFrame, (stable _).load]
  simp only [Option.bind_eq_bind, Option.bind_some]
  rw [(stable _).store, write_write, word_write_self]
  rfl

/-- The directory at `root` is its own last table. -/
structure Recursive (m : Vm) (root : Word) : Prop where
  present : isPresent (m.word root 1023) = true
  frame : frameOf (m.word root 1023) = root

theorem Recursive.window (own : m.Recursive m.cr3) {addr : Word} {d i : Nat}
    (splits : Splits addr 1023 d i) (present : isPresent (m.word m.cr3 d) = true) :
    m.Window addr (frameOf (m.word m.cr3 d)) i := by
  have window := window_of_splits splits own.present (by rwa [own.frame])
  rwa [own.frame] at window

theorem Recursive.directory (own : m.Recursive m.cr3) {i : Nat} (hi : i < 1024) :
    m.Window (entryAddr vmmngrPd i) m.cr3 i := by
  have window := own.window (directory_splits hi) own.present
  rwa [own.frame] at window

theorem Recursive.write {root frame : Word} {idx : Nat} (own : m.Recursive root)
    (other : frame ≠ root ∨ idx ≠ 1023) (value : Word) : (m.write frame idx value).Recursive root := by
  have same : (m.write frame idx value).word root 1023 = m.word root 1023 := by
    rw [word_write, if_neg]
    rintro ⟨rfl, rfl⟩
    simp at other
  exact ⟨by rw [same, own.present], by rw [same, own.frame]⟩

theorem Recursive.setEntry (own : m.Recursive m.cr3) {i : Nat} (hi : i < 1023) (attrib target : Word) :
    (m.pageEntryAddAttrib (entryAddr vmmngrPd i) attrib).bind
        (fun m => m.pageEntrySetFrame (entryAddr vmmngrPd i) target) =
      some (m.write m.cr3 i (entryWith (m.word m.cr3 i) attrib target)) := by
  refine Vm.setEntry (own.directory (by omega)) (fun value => ?_) attrib target
  exact (own.write (.inr (by omega)) value).directory (by omega)

/-- The page at `table` shows `frame`, and goes on doing so when only `frame` is written. -/
def Shows (m : Vm) (table frame : Word) : Prop :=
  ∀ m' : Vm, m'.cr3 = m.cr3 → (∀ g, g ≠ frame → m'.word g = m.word g) →
    ∀ k < 1024, m'.Window (entryAddr table k) frame k

theorem Shows.window {table frame : Word} (shown : m.Shows table frame) {k : Nat} (hk : k < 1024) :
    m.Window (entryAddr table k) frame k :=
  shown m rfl (fun _ _ => rfl) k hk

theorem Shows.write {table frame : Word} (shown : m.Shows table frame) (idx : Nat) (value : Word) :
    (m.write frame idx value).Shows table frame := by
  intro m' root same
  refine shown m' root (fun g other => ?_)
  rw [same g other, word_write_frame other]

theorem Shows.setEntry {table frame : Word} (shown : m.Shows table frame) {k : Nat} (hk : k < 1024)
    (attrib target : Word) :
    (m.pageEntryAddAttrib (entryAddr table k) attrib).bind
        (fun m => m.pageEntrySetFrame (entryAddr table k) target) =
      some (m.write frame k (entryWith (m.word frame k) attrib target)) :=
  Vm.setEntry (shown.window hk) (fun value => (shown.write k value).window hk) attrib target

theorem Recursive.shows (own : m.Recursive m.cr3) {d : Nat} (hd : d < 1024)
    (present : isPresent (m.word m.cr3 d) = true) (other : frameOf (m.word m.cr3 d) ≠ m.cr3) :
    m.Shows (pageTableAddr d) (frameOf (m.word m.cr3 d)) := by
  intro m' root same k hk
  have directory : m'.word m'.cr3 = m.word m.cr3 := by rw [root, same _ other.symm]
  have own' : m'.Recursive m'.cr3 := ⟨by rw [directory, own.present], by rw [directory, own.frame, root]⟩
  have window := own'.window (table_splits hd hk) (by rwa [directory])
  rwa [directory] at window

theorem shows_temporary {table frame : Word} {t : Nat} (splits : ∀ k < 1024, Splits (entryAddr table k) 768 t k)
    (present : isPresent (m.word m.cr3 768) = true) (notRoot : frame ≠ m.cr3)
    (notTable : frame ≠ frameOf (m.word m.cr3 768))
    (entryPresent : isPresent (m.word (frameOf (m.word m.cr3 768)) t) = true)
    (entry : frameOf (m.word (frameOf (m.word m.cr3 768)) t) = frame) : m.Shows table frame := by
  intro m' root same k hk
  have directory : m'.word m'.cr3 = m.word m.cr3 := by rw [root, same _ notRoot.symm]
  have kernel : m'.word (frameOf (m.word m.cr3 768)) = m.word (frameOf (m.word m.cr3 768)) :=
    same _ notTable.symm
  have window := window_of_splits (m := m') (splits k hk) (by rwa [directory])
    (by rwa [directory, kernel])
  rwa [directory, kernel, entry] at window

/-! ## Filling a frame through a window -/

def setWords (m : Vm) (frame : Word) (words : Nat → Word) : Vm :=
  { m with word := Function.update m.word frame words }

@[simp] theorem cr3_setWords (m : Vm) (frame : Word) (words : Nat → Word) :
    (m.setWords frame words).cr3 = m.cr3 := rfl
@[simp] theorem pmm_setWords (m : Vm) (frame : Word) (words : Nat → Word) :
    (m.setWords frame words).pmm = m.pmm := rfl

theorem word_setWords (m : Vm) (frame : Word) (words : Nat → Word) (g : Word) :
    (m.setWords frame words).word g = if g = frame then words else m.word g := by
  by_cases same : g = frame
  · subst same
    simp [setWords]
  · simp [setWords, same]

theorem Shows.setWords {table frame : Word} (shown : m.Shows table frame) (words : Nat → Word) :
    (m.setWords frame words).Shows table frame := by
  intro m' root same
  refine shown m' root (fun g other => ?_)
  rw [same g other, word_setWords, if_neg other]

theorem setWords_write (m : Vm) (frame : Word) (idx : Nat) (value : Word) (words : Nat → Word) :
    (m.write frame idx value).setWords frame words = m.setWords frame words := by
  simp [setWords, Vm.write]

theorem setWords_self (m : Vm) (frame : Word) : m.setWords frame (m.word frame) = m := by
  rw [setWords, Function.update_eq_self]

-- one more word filled in front of those from `idx + 1` on
theorem filled_succ {words old : Nat → Word} {idx n : Nat} :
    (fun k => if idx + 1 ≤ k ∧ k < idx + 1 + n then words k else if k = idx then words idx else old k) =
      fun k => if idx ≤ k ∧ k < idx + (n + 1) then words k else old k := by
  funext k
  by_cases here : k = idx
  · subst here
    simp
  · rw [if_neg here]
    exact if_congr (by omega) rfl rfl

theorem Shows.clearTable {table frame : Word} (shown : m.Shows table frame) {n i : Nat}
    (inside : i + n ≤ 1024) :
    m.clearTable table n i =
      some (m.setWords frame fun k => if i ≤ k ∧ k < i + n then 0#32 else m.word frame k) := by
  induction n generalizing m i with
  | zero =>
      have none : (fun k => if i ≤ k ∧ k < i + 0 then 0#32 else m.word frame k) = m.word frame := by
        funext k
        exact if_neg (by omega)
      rw [Vm.clearTable, none, setWords_self]
  | succ n ih =>
      rw [Vm.clearTable, (shown.window (by omega)).store, Option.bind_eq_bind, Option.bind_some,
        ih (shown.write i 0#32) (by omega), setWords_write, ← filled_succ]
      simp [word_write]

theorem Shows.copyDirectory {src table frame : Word} (shown : m.Shows table frame) (other : src ≠ frame)
    {n i : Nat} (inside : i + n ≤ 1024) :
    m.copyDirectory src table n i =
      some (m.setWords frame fun k => if i ≤ k ∧ k < i + n then m.word src k else m.word frame k) := by
  induction n generalizing m i with
  | zero =>
      have none : (fun k => if i ≤ k ∧ k < i + 0 then m.word src k else m.word frame k) = m.word frame := by
        funext k
        exact if_neg (by omega)
      rw [Vm.copyDirectory, none, setWords_self]
  | succ n ih =>
      rw [Vm.copyDirectory, (shown.window (by omega)).store, Option.bind_eq_bind, Option.bind_some,
        ih (shown.write i _) (by omega), setWords_write, ← filled_succ]
      simp [word_write, other]

end Vm
end Kerosene.Mem

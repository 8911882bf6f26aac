import Kerosene.Process.Spawn

/-!
# What a failed spawn gives back
-/

namespace Kerosene.Process
open Lib Mem Mem.Spaces Mem.AddressSpace

/-! ## The stack's pages -/

theorem stackPage_index : ∀ i < 16, pageDirectoryIndex (stackPage i) = 767 ∧ pageTableIndex (stackPage i) = 1008 + i ∧
    stackPage i < kernelStart := by
  decide

theorem tableWord_congr {m : Vm} {pd v w : Word} (same : pageDirectoryIndex v = pageDirectoryIndex w) (k : Nat) :
    m.tableWord pd v k = m.tableWord pd w k := by
  rw [Vm.tableWord, Vm.tableWord, Vm.tableIn, Vm.tableIn, same]

theorem hasTable_congr {m : Vm} {pd v w : Word} (same : pageDirectoryIndex v = pageDirectoryIndex w) :
    m.HasTable pd v ↔ m.HasTable pd w := by
  rw [Vm.HasTable, Vm.HasTable, same]

/-- What the directory maps page `i` of the stack to. -/
def stackEntry (m : Vm) (pd : Word) (i : Nat) : Word := m.tableWord pd stackBottom (1008 + i)

def stackFrames (phys : Word) (i n : Nat) : List Word := (List.range' i n).map fun j => phys + BitVec.ofNat 32 (j * 4096)

/-- The frames that the stack's pages were mapped to before. -/
def replaced (m : Vm) (pd : Word) (i n : Nat) : List Word := (List.range' i n).flatMap fun j => mappedFrame (stackEntry m pd j)

namespace Creation
variable {start : Pmm} {dirs : List Word} {slots : Word} {s : AddressSpace} {c c' : Creation} {phys : Word} {i n : Nat}

/-- The directory of `s` is active, and the frames obtained are those taken since `start`. -/
structure Mapping (start : Pmm) (dirs : List Word) (slots : Word) (s : AddressSpace) (c : Creation) : Prop where
  vm : c.vm = s.vm.vmmngrSwitchPageDirectory s.pd
  populated : Populated start dirs slots s
  obtained : start.HandedOut c.obtained c.vm.pmm

theorem Mapping.mapStack (mapping : Mapping start dirs slots s c) (inside : i + n ≤ 16)
    (table : s.vm.HasTable s.pd stackBottom) {rest : List Word} (spare : s.spare.Perm (stackFrames phys i n ++ rest)) :
    ∃ t c', c.mapStack phys n i = some c' ∧ Mapping start dirs slots t c' ∧ t.pd = s.pd ∧ t.vm.cr3 = s.vm.cr3 ∧
      t.spare.Perm (replaced s.vm s.pd i n ++ rest) ∧ c'.heap = c.heap ∧ c'.released = c.released := by
  induction n generalizing i s c rest with
  | zero => exact ⟨s, c, rfl, mapping, rfl, rfl, spare, rfl, rfl⟩
  | succ n ih =>
      obtain ⟨index, entry, user⟩ := stackPage_index i (by omega)
      have bottom : pageDirectoryIndex stackBottom = 767 := by decide
      have sameTable : pageDirectoryIndex (stackPage i) = pageDirectoryIndex stackBottom := by rw [index, bottom]
      have listed : phys + BitVec.ofNat 32 (i * 4096) ∈ s.spare := spare.mem_iff.mpr List.mem_cons_self
      obtain ⟨vm, mapped, done⟩ := mapping.populated.remap listed user stackFlags ((hasTable_congr sameTable).mpr table)
      rw [← mapping.vm] at mapped
      set t : AddressSpace := { s with
        vm := vm.vmmngrSwitchPageDirectory s.vm.cr3
        spare := mappedFrame (s.vm.tableWord s.pd (stackPage i) (pageTableIndex (stackPage i))) ++
          s.spare.erase (phys + BitVec.ofNat 32 (i * 4096))
        pages := page (stackPage i) :: s.pages } with tDef
      have next : Mapping start dirs slots t
          { c with vm := vm, obtained := c.vm.tableTaken c.vm.cr3 (stackPage i) ++ c.obtained } := by
        refine ⟨?_, done.populated, ?_⟩
        · calc vm = vm.vmmngrSwitchPageDirectory vm.cr3 := rfl
            _ = vm.vmmngrSwitchPageDirectory s.pd := by rw [done.root]
        · have handed := done.taken c.obtained
          rw [mapping.vm]
          have before := mapping.obtained
          rw [mapping.vm] at before
          exact handed before
      have lost : mappedFrame (s.vm.tableWord s.pd (stackPage i) (pageTableIndex (stackPage i))) =
          mappedFrame (stackEntry s.vm s.pd i) := by
        rw [stackEntry, tableWord_congr sameTable, entry]
      have left : t.spare.Perm (stackFrames phys (i + 1) n ++ (mappedFrame (stackEntry s.vm s.pd i) ++ rest)) := by
        have erased := spare.erase (phys + BitVec.ofNat 32 (i * 4096))
        rw [stackFrames, List.range'_succ, List.map_cons, List.cons_append, List.erase_cons_head] at erased
        rw [tDef, lost]
        exact (erased.append_left _).trans (List.perm_append_comm_assoc _ _ _)
      have again : t.vm.HasTable t.pd stackBottom := by
        rw [Vm.HasTable, ← sameTable]
        exact .inl done.present
      obtain ⟨u, c', run, ended, pd, root, spares, heap, released⟩ := ih next (by omega) again left
      refine ⟨u, c', ?_, ended, pd, root, spares.trans ?_, heap, released⟩
      · rw [Creation.mapStack, mapped]
        exact run
      · have same : replaced t.vm t.pd (i + 1) n = replaced s.vm s.pd (i + 1) n := by
          refine List.flatMap_congr fun j member => ?_
          obtain ⟨low, high⟩ := List.mem_range'_1.mp member
          have kept := done.others (1008 + j) (by omega) (by omega)
          rw [tableWord_congr sameTable, tableWord_congr sameTable] at kept
          exact congrArg mappedFrame kept
        rw [same, replaced, replaced, List.range'_succ, List.flatMap_cons, List.append_assoc]
        exact List.perm_append_comm_assoc _ _ _

theorem Mapping.mapStack_oom (mapping : Mapping start dirs slots s c) (inside : i + n ≤ 16)
    (table : ¬ s.vm.HasTable s.pd stackBottom) : c.mapStack phys n i = some c := by
  induction n generalizing i with
  | zero => rfl
  | succ n ih =>
      obtain ⟨index, _, _⟩ := stackPage_index i (by omega)
      have bottom : pageDirectoryIndex stackBottom = 767 := by decide
      have sameTable : pageDirectoryIndex (stackPage i) = pageDirectoryIndex stackBottom := by rw [index, bottom]
      obtain ⟨failed, none⟩ := mapping.populated.remap_oom (phys + BitVec.ofNat 32 (i * 4096)) stackFlags
        ((hasTable_congr sameTable).not.mpr table)
      rw [← mapping.vm] at failed
      have nothing : c.vm.tableTaken c.vm.cr3 (stackPage i) = [] := by
        rw [mapping.vm]
        exact none
      rw [Creation.mapStack, failed]
      simp only [Option.bind_eq_bind, Option.bind_some, nothing, List.nil_append]
      exact ih (by omega)

/-! ## Calls of kmalloc -/

theorem Mapping.kmalloc (mapping : Mapping start dirs slots s c) (K : Supply) (block : HeapBlock)
    (quiet : ∀ m : Vm, m.Housed (s.pd :: dirs) slots → m.Elsewhere s.pd dirs slots (K.grown block m)) :
    ∃ start' vm, Mapping start' dirs slots { s with vm := vm } (c.kmalloc K block).2 ∧ vm.cr3 = s.vm.cr3 := by
  have active := quiet c.vm (mapping.vm ▸ mapping.populated.switched)
  set grown := K.grown block c.vm with grownDef
  have root : grown.cr3 = s.pd := by rw [active.root, mapping.vm]; rfl
  have inactive : s.vm.Elsewhere s.pd dirs slots (grown.vmmngrSwitchPageDirectory s.vm.cr3) := by
    have moved := active
    rw [mapping.vm] at moved
    exact ⟨rfl, moved.housed.switch mapping.populated.housed.active, moved.entries, moved.tables, moved.taken⟩
  have obtained := mapping.obtained
  rw [mapping.vm] at obtained
  obtain ⟨start', populated, handed⟩ := mapping.populated.elsewhere inactive obtained
  refine ⟨start', grown.vmmngrSwitchPageDirectory s.vm.cr3, ⟨?_, populated, handed⟩, rfl⟩
  calc grown = grown.vmmngrSwitchPageDirectory grown.cr3 := rfl
    _ = grown.vmmngrSwitchPageDirectory s.pd := by rw [root]

/-! ## The exits -/

/-- Every block has been freed as often as it was obtained, and every frame exactly once. -/
structure Restored (c : Creation) : Prop where
  heap : ∀ addr, c.heap.count (.kfree addr) = c.heap.count (.kmalloc addr)
  frames : ∀ f ∈ c.obtained, c.released.count f = 1

theorem restored_iff (populated : Populated start dirs slots s) (obtained : start.HandedOut c.obtained s.vm.pmm)
    (vm : c.vm = s.vm) (fresh : c.released = []) (heap : ∀ addr, c.heap.count (.kfree addr) = c.heap.count (.kmalloc addr))
    {out : Creation} (freed : c.freePageDirectory s.pd = some out) : out.Restored ↔ s.spare = [] := by
  obtain ⟨after, _, rfl⟩ := Option.map_eq_some_iff.mp freed
  have frames := obtained.unique populated.accounts
  have nodup := populated.accounts.nodup
  rw [vm, fresh, List.nil_append]
  constructor
  · rintro ⟨_, once⟩
    refine List.eq_nil_iff_forall_not_mem.mpr fun f member => ?_
    have counted := once f (frames.mem_iff.mpr (List.mem_append_right _ member))
    have listed : f ∈ s.vm.freedFrames s.pd := List.count_pos_iff.mp (by rw [counted]; decide)
    exact List.disjoint_of_nodup_append nodup listed member
  · intro none
    refine ⟨heap, fun f member => ?_⟩
    rw [frames.mem_iff, none, List.append_nil] at member
    exact List.count_eq_one_of_mem nodup.of_append_left member

variable {K : Supply} {pd kernelPd : Word} {out : Creation}

theorem schedulerSpawn_user (run : c.schedulerSpawn K true pd kernelPd = some (-1, out)) :
    ∃ c', c.processNew K true pd kernelPd = some (none, c') ∧ c'.freePageDirectory pd = some out := by
  obtain ⟨⟨proc, c'⟩, made, rest⟩ := Option.bind_eq_some_iff.mp run
  cases proc with
  | some proc => cases rest
  | none =>
      obtain ⟨c'', freed, same⟩ := Option.bind_eq_some_iff.mp rest
      cases same
      exact ⟨c', made, freed⟩

theorem schedulerSpawn_kernel (run : c.schedulerSpawn K false pd kernelPd = some (-1, out)) :
    c.processNew K false pd kernelPd = some (none, out) := by
  obtain ⟨⟨proc, c'⟩, made, rest⟩ := Option.bind_eq_some_iff.mp run
  cases proc with
  | some proc => cases rest
  | none =>
      cases rest
      exact made

end Creation

/-- No page of the stack is mapped, and there is a table for the stack or a frame for one. -/
structure StackFits (m : Vm) (pd : Word) : Prop where
  table : m.HasTable pd stackBottom
  pages : ∀ i < 16, m.walk pd (stackPage i) = none

/-- The user stack is refused, or the kernel stack is, after the user stack was mapped as it should be. -/
def Supply.StackRestores (K : Supply) (m : Vm) (pd : Word) : Prop :=
  (m.pmm.allocMultiBlock 16#32).1 = 0#32 ∨
    (K.kmalloc .stack = 0#32 ∧ StackFits (m.withPmm (m.pmm.allocMultiBlock 16#32).2) pd)

theorem replaced_eq_nil {start : Pmm} {dirs : List Word} {slots : Word} {s : AddressSpace}
    (populated : Populated start dirs slots s) :
    replaced s.vm s.pd 0 16 = [] ↔ ∀ i < 16, s.vm.walk s.pd (stackPage i) = none := by
  rw [replaced, List.flatMap_eq_nil_iff]
  have unmapped : ∀ i < 16, mappedFrame (stackEntry s.vm s.pd i) = [] ↔ s.vm.walk s.pd (stackPage i) = none := by
    intro i inside
    obtain ⟨index, entry, user⟩ := stackPage_index i inside
    have bottom : pageDirectoryIndex stackBottom = 767 := by decide
    rw [stackEntry, Vm.tableWord, Vm.walk, Vm.tableIn, bottom, index, entry, mappedFrame]
    cases table : isPresent (s.vm.word s.pd 767) with
    | false => simp [frameOf]
    | true =>
        have entries := populated.entries 767 (by decide) (isPresent_ne table) (1008 + i) (by omega)
        simp only [if_true]
        by_cases zero : s.vm.word (frameOf (s.vm.word s.pd 767)) (1008 + i) = 0#32
        · rw [zero]
          simp [frameOf, isPresent]
        · obtain ⟨present, nonzero, _⟩ := entries zero
          simp [nonzero, present]
  constructor
  · intro none i inside
    exact (unmapped i inside).mp (none i (List.mem_range'_1.mpr ⟨Nat.zero_le i, by omega⟩))
  · intro none i member
    have inside := (List.mem_range'_1.mp member).2
    exact (unmapped i (by omega)).mpr (none i (by omega))

namespace Creation
variable {K : Supply} {start : Pmm} {dirs : List Word} {slots : Word} {s : AddressSpace} {c c' out : Creation}

theorem mem_freePageDirectory {pd : Word} (freed : c.freePageDirectory pd = some c') :
    0 < (c'.released.count pd - c.released.count pd) ∧ c'.obtained = c.obtained := by
  obtain ⟨after, _, rfl⟩ := Option.map_eq_some_iff.mp freed
  have listed : pd ∈ c.vm.freedFrames pd := Vm.mem_freedFrames.mpr (.inl rfl)
  have counted := List.count_pos_iff.mpr listed
  rw [List.count_append]
  exact ⟨by omega, rfl⟩

theorem not_restored_of_deleted {proc : NewProcess} (deleted : c.processDelete proc = some c') (user : proc.isUser = true)
    (member : proc.pageDirectory ∈ c.obtained) (freed : c'.freePageDirectory proc.pageDirectory = some out) :
    ¬ out.Restored := by
  rw [processDelete, if_pos user] at deleted
  obtain ⟨half, once, last⟩ := Option.bind_eq_some_iff.mp deleted
  cases last
  obtain ⟨one, kept⟩ := mem_freePageDirectory once
  obtain ⟨two, left⟩ := mem_freePageDirectory freed
  rintro ⟨_, frames⟩
  have counted := frames proc.pageDirectory (by rw [left]; exact kept ▸ member)
  simp only [kfree] at two
  omega

theorem Mapping.newTssStack (mapping : Mapping start dirs slots s c) {proc : NewProcess}
    (made : c.newTssStack K s.vm.cr3 proc = some (none, c')) (owns : proc.pageDirectory = s.pd)
    (user : proc.isUser = true) (fresh : c.released = [])
    (heap : c.heap = [.kmalloc proc.addr, .kmalloc proc.fileDescriptorTable])
    (quiet : ∀ m : Vm, m.Housed (s.pd :: dirs) slots → m.Elsewhere s.pd dirs slots (K.grown .stack m))
    (freed : c'.freePageDirectory s.pd = some out) :
    out.Restored ↔ K.kmalloc .stack = 0#32 ∧ s.spare = [] := by
  by_cases refused : K.kmalloc .stack = 0#32
  · have cleaned : c' = (c.kmalloc K .stack).2.cleanUp s.vm.cr3 proc := by
      unfold Creation.newTssStack at made
      dsimp only [Creation.kmalloc] at made
      rw [if_pos refused] at made
      cases made
      rfl
    obtain ⟨start', vm, grown, root⟩ := mapping.kmalloc K .stack quiet
    have calls : c'.heap = c.heap ++ [.kfree proc.fileDescriptorTable] ++ [.kfree proc.addr] := by
      rw [cleaned]
      simp only [cleanUp, Creation.kmalloc, switch, kfree, refused, if_true]
    have back : c'.vm = vm := by
      calc c'.vm = (c.kmalloc K .stack).2.vm.vmmngrSwitchPageDirectory s.vm.cr3 := by rw [cleaned]; rfl
        _ = vm.vmmngrSwitchPageDirectory vm.cr3 := by rw [grown.vm, root]; rfl
        _ = vm := rfl
    have obtained : start'.HandedOut c'.obtained vm.pmm := by
      have handed := grown.obtained
      rw [grown.vm] at handed
      rw [cleaned]
      exact handed
    have balanced : ∀ addr, c'.heap.count (.kfree addr) = c'.heap.count (.kmalloc addr) := by
      intro addr
      rw [calls, heap]
      simp [List.count_cons]
      omega
    rw [and_iff_right refused]
    exact restored_iff grown.populated obtained back (by rw [cleaned]; exact fresh) balanced freed
  · unfold Creation.newTssStack at made
    dsimp only [Creation.kmalloc] at made
    rw [if_neg refused] at made
    obtain ⟨vm, _, rest⟩ := Option.bind_eq_some_iff.mp made
    refine iff_of_false ?_ (fun both => refused both.1)
    split_ifs at rest with created
    · obtain ⟨deleted, done, same⟩ := Option.bind_eq_some_iff.mp rest
      cases same
      have handed := mapping.obtained
      rw [mapping.vm] at handed
      have frames := handed.unique mapping.populated.accounts
      have member : s.pd ∈ c.obtained := frames.mem_iff.mpr (List.mem_append_left _ (Vm.mem_freedFrames.mpr (.inl rfl)))
      rw [← owns] at member freed
      exact not_restored_of_deleted done user member freed
    · cases rest

theorem newUserStack_restored (populated : Populated start dirs slots s) (spare : s.spare = []) (vm : c.vm = s.vm)
    (obtained : start.HandedOut c.obtained s.vm.pmm) (fresh : c.released = []) {proc : NewProcess}
    (owns : proc.pageDirectory = s.pd) (user : proc.isUser = true)
    (heap : c.heap = [.kmalloc proc.addr, .kmalloc proc.fileDescriptorTable])
    (quiet : ∀ m : Vm, m.Housed (s.pd :: dirs) slots → m.Elsewhere s.pd dirs slots (K.grown .stack m))
    (made : c.newUserStack K proc = some (none, c')) (freed : c'.freePageDirectory s.pd = some out) :
    out.Restored ↔ K.StackRestores s.vm s.pd := by
  have alloc := Pmm.allocMultiBlock_spec populated.housed.pmm 16#32
  have handed := populated.handOut alloc
  have size : userStackSize / 4096#32 = 16#32 := by decide
  have bottom : ¬ stackBottom = 0#32 := by decide
  have blocks : (16#32).toNat = 16 := rfl
  unfold Creation.newUserStack at made
  dsimp only [Creation.allocMultiBlock] at made
  rw [if_neg bottom, size, blocks, show (c.switch proc.pageDirectory).vm.pmm = s.vm.pmm by rw [switch, vm]; rfl] at made
  set out16 := s.vm.pmm.allocMultiBlock 16#32 with outDef
  rw [Supply.StackRestores, ← outDef]
  by_cases refused : out16.1 = 0#32
  · rw [if_pos refused, if_pos refused] at made
    cases made
    rw [AddressSpace.handOut, if_pos refused] at handed
    refine iff_of_true ((restored_iff handed ?_ ?_ ?_ ?_ freed).mpr spare) (.inl refused)
    · rw [show (s.vm.withPmm out16.2).pmm = s.vm.pmm from alloc.keeps refused]
      exact obtained
    · rw [← vm]
      rfl
    · exact fresh
    · intro addr
      simp only [cleanUp, switch, kfree, heap]
      simp [List.count_cons]
      omega
  · rw [if_neg refused, if_neg refused] at made
    obtain ⟨c₃, mapped, finished⟩ := Option.bind_eq_some_iff.mp made
    have frames : framesFrom out16.1 16 ++ s.spare = stackFrames out16.1 0 16 ++ [] := by
      rw [framesFrom, stackFrames, List.range_eq_range', spare]
      rfl
    have taken := obtained.take alloc refused
    rw [AddressSpace.handOut, if_neg refused, blocks, frames] at handed
    set t : AddressSpace := { s with vm := s.vm.withPmm out16.2, spare := stackFrames out16.1 0 16 ++ [] } with tDef
    set c₂ : Creation := { c.switch proc.pageDirectory with
      vm := { (c.switch proc.pageDirectory).vm with pmm := out16.2 }
      obtained := framesFrom out16.1 16 ++ (c.switch proc.pageDirectory).obtained } with c₂Def
    have mapping : Mapping start dirs slots t c₂ := by
      refine ⟨?_, handed, taken⟩
      rw [c₂Def, switch, vm, owns]
      rfl
    have unused : replaced t.vm t.pd 0 16 = [] ↔ ∀ i < 16, (s.vm.withPmm out16.2).walk s.pd (stackPage i) = none :=
      replaced_eq_nil handed
    rw [vm] at finished
    by_cases table : t.vm.HasTable t.pd stackBottom
    · obtain ⟨u, c₄, run, mapping', pd, root, spares, calls, released⟩ :=
        mapping.mapStack (le_refl _) table (List.Perm.refl _)
      rw [run] at mapped
      rw [← Option.some.inj mapped, show s.vm.cr3 = u.vm.cr3 from root.symm] at finished
      rw [show s.pd = u.pd from pd.symm] at owns quiet freed
      have final := mapping'.newTssStack finished owns user (released.trans fresh) (calls.trans heap) quiet freed
      rw [final, or_iff_right refused]
      refine and_congr_right fun _ => ?_
      rw [List.append_nil] at spares
      constructor
      · intro none
        rw [none] at spares
        exact ⟨table, unused.mp (List.Perm.nil_eq spares).symm⟩
      · intro fits
        rw [unused.mpr fits.pages] at spares
        exact List.Perm.eq_nil spares
    · rw [mapping.mapStack_oom (le_refl _) table] at mapped
      rw [← Option.some.inj mapped] at finished
      have final := mapping.newTssStack finished owns user fresh heap quiet freed
      rw [final, or_iff_right refused]
      refine and_congr_right fun _ => iff_of_false (fun none => ?_) fun fits => table fits.table
      cases none

/-! ## The whole spawn -/

theorem kernel_restored {vm : Vm} {kernelPd pd : Word}
    (run : Creation.schedulerSpawn K ⟨vm, [], [], []⟩ false pd kernelPd = some (-1, out)) :
    out.Restored ↔ K.kmalloc .process = 0#32 ∨ K.kmalloc .descriptorTable = 0#32 := by
  have made := schedulerSpawn_kernel run
  unfold Creation.processNew at made
  dsimp only [Creation.kmalloc] at made
  by_cases process : K.kmalloc .process = 0#32
  · rw [if_pos process, if_pos process] at made
    cases made
    exact iff_of_true ⟨fun _ => rfl, fun f member => absurd member List.not_mem_nil⟩ (.inl process)
  · rw [if_neg process, if_neg process] at made
    by_cases table : K.kmalloc .descriptorTable = 0#32
    · rw [if_pos table, if_pos table] at made
      cases made
      refine iff_of_true ⟨fun addr => ?_, fun f member => absurd member List.not_mem_nil⟩ (.inr table)
      simp [kfree, List.count_cons]
    · rw [if_neg table, if_neg table, if_neg Bool.false_ne_true] at made
      unfold Creation.newKernelStack at made
      dsimp only [Creation.kmalloc] at made
      by_cases stack : K.kmalloc .stack = 0#32
      · rw [if_pos stack, if_pos stack] at made
        cases made
        -- the descriptor table is not freed
        refine iff_of_false (fun restored => ?_) (by simp [process, table])
        have counted := restored.heap (K.kmalloc .descriptorTable)
        simp [kfree, List.count_cons] at counted
      · rw [if_neg stack] at made
        obtain ⟨_, _, same⟩ := Option.bind_eq_some_iff.mp made
        cases same

theorem user_restored {vm : Vm} {kernelPd pd : Word} {pages : List Nat}
    (populated : Populated start dirs slots ⟨vm, pd, [], pages⟩)
    (quiet : ∀ block, ∀ m : Vm, m.Housed (pd :: dirs) slots → m.Elsewhere pd dirs slots (K.grown block m))
    (run : Creation.schedulerSpawn K ⟨vm, [], vm.freedFrames pd, []⟩ true pd kernelPd = some (-1, out)) :
    out.Restored ↔ K.kmalloc .process = 0#32 ∨ K.kmalloc .descriptorTable = 0#32 ∨
      K.StackRestores (K.grown .descriptorTable (K.grown .process vm)) pd := by
  obtain ⟨c', made, freed⟩ := schedulerSpawn_user run
  have accounts := populated.accounts
  rw [List.append_nil] at accounts
  obtain ⟨first, begun, obtained⟩ := populated.elsewhere (quiet .process vm populated.housed) accounts
  obtain ⟨second, ready, held⟩ := begun.elsewhere (quiet .descriptorTable _ begun.housed) obtained
  unfold Creation.processNew at made
  dsimp only [Creation.kmalloc] at made
  by_cases process : K.kmalloc .process = 0#32
  · rw [if_pos process, if_pos process] at made
    cases made
    refine iff_of_true ((restored_iff begun ?_ ?_ ?_ ?_ freed).mpr rfl) (.inl process)
    · exact obtained
    · rfl
    · rfl
    · exact fun _ => rfl
  · rw [if_neg process, if_neg process] at made
    by_cases table : K.kmalloc .descriptorTable = 0#32
    · rw [if_pos table, if_pos table] at made
      cases made
      refine iff_of_true ((restored_iff ready ?_ ?_ ?_ ?_ freed).mpr rfl) (.inr (.inl table))
      · exact held
      · rfl
      · rfl
      · intro addr
        simp [kfree, List.count_cons]
    · rw [if_neg table, if_neg table, if_pos rfl, if_pos rfl] at made
      rw [or_iff_right process, or_iff_right table]
      refine newUserStack_restored ready rfl ?_ ?_ ?_ ?_ ?_ ?_ (quiet .stack) made freed
      · rfl
      · exact held
      · rfl
      · rfl
      · rfl
      · rfl

/-- A spawn whose executable has been loaded: for a user process the directory, its tables and its
pages have been obtained, and all of them are mapped. -/
def loaded (vm : Vm) (isUser : Bool) (pd : Word) : Creation :=
  ⟨vm, [], if isUser then vm.freedFrames pd else [], []⟩

end Creation

/-- The failures after which everything is given back. -/
def Supply.Restores (K : Supply) (vm : Vm) (isUser : Bool) (pd : Word) : Prop :=
  K.kmalloc .process = 0#32 ∨ K.kmalloc .descriptorTable = 0#32 ∨
    (isUser = true ∧ K.StackRestores (K.grown .descriptorTable (K.grown .process vm)) pd)

/-- A spawn that fails in `process_new` gives everything back exactly when no block was to be had for
the process or the table, or for a user process when its stacks were refused as told above. -/
theorem failed_spawn_restores_iff (K : Supply) (vm : Vm) (isUser : Bool) (pd kernelPd : Word) (start : Pmm)
    (dirs : List Word) (slots : Word) (pages : List Nat)
    (populated : isUser = true → Populated start dirs slots ⟨vm, pd, [], pages⟩)
    (quiet : ∀ block, ∀ m : Vm, m.Housed (pd :: dirs) slots → m.Elsewhere pd dirs slots (K.grown block m))
    (out : Creation) (run : (Creation.loaded vm isUser pd).schedulerSpawn K isUser pd kernelPd = some (-1, out)) :
    out.Restored ↔ K.Restores vm isUser pd := by
  cases isUser with
  | true =>
      rw [Creation.user_restored (populated rfl) quiet run, Supply.Restores]
      simp only [true_and]
  | false =>
      rw [Creation.kernel_restored run, Supply.Restores]
      simp only [Bool.false_eq_true, false_and, or_false]

/-- A heap with one block, or two. -/
def someBlocks (two : Bool) : Supply where
  kmalloc
    | .process => 0xd0000000#32
    | .descriptorTable => if two then 0xd0001000#32 else 0#32
    | .stack => 0#32
  grown _ m := m
  fillStacks := some
  findAndCreateNode := .success
  created m := m

theorem one_block_run {vm after : Vm} {pd : Word} (kernelPd : Word) (freed : vm.vmmngrFreePageDirectory pd = some after) :
    (Creation.loaded vm true pd).schedulerSpawn (someBlocks false) true pd kernelPd =
      some (-1, ⟨after, [.kmalloc 0xd0000000#32, .kfree 0xd0000000#32], vm.freedFrames pd, vm.freedFrames pd⟩) := by
  have made : (Creation.loaded vm true pd).processNew (someBlocks false) true pd kernelPd =
      some (none, ⟨vm, [.kmalloc 0xd0000000#32, .kfree 0xd0000000#32], vm.freedFrames pd, []⟩) := rfl
  rw [Creation.schedulerSpawn, made, Option.bind_eq_bind, Option.bind_some]
  simp only [if_true, Creation.freePageDirectory, freed, Option.map_some, Option.bind_eq_bind, Option.bind_some,
    List.nil_append, Option.pure_def]

theorem failed_spawn_restores_iff_one_block :
    ∃ out, (Creation.loaded processMade.vm true 0x3000#32).schedulerSpawn (someBlocks false) true 0x3000#32
      bootedKernel.cr3 = some (-1, out) ∧ out.heap = [.kmalloc 0xd0000000#32, .kfree 0xd0000000#32] ∧ out.Restored := by
  have housed := bootedKernel_housed
  have populated := fresh_populated housed (List.mem_singleton_self _) bootedKernel_noUser
    (show bootedKernel.pmm.allocBlock.1 ≠ 0#32 by decide)
  rw [show bootedKernel.pmm.allocBlock.1 = 0x3000#32 by decide] at populated
  have foreign := populated.housed.foreign List.mem_cons_self populated.inactive
  obtain ⟨after, freed, _⟩ := foreign.freePageDirectory fun i inside entry => by
    rw [populated.housed.kernelTable]
    exact populated.table_ne_slots inside entry
  have run := one_block_run bootedKernel.cr3 freed
  exact ⟨_, run, rfl, (failed_spawn_restores_iff (someBlocks false) processMade.vm true 0x3000#32 bootedKernel.cr3 _ _ _ _
    (fun _ => populated) (fun _ _ housed => .refl housed) _ run).mpr (.inr (.inl rfl))⟩

theorem failed_spawn_keeps_table :
    ∃ out, (Creation.loaded bootedKernel false 0#32).schedulerSpawn (someBlocks true) false 0#32 bootedKernel.cr3 =
      some (-1, out) ∧ out.heap = [.kmalloc 0xd0000000#32, .kmalloc 0xd0001000#32, .kfree 0xd0000000#32] ∧
      ¬ out.Restored := by
  refine ⟨⟨bootedKernel, [.kmalloc 0xd0000000#32, .kmalloc 0xd0001000#32, .kfree 0xd0000000#32], [], []⟩, rfl, rfl, ?_⟩
  rintro ⟨heap, _⟩
  exact absurd (heap 0xd0001000#32) (by decide)

end Kerosene.Process

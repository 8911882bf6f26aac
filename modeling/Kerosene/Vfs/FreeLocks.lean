import Kerosene.Vfs.LockRuns

/-!
# Locks between calls

`vfs_close` clears its descriptor before it unlocks by the number of that descriptor, so that its
unlock does nothing. Where the node goes with its last descriptor, nobody is left to miss the lock.
-/

namespace Kerosene.Vfs
open Lib Ramfs

/-! ## Descriptors and references -/

namespace Files
variable {σ φ ε π : Type} [DecidableEq π] [Fintype π]
variable {V : Volumes φ} {S : Store σ φ ε} {s s' : Files σ φ ε π} {p q : π} {fd : Fin maxFile} {a b : Addr}

/-- Every descriptor is counted in the references of its node. -/
def Referenced (s : Files σ φ ε π) : Prop :=
  ∀ a, 0 < s.openCount a → ∃ node, s.tree.node a = some node ∧ (s.openCount a : Int) ≤ node.refcount

omit [DecidableEq π] in
theorem Referenced.allocated (referenced : s.Referenced) (held : s.table p fd = some a) : (s.tree.node a).isSome := by
  obtain ⟨node, here, -⟩ := referenced a (openCount_pos held)
  rw [here]
  rfl

omit [DecidableEq π] in
theorem openCount_congr (same : s'.table = s.table) (a : Addr) : s'.openCount a = s.openCount a := by
  rw [openCount, openCount, same]

omit [DecidableEq π] in
-- nodes with references stay
theorem Referenced.congr (referenced : s.Referenced) (tables : s'.table = s.table)
    (kept : ∀ a node, s.tree.node a = some node → 0 < node.refcount →
      ∃ node', s'.tree.node a = some node' ∧ node'.refcount = node.refcount) : s'.Referenced := by
  intro a opened
  rw [openCount_congr tables a] at opened ⊢
  obtain ⟨node, here, counted⟩ := referenced a opened
  obtain ⟨node', found, same⟩ := kept a node here (by omega)
  exact ⟨node', found, by rw [same]; exact counted⟩

omit [DecidableEq π] [Fintype π] in
theorem cleanup_kept {tree tree' : Tree φ ε} {node : Node φ ε} (done : tree.vfsCleanupNodeTree b = some tree')
    (here : tree.node a = some node) (positive : 0 < node.refcount) :
    ∃ node', tree'.node a = some node' ∧ node'.refcount = node.refcount := by
  obtain ⟨node', found, shape⟩ := Tree.node_of_payload (Tree.cleanupLoop_spares done here positive).symm here
  exact ⟨node', found, by rw [shape]⟩

theorem Referenced.grow {node : Node φ ε} (referenced : s.Referenced) (free : s.table p fd = none)
    (here : s.tree.node a = some node) (setUp : 0 ≤ node.refcount) (tables : s'.table = (s.setTable p fd (some a)).table)
    (tree : s'.tree = s.tree.addRefcount a 1) : s'.Referenced := by
  intro b opened
  have count := openCount_setTable s p fd (some a) b
  rw [free, if_neg (by simp), Nat.add_zero] at count
  rw [openCount_congr tables b, count] at opened ⊢
  by_cases same : a = b
  · subst same
    refine ⟨{ node with refcount := node.refcount + 1 }, by rw [tree]; exact Tree.modify_self here _, ?_⟩
    have before : (s.openCount a : Int) ≤ node.refcount := by
      by_cases some : 0 < s.openCount a
      · obtain ⟨node', found, counted⟩ := referenced a some
        rw [here] at found
        cases found
        exact counted
      · omega
    rw [if_pos rfl]
    push_cast
    omega
  · rw [if_neg (by simp [same]), Nat.add_zero] at opened ⊢
    obtain ⟨node', found, counted⟩ := referenced b opened
    refine ⟨node', ?_, counted⟩
    rw [tree]
    exact (Tree.modify_of_ne (Ne.symm same) ..).trans found

omit [Fintype π] in
theorem vfsClose_none (empty : s.table p fd = none) : s.vfsClose p fd.val = some s := by
  have small : 0 ≤ (fd.val : Int) ∧ (fd.val : Int).toNat < maxFile := ⟨Int.natCast_nonneg _, fd.isLt⟩
  have same : (⟨(fd.val : Int).toNat, descriptor_lt small⟩ : Fin maxFile) = fd := rfl
  rw [vfsClose, dif_pos small]
  simp only [same, empty]

omit [Fintype π] in
theorem vfsClose_eq (held : s.table p fd = some a) : s.vfsClose p fd.val = (do
    let _ ← s.tree.node a
    let tree ← (s.tree.addRefcount a (-1)).vfsCleanupNodeTree a
    return { s.setTable p fd none with
      tree := tree, fileCount := Function.update s.fileCount p (s.fileCount p - 1) }) := by
  have small : 0 ≤ (fd.val : Int) ∧ (fd.val : Int).toNat < maxFile := ⟨Int.natCast_nonneg _, fd.isLt⟩
  have same : (⟨(fd.val : Int).toNat, descriptor_lt small⟩ : Fin maxFile) = fd := rfl
  rw [vfsClose, dif_pos small]
  simp only [same, held]
  rfl

theorem Referenced.close (referenced : s.Referenced) (held : s.table p fd = some a)
    (done : s.vfsClose p fd.val = some s') :
    s'.Referenced ∧ s'.table = (s.setTable p fd none).table ∧ ∀ b, s.tree.node b = none → s'.tree.node b = none := by
  rw [vfsClose_eq held] at done
  simp only [Option.bind_eq_bind, Option.bind_eq_some_iff] at done
  obtain ⟨node, here, tree, cleaned, done⟩ := done
  cases done
  have count := openCount_setTable s p fd none
  simp only [held, reduceCtorEq, if_false, Nat.add_zero, Option.some.injEq] at count
  refine ⟨fun b opened => ?_, rfl, fun b free => ?_⟩
  · have now : (s.setTable p fd none).openCount b = s.openCount b - if a = b then 1 else 0 := by
      have := count b
      omega
    have before := count b
    change 0 < (s.setTable p fd none).openCount b at opened
    change ∃ node, tree.node b = some node ∧ ((s.setTable p fd none).openCount b : Int) ≤ node.refcount
    obtain ⟨node', found, counted⟩ := referenced b (by omega)
    by_cases same : a = b
    · subst same
      rw [here] at found
      cases found
      rw [if_pos rfl] at before
      obtain ⟨node', found, kept⟩ := cleanup_kept cleaned (Tree.modify_self here _)
        (by change 0 < node.refcount + -1; omega)
      refine ⟨node', found, ?_⟩
      rw [kept]
      change _ ≤ node.refcount + -1
      omega
    · rw [if_neg same] at before
      obtain ⟨node', found, kept⟩ := cleanup_kept (a := b) cleaned
        ((Tree.modify_of_ne (Ne.symm same) ..).trans found) (by omega)
      refine ⟨node', found, ?_⟩
      rw [kept]
      omega
  · refine Tree.cleanupLoop_free cleaned ?_
    have other : b ≠ a := by
      rintro rfl
      rw [here] at free
      cases free
    exact (Tree.modify_of_ne other ..).trans free

section
variable [DecidableEq φ]

/-- The node that a call to `vfs_open` finds has a count of references that is not negative. -/
def FindsNode (V : Volumes φ) (S : Store σ φ ε) (s : Files σ φ ε π) (call : OpenCall φ ε π) : Prop :=
  ∀ cwd found a node, s.cwd call.process = some cwd →
    vfsFindAndCreateNode V S s.disk s.tree call.path cwd call.mode 0#32 call.kmalloc = some found →
    found.node = some a → found.tree.node a = some node → 0 ≤ node.refcount

theorem Referenced.open {call : OpenCall φ ε π} {new : Option (Fin maxFile)} (referenced : s.Referenced)
    (fresh : FreshAnswers s.tree.Free call.kmalloc.nodes) (finds : s.FindsNode V S call)
    (done : s.vfsOpen V S call = some (new, s')) :
    s'.Referenced ∧ (∀ q, q ≠ call.process → s'.table q = s.table q) ∧
      ∀ q fd a, s.table q fd = some a → s'.table q fd = some a := by
  have unchanged : ∀ s' : Files σ φ ε π, s'.table = s.table → (∀ q, q ≠ call.process → s'.table q = s.table q) ∧
      ∀ q fd a, s.table q fd = some a → s'.table q fd = some a := by
    intro s' same
    rw [same]
    exact ⟨fun _ _ => rfl, fun _ _ _ held => held⟩
  rw [vfsOpen] at done
  split_ifs at done with refused
  · cases done
    exact ⟨referenced, unchanged s rfl⟩
  cases here : s.cwd call.process with
  | none =>
      rw [here] at done
      cases done
      exact ⟨referenced, unchanged s rfl⟩
  | some cwd =>
      simp only [here, Option.bind_eq_bind, Option.bind_eq_some_iff] at done
      obtain ⟨found, lookup, done⟩ := done
      have spares := vfsFindAndCreateNode_spares (fun a member => (fresh.unused a member).1) lookup
      have searched : ({ s with tree := found.tree, disk := found.disk } : Files σ φ ε π).Referenced :=
        referenced.congr rfl fun a node hereA _ => spares.referenced hereA
      have cleaned : ∀ (a : Addr) (tree : Tree φ ε), found.tree.vfsCleanupNodeTree a = some tree →
          ({ s with tree := tree, disk := found.disk } : Files σ φ ε π).Referenced :=
        fun a tree cleaned => searched.congr rfl fun b node hereB positive => cleanup_kept cleaned hereB positive
      cases place : found.node with
      | none =>
          simp only [place] at done
          cases done
          exact ⟨searched, unchanged _ rfl⟩
      | some a =>
          simp only [place] at done
          cases slot : freeSlot (s.table call.process) with
          | none =>
              simp only [slot, Option.bind_eq_some_iff] at done
              obtain ⟨tree, cleanup, done⟩ := done
              cases done
              exact ⟨cleaned a tree cleanup, unchanged _ rfl⟩
          | some fd =>
              have free : s.table call.process fd = none := by simpa using List.find?_some slot
              simp only [slot, openSlot, Option.bind_eq_bind, Option.bind_eq_some_iff] at done
              obtain ⟨node, hereA, done⟩ := done
              split_ifs at done with notDir truncates
              · obtain ⟨tree, cleanup, done⟩ := Option.bind_eq_some_iff.mp done
                cases done
                exact ⟨cleaned a tree cleanup, unchanged _ rfl⟩
              · cases done
              · cases done
                refine ⟨searched.grow free hereA (finds cwd found a node here lookup place hereA) rfl rfl, fun q other => ?_,
                  fun q fd' b held => ?_⟩
                · exact Function.update_of_ne other ..
                · change Function.update s.table call.process _ q fd' = some b
                  by_cases self : q = call.process
                  · subst self
                    have other : fd' ≠ fd := by
                      rintro rfl
                      rw [free] at held
                      cases held
                    rw [Function.update_self, Function.update_of_ne other, held]
                  · rw [Function.update_of_ne self, held]

end
end Files

namespace FileLocks
variable {σ φ ε π : Type} [DecidableEq φ] [DecidableEq π]
variable {V : Volumes φ} {S : Store σ φ ε} {s s' : FileLocks σ φ ε π} {p q : π} {fd : Fin maxFile} {a b : Addr}
variable {input : LockInput σ φ ε π}

/-! ## The runs -/

-- the calls of vfs_op.c, without the two system calls on the lock itself
def OnFiles : LockInput σ φ ε π → Prop
  | .call _ _ op => op ≠ .lock
  | .unlock _ _ => False
  | _ => True

/-- A close that has the lock has the last reference to its node, and the node has no child in the
tree; a node that is opened has a count of references that is not negative. -/
def LastClose (V : Volumes φ) (S : Store σ φ ε) (s : FileLocks σ φ ε π) : LockInput σ φ ε π → Prop
  | .open call => s.files.FindsNode V S call
  | .run p => ∀ fd a node, s.phase p = .inside fd .close → s.files.table p fd = some a → s.files.tree.node a = some node →
      node.refcount = 1 ∧ node.children = none
  | _ => True

def Allocated (s : FileLocks σ φ ε π) (a : Addr) : Prop := (s.files.tree.node a).isSome

structure Balanced [Fintype π] (s : FileLocks σ φ ε π) : Prop where
  referenced : s.files.Referenced
  calls : s.Calls (· ≠ .lock)
  unlocked : ∀ p a, s.userLocks p a = 0
  locked : Locked s.Allocated (fun _ => 0) s

omit [DecidableEq φ] in
theorem acquire_rest (s : FileLocks σ φ ε π) (a : Addr) (p : π) (onward line : LockPhase) :
    (s.acquire a p onward line).files = s.files ∧ (s.acquire a p onward line).userLocks = s.userLocks := by
  rw [acquire]
  rcases (s.lock a).acquire p 1 with ⟨taken, sem⟩
  cases taken <;> exact ⟨rfl, rfl⟩

omit [DecidableEq φ] in
theorem vfsUnlock_userLocks (s : FileLocks σ φ ε π) (p : π) (fd : Fin maxFile) : (s.vfsUnlock p fd).userLocks = s.userLocks := by
  rw [vfsUnlock]
  cases s.files.table p fd <;> rfl

omit [DecidableEq φ] in
theorem Moves.userLocks (moves : Moves s p s') (notLock : (s.phase p).op ≠ some .lock) : s'.userLocks = s.userLocks := by
  cases moves with
  | letGo | lost => rfl
  | comesBack => exact (acquire_rest ..).2
  | closes => exact vfsUnlock_userLocks ..
  | locks here =>
      rw [here] at notLock
      exact absurd rfl notLock

variable [Fintype π]

omit [DecidableEq φ] [DecidableEq π] in
theorem Balanced.live (balanced : s.Balanced) (table : s.files.table p fd = some a) : s.Allocated a :=
  balanced.referenced.allocated table

omit [DecidableEq φ] in
theorem Balanced.withFiles {files : Files σ φ ε π} {lock : Addr → Semaphore π} (balanced : s.Balanced)
    (referenced : files.Referenced) (others : ∀ q, q ≠ p → files.table q = s.files.table q) (running : (s.phase p).waits = none)
    (old : ∀ b, (files.tree.node b).isSome → s.Allocated b → lock b = s.lock b ∧ s.callHolds p ≠ some b)
    (new : ∀ b, (files.tree.node b).isSome → ¬ s.Allocated b → lock b = ⟨1, []⟩) :
    ({ s with files := files, lock := lock }.setPhase p .idle).Balanced := by
  let s' : FileLocks σ φ ε π := { s with files := files, lock := lock }.setPhase p .idle
  have self : s'.phase p = .idle := Function.update_self ..
  have other : ∀ q, q ≠ p → s'.phase q = s.phase q := fun q differ => Function.update_of_ne differ ..
  have loads : ∀ q b, s'.load q b = if s'.callHolds q = some b then 1 else 0 := fun q b => by
    rw [load]
    change _ + s.userLocks q b = _
    rw [balanced.unlocked q b, Nat.add_zero]
  have holdsSelf : s'.callHolds p = none := by rw [callHolds, self]; rfl
  have holdsOther : ∀ q, q ≠ p → s'.callHolds q = s.callHolds q := fun q differ => by
    rw [callHolds, other q differ, callHolds]
    change (s.phase q).holds.bind (files.table q) = _
    rw [others q differ]
  refine ⟨referenced, Calls.setPhase (s := { s with files := files, lock := lock }) balanced.calls (fun _ none => by cases none),
    balanced.unlocked, fun b allocated q n waiting => ?_, fun b allocated => ?_, fun b allocated => ?_⟩
  · change (q, n) ∈ (lock b).waiting at waiting
    by_cases was : s.Allocated b
    · rw [(old b allocated was).1] at waiting
      obtain ⟨one, at_⟩ := balanced.locked.waits b was q n waiting
      have differ : q ≠ p := by
        rintro rfl
        rw [waitsFor, running] at at_
        cases at_
      refine ⟨one, ?_⟩
      rw [waitsFor, other q differ]
      change (s.phase q).waits.bind (files.table q) = _
      rw [others q differ]
      exact at_
    · rw [new b allocated was] at waiting
      cases waiting
  · change ((lock b).waiting.map Prod.fst).Nodup
    by_cases was : s.Allocated b
    · rw [(old b allocated was).1]
      exact balanced.locked.nodup b was
    · rw [new b allocated was]
      exact List.nodup_nil
  · change (lock b).count + s'.held b + 0 = 1
    by_cases was : s.Allocated b
    · have same : s'.held b = s.held b := held_congr fun q => by
        rw [loads, load, balanced.unlocked q b, Nat.add_zero]
        by_cases differ : q = p
        · subst differ
          rw [holdsSelf, if_neg (by simp), if_neg (old b allocated was).2]
        · rw [holdsOther q differ]
      rw [(old b allocated was).1, same]
      exact balanced.locked.permits b was
    · have none : s'.held b = 0 := Finset.sum_eq_zero fun q _ => by
        rw [loads]
        refine if_neg fun holds => ?_
        by_cases differ : q = p
        · subst differ
          rw [holdsSelf] at holds
          cases holds
        · rw [holdsOther q differ] at holds
          obtain ⟨fd, -, table⟩ := Option.bind_eq_some_iff.mp holds
          exact was (balanced.live table)
      rw [new b allocated was, none]

theorem Balanced.open {call : OpenCall φ ε π} {files : Files σ φ ε π} {new : Option (Fin maxFile)} (balanced : s.Balanced)
    (idle : s.phase call.process = .idle) (fresh : FreshAnswers s.files.tree.Free call.kmalloc.nodes)
    (finds : s.files.FindsNode V S call) (done : s.files.vfsOpen V S call = some (new, files)) :
    (s.withFiles files).Balanced := by
  obtain ⟨referenced, others, -⟩ := balanced.referenced.open fresh finds done
  have same : s.withFiles files = ({ s with files := files, lock := (s.withFiles files).lock }.setPhase call.process .idle) := by
    rw [setPhase, ← idle, Function.update_eq_self]
    rfl
  rw [same]
  refine balanced.withFiles referenced others (by rw [idle]; rfl) (fun b allocated was => ⟨?_, ?_⟩) fun b allocated was => ?_
  · refine if_neg fun fresh => ?_
    rw [Option.isNone_iff_eq_none] at fresh
    rw [Allocated, fresh.1] at was
    cases was
  · rw [callHolds, idle]
    exact fun wrong => by cases wrong
  · refine if_pos ⟨?_, allocated⟩
    simpa [Allocated] using was

omit [DecidableEq φ] in
theorem Balanced.close {files : Files σ φ ε π} (balanced : s.Balanced) (here : s.phase p = .inside fd .close)
    (last : ∀ a node, s.files.table p fd = some a → s.files.tree.node a = some node →
      node.refcount = 1 ∧ node.children = none)
    (closed : s.files.vfsClose p fd.val = some files) :
    (({ s with files := files }.setPhase p .idle).vfsUnlock p fd).Balanced := by
  have running : (s.phase p).waits = none := by rw [here]; rfl
  have holds : s.callHolds p = s.files.table p fd := by rw [callHolds, here]; rfl
  cases table : s.files.table p fd with
  | none =>
      have same : files = s.files := by
        rw [Files.vfsClose_none table] at closed
        exact (Option.some.inj closed).symm
      subst same
      rw [vfsUnlock_none (s := s.setPhase p .idle) table]
      refine balanced.withFiles balanced.referenced (fun _ _ => rfl) running
        (fun b _ _ => ⟨rfl, by rw [holds, table]; simp⟩) fun b allocated was => absurd allocated was
  | some a =>
      obtain ⟨referenced, tables, gone⟩ := balanced.referenced.close table closed
      have freed : files.tree.node a = none := by
        rw [Files.vfsClose_eq table] at closed
        simp only [Option.bind_eq_bind, Option.bind_eq_some_iff] at closed
        obtain ⟨node, found, tree, cleaned, done⟩ := closed
        cases done
        obtain ⟨one, leaf⟩ := last a node table found
        exact Tree.vfsCleanupNodeTree_frees cleaned (Tree.modify_self found _)
          (by change node.refcount + -1 ≤ 0; omega) leaf
      have cleared : ({ s with files := files }.setPhase p .idle).files.table p fd = none := by
        change files.table p fd = none
        rw [tables]
        simp [Files.setTable]
      rw [vfsUnlock_none cleared]
      refine balanced.withFiles referenced (fun q other => ?_) running (fun b allocated _ => ⟨rfl, ?_⟩)
        fun b allocated was => ?_
      · rw [tables]
        exact Function.update_of_ne other ..
      · rw [holds, table]
        rintro same
        cases same
        rw [freed] at allocated
        cases allocated
      · rw [Allocated, Bool.not_eq_true, Option.isSome_eq_false_iff, Option.isNone_iff_eq_none] at was
        rw [gone b was] at allocated
        cases allocated

omit [DecidableEq φ] [DecidableEq π] in
theorem Balanced.sameFiles (balanced : s.Balanced) (files : s'.files = s.files) (userLocks : s'.userLocks = s.userLocks)
    (calls : s'.Calls (· ≠ .lock)) (locked : Locked s.Allocated (fun _ => 0) s') : s'.Balanced := by
  have live : s'.Allocated = s.Allocated := by
    funext a
    rw [Allocated, files, Allocated]
  exact ⟨by rw [files]; exact balanced.referenced, calls, by rw [userLocks]; exact balanced.unlocked, by rw [live]; exact locked⟩

theorem Balanced.step (balanced : s.Balanced) (onFiles : OnFiles input) (last : s.LastClose V S input)
    (fresh : ∀ call, input = .open call → FreshAnswers s.files.tree.Free call.kmalloc.nodes)
    (done : s.step V S input = some s') : s'.Balanced := by
  cases input with
  | «open» call =>
      rw [FileLocks.step] at done
      by_cases busy : s.phase call.process ≠ .idle
      · rw [if_pos busy] at done
        cases done
      rw [if_neg busy] at done
      obtain ⟨⟨new, files⟩, opened, done⟩ := Option.bind_eq_some_iff.mp done
      cases done
      exact balanced.open (not_not.mp busy) (fresh call rfl) last opened
  | disk disk =>
      cases done
      exact ⟨balanced.referenced, balanced.calls, balanced.unlocked,
        ⟨balanced.locked.waits, balanced.locked.nodup, balanced.locked.permits⟩⟩
  | unlock p fd => exact onFiles.elim
  | run p =>
      by_cases closing : ∃ fd, s.phase p = .inside fd .close
      · obtain ⟨fd, here⟩ := closing
        simp only [FileLocks.step, FileLocks.run, here, FileLocks.inside, Option.bind_eq_bind, Option.bind_eq_some_iff] at done
        obtain ⟨files, closed, done⟩ := done
        cases done
        exact balanced.close here (fun a node => last fd a node here) closed
      · have moves := run_moves done
        obtain ⟨locked, same⟩ := balanced.locked.moves (fun p fd a => balanced.live) (fun fd here => closing ⟨fd, here⟩) moves
        exact balanced.sameFiles same (moves.userLocks fun locking => balanced.calls p _ locking rfl) (balanced.calls.run moves) locked
  | call p fd op =>
      rw [FileLocks.step] at done
      split_ifs at done with busy
      rw [not_not] at busy
      cases table : s.files.table p fd with
      | none =>
          rw [table] at done
          cases done
          exact balanced
      | some a =>
          rw [table] at done
          cases done
          have allowed : ∀ op', some op = some op' → op' ≠ .lock := by
            rintro op' same
            cases same
            exact onFiles
          have locked := balanced.locked.acquire (o := .inside fd op) (l := .enters fd op) table (by rw [busy]; rfl)
            (by rw [busy]; rfl) rfl rfl
          obtain ⟨files, userLocks⟩ := acquire_rest s a p (.inside fd op) (.enters fd op)
          exact balanced.sameFiles files userLocks (balanced.calls.acquire allowed allowed) locked

/-- No descriptor is open and no call under way, and the nodes in the heap have free locks. -/
structure Booted (s : FileLocks σ φ ε π) : Prop where
  closed : ∀ p fd, s.files.table p fd = none
  idle : ∀ p, s.phase p = .idle
  unlocked : ∀ p a, s.userLocks p a = 0
  free : ∀ a, s.Allocated a → s.lock a = ⟨1, []⟩

omit [DecidableEq φ] [DecidableEq π] in
theorem Booted.balanced (booted : s.Booted) : s.Balanced := by
  refine ⟨fun a opened => ?_, fun q op under => ?_, booted.unlocked, .start booted.idle booted.unlocked booted.free⟩
  · obtain ⟨slot, member⟩ := Finset.card_pos.mp opened
    have held := (Finset.mem_filter.mp member).2
    rw [booted.closed] at held
    cases held
  · rw [booted.idle q] at under
    cases under

/-- Where every close frees its node, the lock of every open file is free whenever no call is under way. -/
theorem file_locks_free {start : FileLocks σ φ ε π} (booted : start.Booted)
    (run : (machine (fun s input => OnFiles input ∧ s.LastClose V S input) V S).Reaches start s)
    (idle : ∀ p, s.phase p = .idle) (opened : s.files.table p fd = some a) : s.lock a = ⟨1, []⟩ := by
  have balanced : s.Balanced := run.invariant
    (fun s input s' balanced legal done => balanced.step legal.1.1 legal.1.2 legal.2 done) booted.balanced
  have total := balanced.locked.permits a (balanced.live opened)
  have none : s.held a = 0 := Finset.sum_eq_zero fun q _ => by
    rw [load, callHolds, idle q, balanced.unlocked q a]
    rfl
  have line : (s.lock a).waiting = [] := by
    rw [List.eq_nil_iff_forall_not_mem]
    rintro ⟨q, n⟩ waiting
    have at_ := (balanced.locked.waits a (balanced.live opened) q n waiting).2
    rw [waitsFor, idle q] at at_
    cases at_
  have count : (s.lock a).count = 1 := by omega
  rw [← line, ← count]

def bootedFile : FileLocks Unit Unit Unit Unit := ⟨Files.rootOnly, fun _ => ⟨1, []⟩, fun _ => .idle, fun _ _ => 0⟩

theorem bootedFile_booted : bootedFile.Booted := ⟨fun _ _ => rfl, fun _ => rfl, fun _ _ => rfl, fun _ _ => rfl⟩

theorem openFile_finds : Files.rootOnly.FindsNode Files.ramfsOnly Files.oneFile Files.openFile := by
  intro cwd found a node here lookup place hereA
  cases here
  have check : (vfsFindAndCreateNode Files.ramfsOnly Files.oneFile () Files.rootOnly.tree [slash, 97] 1 fileOpenRead 0#32
      Files.openFile.kmalloc).all (fun found => found.node.all fun a => (found.tree.node a).all fun node =>
        decide (0 ≤ node.refcount)) = true := by decide
  have lookup' : vfsFindAndCreateNode Files.ramfsOnly Files.oneFile () Files.rootOnly.tree [slash, 97] 1 fileOpenRead 0#32
      Files.openFile.kmalloc = some found := lookup
  rw [lookup', Option.all_some, place, Option.all_some, hereA, Option.all_some] at check
  exact of_decide_eq_true check

/-- A read takes the lock of the file, and leaves it free. -/
theorem file_locks_free_read : ∃ s₁ s₂ s,
    bootedFile.step Files.ramfsOnly Files.oneFile (.open Files.openFile) = some s₁ ∧
    s₁.step Files.ramfsOnly Files.oneFile (.call () fd0 (.read 5)) = some s₂ ∧ (s₂.lock 2).count = 0 ∧
    s₂.step Files.ramfsOnly Files.oneFile (.run ()) = some s ∧ s.files.table () fd0 = some 2 ∧ s.lock 2 = ⟨1, []⟩ := by
  have calls : (bootedFile.step Files.ramfsOnly Files.oneFile (.open Files.openFile)).any (fun s₁ =>
      (s₁.step Files.ramfsOnly Files.oneFile (.call () fd0 (.read 5))).any fun s₂ =>
        decide (s₂.phase () = .inside fd0 (.read 5) ∧ (s₂.lock 2).count = 0) &&
          (s₂.step Files.ramfsOnly Files.oneFile (.run ())).any fun s =>
            decide (s.phase () = .idle ∧ s.files.table () fd0 = some 2)) = true := by decide
  obtain ⟨s₁, opens, found⟩ := (Option.any_eq_true ..).mp calls
  obtain ⟨s₂, reads, found⟩ := (Option.any_eq_true ..).mp found
  obtain ⟨held, found⟩ := (Bool.and_eq_true_iff ..).mp found
  obtain ⟨inside, count⟩ := of_decide_eq_true held
  obtain ⟨s, leaves, found⟩ := (Option.any_eq_true ..).mp found
  obtain ⟨idle, opened⟩ := of_decide_eq_true found
  have first : (machine (fun s input => OnFiles input ∧ s.LastClose Files.ramfsOnly Files.oneFile input) Files.ramfsOnly
      Files.oneFile).Reaches bootedFile s₁ := by
    refine (Machine.Reaches.refl bootedFile).snoc (i := .open Files.openFile) ⟨⟨trivial, openFile_finds⟩, ?_⟩ opens
    rintro call same
    cases same
    exact Files.openFile_legal.1
  refine ⟨s₁, s₂, s, opens, reads, count, leaves, opened, file_locks_free bootedFile_booted
    ((first.snoc (i := LockInput.call () fd0 (.read 5)) ⟨⟨?_, ?_⟩, ?_⟩ reads).snoc (i := LockInput.run ()) ⟨⟨?_, ?_⟩, ?_⟩ leaves)
    (fun _ => idle) opened⟩
  · simp [OnFiles]
  · trivial
  · exact fun call wrong => by cases wrong
  · trivial
  · intro fd a node closing
    rw [inside] at closing
    cases closing
  · exact fun call wrong => by cases wrong

def fd1 : Fin maxFile := ⟨1, one_lt_maxFile⟩

-- the node is in the tree by then, so that nothing is loaded
def reopenFile : OpenCall Unit Unit Unit := { Files.openFile with kmalloc := ⟨true, true, []⟩ }

/-- A file opened twice and closed once stays locked. -/
theorem file_lock_leaked : ∃ s, (machine (fun _ input => OnFiles input) Files.ramfsOnly Files.oneFile).Reaches bootedFile s ∧
    (∀ p, s.phase p = .idle) ∧ s.files.table () fd1 = some 2 ∧ (s.lock 2).count = 0 := by
  have runs : ([LockInput.open Files.openFile, .open reopenFile, .call () fd0 .close, .run ()].foldlM
      (step Files.ramfsOnly Files.oneFile) bootedFile).any (fun s => decide (s.phase () = .idle ∧
        s.files.table () fd1 = some 2 ∧ (s.lock 2).count = 0)) = true := by decide
  obtain ⟨s, run, found⟩ := (Option.any_eq_true ..).mp runs
  obtain ⟨idle, opened, count⟩ := of_decide_eq_true found
  rw [List.foldlM_cons] at run
  obtain ⟨s₁, opens, run⟩ := Option.bind_eq_some_iff.mp run
  have first : (machine (fun _ input => OnFiles input) Files.ramfsOnly Files.oneFile).Reaches bootedFile s₁ := by
    refine (Machine.Reaches.refl bootedFile).snoc (i := .open Files.openFile) ⟨trivial, ?_⟩ opens
    rintro call same
    cases same
    exact Files.openFile_legal.1
  refine ⟨s, first.trans (Machine.Reaches.foldlM (fun s input member => ?_) run), fun _ => idle, opened, count⟩
  simp only [List.mem_cons, List.not_mem_nil, or_false] at member
  rcases member with rfl | rfl | rfl
  · refine ⟨trivial, fun call same => ?_⟩
    cases same
    exact ⟨(fun a member => by cases member), List.nodup_nil⟩
  · exact ⟨by simp [OnFiles], fun call wrong => by cases wrong⟩
  · exact ⟨trivial, fun call wrong => by cases wrong⟩

end FileLocks
end Kerosene.Vfs

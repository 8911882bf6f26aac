import Kerosene.Vfs.LockAccounts

/-!
# File locks over runs
-/

namespace Kerosene.Vfs.FileLocks
open Lib Ramfs
variable {σ φ ε π : Type} [DecidableEq π]
variable {V : Volumes φ} {S : Store σ φ ε} {s s' : FileLocks σ φ ε π} {p q : π} {fd : Fin maxFile} {a b : Addr}
variable {live : Addr → Prop} {phase onward line : LockPhase} {op : FileOp} {input : LockInput σ φ ε π}

theorem vfsUnlock_eq (table : s.files.table p fd = some a) : s.vfsUnlock p fd = s.release a := by
  rw [vfsUnlock, table]

theorem vfsUnlock_none (table : s.files.table p fd = none) : s.vfsUnlock p fd = s := by
  rw [vfsUnlock, table]

/-- What a process that goes on can do. -/
inductive Moves (s : FileLocks σ φ ε π) (p : π) : FileLocks σ φ ε π → Prop
  | letGo {fd : Fin maxFile} {a : Addr} {phase : LockPhase} : (s.phase p).holds = some fd → s.files.table p fd = some a →
      phase.holds = none → (phase.op = none ∨ phase.op = (s.phase p).op) → Moves s p ((s.setPhase p phase).release a)
  | comesBack {fd : Fin maxFile} {a : Addr} {op : FileOp} : s.phase p = .away fd op → s.files.table p fd = some a →
      Moves s p (s.acquire a p (.back fd op) (.returns fd op))
  | closes {fd : Fin maxFile} {files : Files σ φ ε π} : s.phase p = .inside fd .close → s.files.vfsClose p fd.val = some files →
      Moves s p (({ s with files := files }.setPhase p .idle).vfsUnlock p fd)
  | locks {fd : Fin maxFile} {a : Addr} : s.phase p = .inside fd .lock → s.files.table p fd = some a →
      Moves s p ((s.setUserLocks p a (s.userLocks p a + 1)).setPhase p .idle)
  -- a descriptor that is not open, which does not happen
  | lost {fd : Fin maxFile} : (s.phase p).holds = some fd → s.files.table p fd = none → Moves s p (s.setPhase p .idle)

theorem vfsUnlock_moves (has : (s.phase p).holds = some fd) : Moves s p ((s.setPhase p .idle).vfsUnlock p fd) := by
  cases table : s.files.table p fd with
  | none =>
      rw [vfsUnlock_none (s := s.setPhase p .idle) table]
      exact .lost has table
  | some a =>
      rw [vfsUnlock_eq (s := s.setPhase p .idle) table]
      exact .letGo has table rfl (.inl rfl)

theorem transfer_moves {size : Nat} (here : s.phase p = .inside fd op) (done : s.transfer p fd op size = some s') :
    Moves s p s' := by
  have has : (s.phase p).holds = some fd := by rw [here]; rfl
  simp only [transfer, Option.bind_eq_bind, Option.bind_eq_some_iff] at done
  obtain ⟨a, table, node, -, done⟩ := done
  split_ifs at done
  · cases done
    exact .letGo has table rfl (.inr (by rw [here]; rfl))
  · cases done
    exact vfsUnlock_moves has

theorem run_moves (done : s.run p = some s') : Moves s p s' := by
  rw [run] at done
  cases here : s.phase p with
  | idle | enters fd op | returns fd op =>
      rw [here] at done
      cases done
  | back fd op =>
      rw [here] at done
      cases done
      exact vfsUnlock_moves (by rw [here]; rfl)
  | away fd op =>
      simp only [here, Option.bind_eq_bind, Option.bind_eq_some_iff] at done
      obtain ⟨a, table, done⟩ := done
      cases done
      exact .comesBack here table
  | inside fd op =>
      simp only [here] at done
      cases op with
      | read size => exact transfer_moves here done
      | write size => exact transfer_moves here done
      | seek =>
          cases done
          exact vfsUnlock_moves (by rw [here]; rfl)
      | close =>
          obtain ⟨files, closed, done⟩ := Option.bind_eq_some_iff.mp done
          cases done
          exact .closes here closed
      | lock =>
          obtain ⟨a, table, done⟩ := Option.bind_eq_some_iff.mp done
          cases done
          exact .locks here table

/-! ## The calls under way -/

def Calls (allowed : FileOp → Prop) (s : FileLocks σ φ ε π) : Prop := ∀ q op, (s.phase q).op = some op → allowed op

namespace Calls
variable {allowed : FileOp → Prop}

theorem setPhase (calls : s.Calls allowed) (new : ∀ op, phase.op = some op → allowed op) :
    (s.setPhase p phase).Calls allowed := by
  intro q op under
  by_cases self : q = p
  · subst self
    refine new op ?_
    simpa [FileLocks.setPhase] using under
  · refine calls q op ?_
    simpa [FileLocks.setPhase, self] using under

theorem release (calls : s.Calls allowed) : (s.release a).Calls allowed := by
  intro q op under
  refine calls q op ?_
  simp only [FileLocks.release] at under
  split_ifs at under
  · rwa [LockPhase.op_served] at under
  · exact under

theorem acquire (calls : s.Calls allowed) (goes : ∀ op, onward.op = some op → allowed op)
    (stands : ∀ op, line.op = some op → allowed op) : (s.acquire a p onward line).Calls allowed := by
  rw [FileLocks.acquire]
  rcases (s.lock a).acquire p 1 with ⟨taken, sem⟩
  cases taken with
  | true => exact Calls.setPhase (s := s.setLock a sem) calls goes
  | false => exact Calls.setPhase (s := s.setLock a sem) calls stands

theorem run (calls : s.Calls allowed) (moves : Moves s p s') : s'.Calls allowed := by
  have idles : (s.setPhase p .idle).Calls allowed := calls.setPhase fun _ none => by cases none
  cases moves with
  | letGo has table free same =>
      refine (calls.setPhase fun op under => ?_).release
      rcases same with none | same
      · rw [none] at under
        cases under
      · rw [same] at under
        exact calls p op under
  | comesBack here table =>
      have own := calls p
      rw [here] at own
      exact calls.acquire own own
  | @closes fd files here closed =>
      rw [vfsUnlock]
      cases ({ s with files := files }.setPhase p .idle).files.table p fd with
      | none => exact idles
      | some a => exact release (s := { s with files := files }.setPhase p .idle) idles
  | locks here table => exact idles
  | lost has table => exact idles

end Calls

/-! ## Mutual exclusion -/

section
variable [Fintype π]

theorem Locked.moves (locked : Locked live (fun _ => 0) s) (opened : ∀ p fd a, s.files.table p fd = some a → live a)
    (stays : ∀ fd, s.phase p ≠ .inside fd .close) (moves : Moves s p s') : Locked live (fun _ => 0) s' ∧ s'.files = s.files := by
  cases moves with
  | letGo has table free same => exact ⟨(locked.letGo has table free).release (opened p _ _ table), rfl⟩
  | @comesBack fd a op here table =>
      refine ⟨locked.acquire table (by rw [here]; rfl) (by rw [here]; rfl) rfl rfl, ?_⟩
      rw [FileLocks.acquire]
      rcases (s.lock a).acquire p 1 with ⟨taken, sem⟩
      cases taken <;> rfl
  | closes here closed => exact absurd here (stays _)
  | @locks fd a here table =>
      have has : (s.phase p).holds = some fd := by rw [here]; rfl
      refine ⟨(locked.letGo has table rfl).setUserLocks (fun b other => (if_neg other).symm) fun _ => ?_, rfl⟩
      rw [if_pos rfl]
      rfl
  | lost has table =>
      have running : (s.phase p).waits = none := by
        cases here : s.phase p <;> rw [here] at has <;> cases has <;> rfl
      refine ⟨locked.setPhase running fun b _ => ?_, rfl⟩
      rw [load_setPhase, load, callHolds, has, Option.bind_some, table]
      rfl

theorem Locked.unlock (locked : Locked live (fun _ => 0) s) (isLive : live a) (own : 0 < s.userLocks p a) :
    Locked live (fun _ => 0) ((s.setUserLocks p a (s.userLocks p a - 1)).release a) := by
  refine (locked.setUserLocks (fun b other => if_neg other) fun _ => ?_).release isLive
  rw [if_pos rfl]
  omega

end

/-- The calls on open files that neither open nor close any. -/
def OnOpenFiles : LockInput σ φ ε π → Prop
  | .open _ => False
  | .call _ _ op => op ≠ .close
  | _ => True

/-- Only a process that has a lock by `SYSCALL_LOCK` gives it back. -/
def OwnUnlock (s : FileLocks σ φ ε π) : LockInput σ φ ε π → Prop
  | .unlock p fd => ∀ a, s.files.table p fd = some a → 0 < s.userLocks p a
  | _ => True

/-- No call is under way, and the locks of open files are free. -/
structure Quiet (s : FileLocks σ φ ε π) : Prop where
  idle : ∀ p, s.phase p = .idle
  unlocked : ∀ p a, s.userLocks p a = 0
  free : ∀ p fd a, s.files.table p fd = some a → s.lock a = ⟨1, []⟩

section
variable [Fintype π] [DecidableEq φ]

omit [DecidableEq π] [DecidableEq φ] in
theorem Locked.start (idle : ∀ p, s.phase p = .idle) (unlocked : ∀ p a, s.userLocks p a = 0)
    (free : ∀ a, live a → s.lock a = ⟨1, []⟩) : Locked live (fun _ => 0) s := by
  refine ⟨fun a isLive p n waiting => ?_, fun a isLive => ?_, fun a isLive => ?_⟩
  · rw [free a isLive] at waiting
    cases waiting
  · rw [free a isLive]
    exact List.nodup_nil
  · have none : s.held a = 0 := Finset.sum_eq_zero fun p _ => by
      rw [load, callHolds, idle p, unlocked p a]
      rfl
    rw [free a isLive, none]

theorem Locked.step (locked : Locked live (fun _ => 0) s) (opened : ∀ p fd a, s.files.table p fd = some a → live a)
    (calls : s.Calls (· ≠ .close)) (legal : OnOpenFiles input ∧ s.OwnUnlock input) (done : s.step V S input = some s') :
    Locked live (fun _ => 0) s' ∧ s'.Calls (· ≠ .close) ∧ s'.files.table = s.files.table := by
  cases input with
  | «open» call => exact legal.1.elim
  | disk disk =>
      cases done
      exact ⟨⟨locked.waits, locked.nodup, locked.permits⟩, calls, rfl⟩
  | run p =>
      have moves := run_moves done
      obtain ⟨locked', same⟩ := locked.moves opened (fun fd closing => calls p .close (by rw [closing]; rfl) rfl) moves
      exact ⟨locked', calls.run moves, by rw [same]⟩
  | call p fd op =>
      rw [FileLocks.step] at done
      split_ifs at done with busy
      rw [not_not] at busy
      cases table : s.files.table p fd with
      | none =>
          rw [table] at done
          cases done
          exact ⟨locked, calls, rfl⟩
      | some a =>
          rw [table] at done
          cases done
          have allowed : ∀ op', some op = some op' → op' ≠ .close := by
            rintro op' same
            cases same
            exact legal.1
          refine ⟨locked.acquire table (by rw [busy]; rfl) (by rw [busy]; rfl) rfl rfl, calls.acquire allowed allowed, ?_⟩
          rw [FileLocks.acquire]
          rcases (s.lock a).acquire p 1 with ⟨taken, sem⟩
          cases taken <;> rfl
  | unlock p fd =>
      rw [FileLocks.step] at done
      split_ifs at done with busy
      cases table : s.files.table p fd with
      | none =>
          rw [table] at done
          cases done
          exact ⟨locked, calls, rfl⟩
      | some a =>
          rw [table] at done
          cases done
          exact ⟨locked.unlock (opened p fd a table) (legal.2 a table), Calls.release (s := s.setUserLocks p a _) calls, rfl⟩

/-- Where only holders unlock, the permit of the lock of an open file is with one process at most, and
never in the count twice. -/
theorem file_lock_exclusion {start : FileLocks σ φ ε π} (quiet : start.Quiet)
    (run : (machine (fun s input => OnOpenFiles input ∧ s.OwnUnlock input) V S).Reaches start s) {r : π}
    (opened : s.files.table r fd = some a) :
    (s.lock a).count ≤ 1 ∧ ∀ p q, 0 < s.load p a → 0 < s.load q a → p = q := by
  let live : Addr → Prop := fun a => ∃ p fd, start.files.table p fd = some a
  have inv : Locked live (fun _ => 0) s ∧ s.Calls (· ≠ .close) ∧ s.files.table = start.files.table := by
    refine run.invariant (I := fun s => Locked live (fun _ => 0) s ∧ s.Calls (· ≠ .close) ∧ s.files.table = start.files.table)
      (fun s input s' kept legal done => ?_) ⟨?_, fun q op under => ?_, rfl⟩
    · obtain ⟨locked, calls, tables⟩ := kept
      obtain ⟨locked', calls', same⟩ := locked.step (fun p fd a table => ⟨p, fd, by rw [← tables, table]⟩) calls legal.1 done
      exact ⟨locked', calls', same.trans tables⟩
    · exact .start quiet.idle quiet.unlocked fun a ⟨p, fd, table⟩ => quiet.free p fd a table
    · rw [quiet.idle q] at under
      cases under
  obtain ⟨locked, -, tables⟩ := inv
  have total := locked.permits a ⟨r, fd, by rw [← tables, opened]⟩
  refine ⟨by omega, fun p q first second => ?_⟩
  by_contra other
  have both := load_add_load_le other s a
  omega

end

def fd0 : Fin maxFile := ⟨0, zero_lt_maxFile⟩

-- two processes with the same file open
def sharedFile : FileLocks Unit Unit Unit Bool where
  files :=
    { tree := Files.rootOnly.tree.put 2 ⟨[97], (), some 1, none, none, fsNodeTypeFile, none, 2, none, ()⟩
      disk := ()
      table := fun _ fd => if fd = fd0 then some 2 else none
      fileCount := fun _ => 1
      cwd := fun _ => some 1 }
  lock _ := ⟨1, []⟩
  phase _ := .idle
  userLocks _ _ := 0

theorem sharedFile_quiet : sharedFile.Quiet := ⟨fun _ => rfl, fun _ _ => rfl, fun _ _ _ _ => rfl⟩

def strayUnlock : FileLocks Unit Unit Unit Bool := (sharedFile.setUserLocks true 2 0).release 2

/-- An unlock by a process that does not have the lock lets two processes have it. -/
theorem file_lock_shared : ∃ s t a, ∃ p q : Bool,
    (machine (fun _ input => OnOpenFiles input) Files.ramfsOnly Files.oneFile).Reaches sharedFile s ∧ 1 < (s.lock a).count ∧
    (machine (fun _ input => OnOpenFiles input) Files.ramfsOnly Files.oneFile).Reaches s t ∧ p ≠ q ∧
    t.files.table p fd0 = some a ∧ t.files.table q fd0 = some a ∧ 0 < t.load p a ∧ 0 < t.load q a := by
  have unlocks : [LockInput.unlock true fd0].foldlM (step Files.ramfsOnly Files.oneFile) sharedFile = some strayUnlock := rfl
  have locks : ([LockInput.call false fd0 .lock, .run false, .call true fd0 .lock, .run true].foldlM
      (step Files.ramfsOnly Files.oneFile) strayUnlock).any (fun t => decide (t.files.table false fd0 = some 2 ∧
        t.files.table true fd0 = some 2 ∧ 0 < t.load false 2 ∧ 0 < t.load true 2)) = true := by decide
  obtain ⟨t, run, found⟩ := (Option.any_eq_true ..).mp locks
  obtain ⟨here, there, first, second⟩ := of_decide_eq_true found
  refine ⟨strayUnlock, t, 2, false, true, .foldlM (fun s input member => ?_) unlocks, by decide,
    .foldlM (fun s input member => ?_) run, by decide, here, there, first, second⟩
  · rw [List.mem_singleton] at member
    subst member
    exact ⟨trivial, fun call wrong => by cases wrong⟩
  · simp only [List.mem_cons, List.not_mem_nil, or_false] at member
    rcases member with rfl | rfl | rfl | rfl
    all_goals exact ⟨by simp [OnOpenFiles], fun call wrong => by cases wrong⟩

/-- The file is locked by one of them. -/
theorem file_lock_exclusion_shared_file : ∃ s,
    (machine (fun s input => OnOpenFiles input ∧ s.OwnUnlock input) Files.ramfsOnly Files.oneFile).Reaches sharedFile s ∧
    0 < s.load false 2 ∧ (s.lock 2).count ≤ 1 ∧ ∀ p q, 0 < s.load p 2 → 0 < s.load q 2 → p = q := by
  have locks : ([LockInput.call false fd0 .lock, .call true fd0 (.read 7), .run false].foldlM
      (step Files.ramfsOnly Files.oneFile) sharedFile).any (fun t => decide (t.files.table true fd0 = some 2 ∧
        0 < t.load false 2)) = true := by decide
  obtain ⟨s, run, found⟩ := (Option.any_eq_true ..).mp locks
  obtain ⟨opened, holds⟩ := of_decide_eq_true found
  have reached : (machine (fun s input => OnOpenFiles input ∧ s.OwnUnlock input) Files.ramfsOnly Files.oneFile).Reaches
      sharedFile s := by
    refine .foldlM (fun s input member => ?_) run
    simp only [List.mem_cons, List.not_mem_nil, or_false] at member
    rcases member with rfl | rfl | rfl
    all_goals exact ⟨⟨by simp [OnOpenFiles], trivial⟩, fun call wrong => by cases wrong⟩
  exact ⟨s, reached, holds, file_lock_exclusion sharedFile_quiet reached opened⟩

end Kerosene.Vfs.FileLocks

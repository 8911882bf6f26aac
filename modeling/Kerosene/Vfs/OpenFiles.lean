import Kerosene.Vfs.Accounts
import Kerosene.Vfs.Open
import Mathlib.Algebra.BigOperators.Fin

/-!
# Open files over runs
-/

namespace Kerosene.Vfs.Files
open Lib Ramfs Relation
variable {σ φ ε π : Type} [DecidableEq φ] [DecidableEq π] [Fintype π]

def openCount (s : Files σ φ ε π) (a : Addr) : Nat :=
  (Finset.univ.filter fun slot : π × Fin maxFile => s.table slot.1 slot.2 = some a).card

/-! ## The machine -/

inductive FilesInput (σ φ ε π : Type) where
  | open (call : OpenCall φ ε π)
  | close (p : π) (fileDescriptor : Int)
  -- what the filesystems hold changes between calls
  | disk (disk : σ)

def step (V : Volumes φ) (S : Store σ φ ε) (s : Files σ φ ε π) : FilesInput σ φ ε π → Option (Files σ φ ε π)
  | .open call => do
      let (fd, s) ← s.vfsOpen V S call
      if fd.isSome then return s else none
  | .close p fileDescriptor => s.vfsClose p fileDescriptor
  | .disk disk => some { s with disk := disk }

/-- A call to `vfs_open` gets free blocks from `kmalloc`, and loads no mountpoint: a mountpoint is
pinned, so that the search meets it in the tree. -/
def Legal (V : Volumes φ) (S : Store σ φ ε) (s : Files σ φ ε π) : FilesInput σ φ ε π → Prop
  | .open call => FreshAnswers s.tree.Free call.kmalloc.nodes ∧
      ∀ cwd walk, s.cwd call.process = some cwd →
        walkPath V S s.disk call.mode s.tree call.path cwd call.kmalloc.nodes = some walk → walk.Plain
  | _ => True

def machine (π : Type) [DecidableEq π] (V : Volumes φ) (S : Store σ φ ε) :
    Machine (Files σ φ ε π) (FilesInput σ φ ε π) where
  Legal := Legal V S
  step := step V S

/-! ## Descriptors -/

variable {s s' : Files σ φ ε π} {p : π} {fd : Fin maxFile} {a b : Addr}

omit [DecidableEq φ] in
theorem openCount_setTable (s : Files σ φ ε π) (p : π) (fd : Fin maxFile) (new : Option Addr) (b : Addr) :
    (s.setTable p fd new).openCount b + (if s.table p fd = some b then 1 else 0) =
      s.openCount b + if new = some b then 1 else 0 := by
  have self : (s.setTable p fd new).table p fd = new := by simp [setTable]
  have others : ∀ slot ∈ Finset.univ.erase (p, fd), (if (s.setTable p fd new).table slot.1 slot.2 = some b then 1 else 0) =
      if s.table slot.1 slot.2 = some b then 1 else 0 := by
    rintro ⟨q, fd'⟩ member
    have other := Finset.ne_of_mem_erase member
    by_cases same : q = p
    · subst same
      have differ : fd' ≠ fd := by rintro rfl; exact other rfl
      simp [setTable, differ]
    · simp [setTable, same]
  rw [openCount, openCount, Finset.card_filter, Finset.card_filter, ← Finset.add_sum_erase _ _ (Finset.mem_univ (p, fd)),
    ← Finset.add_sum_erase _ _ (Finset.mem_univ (p, fd)), Finset.sum_congr rfl others]
  dsimp only
  rw [self]
  omega

omit [DecidableEq φ] [DecidableEq π] in
theorem openCount_pos (held : s.table p fd = some a) : 0 < s.openCount a :=
  Finset.card_pos.mpr ⟨(p, fd), Finset.mem_filter.mpr ⟨Finset.mem_univ _, held⟩⟩

/-! ## The invariant -/

variable {V : Volumes φ} {S : Store σ φ ε} {pin : Addr → Nat}

/-- The tree is well formed, with `pin` references on each node besides the descriptors on it; roots,
targets of mounts and working directories are pinned. -/
def Sound (V : Volumes φ) (pin : Addr → Nat) (s : Files σ φ ε π) : Prop :=
  (∃ member kids depth, Accounts V pin s.openCount s.tree member kids depth) ∧ ∀ p cwd, s.cwd p = some cwd → 0 < pin cwd

theorem Sound.open {call : OpenCall φ ε π} (sound : s.Sound V pin) (files : S.PlainFiles)
    (legal : s.Legal V S (.open call)) (done : s.vfsOpen V S call = some (some fd, s')) : s'.Sound V pin := by
  obtain ⟨⟨member, kids, depth, accounts⟩, pinned⟩ := sound
  rw [vfsOpen] at done
  split_ifs at done with refused
  · cases done
  cases here : s.cwd call.process with
  | none =>
      rw [here] at done
      cases done
  | some cwd =>
      simp only [here, Option.bind_eq_bind, Option.bind_eq_some_iff] at done
      obtain ⟨found, lookup, done⟩ := done
      cases place : found.node with
      | none =>
          rw [place] at done
          cases done
      | some a =>
          obtain ⟨member', kids', depth', accounts', inside⟩ := accounts.vfsFindAndCreateNode
            (accounts.pinned cwd (pinned _ cwd here)) legal.1 files (fun walk => legal.2 cwd walk here) lookup place
          simp only [place] at done
          cases slot : freeSlot (s.table call.process) with
          | none =>
              simp only [slot, Option.bind_eq_some_iff] at done
              obtain ⟨tree, -, done⟩ := done
              cases done
          | some fd' =>
              have free : s.table call.process fd' = none := by
                have stops := List.find?_some slot
                simpa using stops
              have count := openCount_setTable s call.process fd' (some a)
              simp only [free, reduceCtorEq, if_false, Nat.add_zero, Option.some.injEq] at count
              simp only [slot, openSlot, Option.bind_eq_bind, Option.bind_eq_some_iff] at done
              obtain ⟨node, hereA, done⟩ := done
              split_ifs at done with notDir truncates
              · simp only [Option.bind_eq_some_iff] at done
                obtain ⟨tree, -, done⟩ := done
                cases done
              · cases done
              · cases done
                refine ⟨⟨member', kids', depth', accounts'.addRefcount inside (fun b other => ?_) ?_⟩, pinned⟩
                · have := count b
                  rw [if_neg (Ne.symm other)] at this
                  exact this
                · have := count a
                  rw [if_pos rfl] at this
                  exact_mod_cast this

omit [DecidableEq φ] in
theorem Sound.close (sound : s.Sound V pin) (p : π) (fileDescriptor : Int) :
    ∃ s', s.vfsClose p fileDescriptor = some s' ∧ s'.Sound V pin := by
  rw [vfsClose]
  split_ifs with small
  · generalize (⟨fileDescriptor.toNat, small.2⟩ : Fin maxFile) = fd
    cases held : s.table p fd with
    | none => exact ⟨s, by simp only [held], sound⟩
    | some a =>
        obtain ⟨⟨member, kids, depth, accounts⟩, pinned⟩ := sound
        have inside := accounts.isOpen a (openCount_pos held)
        obtain ⟨node, here⟩ := Option.isSome_iff_exists.mp (accounts.allocated a inside)
        have count := openCount_setTable s p fd none
        simp only [held, reduceCtorEq, if_false, Nat.add_zero, Option.some.injEq] at count
        have released : Accounts V pin (s.setTable p fd none).openCount (s.tree.addRefcount a (-1)) member kids depth := by
          refine accounts.addRefcount inside (fun b other => ?_) ?_
          · have := count b
            rwa [if_neg (Ne.symm other), Nat.add_zero] at this
          · have := count a
            rw [if_pos rfl] at this
            omega
        obtain ⟨tree, member', kids', cleaned, accounts', -⟩ := released.vfsCleanupNodeTree inside
        refine ⟨{ s.setTable p fd none with
          tree := tree, fileCount := Function.update (s.setTable p fd none).fileCount p ((s.setTable p fd none).fileCount p - 1) },
          ?_, ⟨member', kids', depth, accounts'⟩, pinned⟩
        simp only [held, here, cleaned, Option.bind_eq_bind, Option.bind_some]
        rfl
  · exact ⟨s, rfl, sound⟩

theorem sound_of_reaches {start : Files σ φ ε π} (files : S.PlainFiles) (sound : start.Sound V pin)
    (run : (machine π V S).Reaches start s) : s.Sound V pin := by
  refine run.invariant (I := fun s => Sound V pin s) ?_ sound
  rintro s input s' sound legal step
  cases input with
  | «open» call =>
      simp only [machine, Files.step, Option.bind_eq_bind, Option.bind_eq_some_iff] at step
      obtain ⟨⟨fd, s''⟩, done, step⟩ := step
      cases fd with
      | none => simp at step
      | some fd =>
          cases step
          exact sound.open files legal done
  | close p fileDescriptor =>
      obtain ⟨s'', done, sound'⟩ := sound.close p fileDescriptor
      have same : some s'' = some s' := done.symm.trans step
      cases same
      exact sound'
  | disk disk =>
      cases step
      exact sound

/-! ## What holds in every state -/

def InTree (V : Volumes φ) (s : Tree φ ε) (a : Addr) : Prop := ∃ f, ReflTransGen (IsChild s.first s.next) (V.root f) a

/-- The accounting of open files, in terms of the links alone. -/
structure Accounted (V : Volumes φ) (pin : Addr → Nat) (s : Files σ φ ε π) : Prop where
  allocated : ∀ a, InTree V s.tree a → (s.tree.node a).isSome
  children : ∀ a, InTree V s.tree a →
    ∃ l, Seg s.tree.next (s.tree.first a) l none ∧ l.Nodup ∧ ∀ b ∈ l, s.tree.parent b = some a
  parent : ∀ a, InTree V s.tree a → ∀ p, s.tree.parent a = some p → InTree V s.tree p ∧ IsChild s.tree.first s.tree.next p a
  top : ∀ a, InTree V s.tree a → s.tree.parent a = none → ∃ f, a = V.root f
  acyclic : ∀ a, InTree V s.tree a → ¬ TransGen (IsChild s.tree.first s.tree.next) a a
  refcount : ∀ a node, InTree V s.tree a → s.tree.node a = some node → node.refcount = pin a + s.openCount a
  descriptors : ∀ p fd a, s.table p fd = some a → ∃ node, s.tree.node a = some node ∧
    ReflTransGen (IsChild s.tree.first s.tree.next) (V.root node.fs) a

omit [DecidableEq φ] [DecidableEq π] in
theorem Sound.accounted (sound : s.Sound V pin) : s.Accounted V pin := by
  obtain ⟨⟨member, kids, depth, accounts⟩, pinned⟩ := sound
  have inside : ∀ a, InTree V s.tree a → a ∈ member := by
    rintro a ⟨f, below⟩
    exact accounts.forest.descendant_member (accounts.pinned _ (accounts.root f)) below
  have inTree : ∀ a ∈ member, ∃ node, s.tree.node a = some node ∧
      ReflTransGen (IsChild s.tree.first s.tree.next) (V.root node.fs) a := by
    intro a insideA
    obtain ⟨node, here⟩ := Option.isSome_iff_exists.mp (accounts.allocated a insideA)
    exact ⟨node, here, accounts.reaches insideA (Tree.fsOf_eq here)⟩
  refine ⟨fun a found => accounts.allocated a (inside a found), fun a found => ?_, fun a found p up => ?_,
    fun a found top => ?_, fun a found => accounts.forest.acyclic (inside a found),
    fun a node found here => accounts.refcount a (inside a found) node here,
    fun p fd a held => inTree a (accounts.isOpen a (openCount_pos held))⟩
  · exact ⟨kids a, accounts.forest.list a (inside a found), accounts.forest.nodup (inside a found),
      fun b listed => (accounts.forest.kid a (inside a found) b listed).2.1⟩
  · obtain ⟨insideP, listed⟩ := accounts.forest.up a (inside a found) p up
    obtain ⟨node, -, below⟩ := inTree p insideP
    exact ⟨⟨node.fs, below⟩, (accounts.forest.isChild_iff insideP).mpr listed⟩
  · obtain ⟨f, same, -⟩ := accounts.top a (inside a found) top
    exact ⟨f, same⟩

/-- In every state that a run of successful opens and of closes reaches, the links of the tree agree
and have no cycle, the reference counts are the pins and the open descriptors, and the node of every
open descriptor is below the root of its filesystem. -/
theorem open_files_accounted {start : Files σ φ ε π} (files : S.PlainFiles) (sound : start.Sound V pin)
    (run : (machine π V S).Reaches start s) :
    s.Accounted V pin ∧ ∀ p fileDescriptor, (s.vfsClose p fileDescriptor).isSome := by
  have sound' := sound_of_reaches files sound run
  refine ⟨sound'.accounted, fun p fileDescriptor => ?_⟩
  obtain ⟨s', done, -⟩ := sound'.close p fileDescriptor
  rw [done]
  rfl

-- one ramfs with its root node, and one process
def rootOnly : Files Unit Unit Unit Unit where
  tree := ⟨Function.update (fun _ => none) 1 (some
    ⟨[slash], (), none, none, none, fsNodeTypeDirectory, none, 69420, none, ()⟩), fun _ => none⟩
  disk := ()
  table _ _ := none
  fileCount _ := 0
  cwd _ := some 1

def ramfsOnly : Volumes Unit := ⟨fun _ => 1, (), fun _ => false⟩

-- a file in the root directory
def oneFile : Store Unit Unit Unit where
  iterate _ _ _ := ⟨[⟨[97], fsNodeTypeFile, none, ()⟩], .eof, FsErr.eof_ne_success⟩
  nodeCreate _ _ _ _ _ := (.error .notEnoughSpace, ())
  mkdir _ _ _ _ _ := (.error .notEnoughSpace, ())
  createSpecialNode _ _ _ _ _ := (.error .notEnoughSpace, ())

def openFile : OpenCall Unit Unit Unit :=
  ⟨(), [slash, 97], fileOpenRead, true, ⟨true, true, [some (2, ⟨[], (), none, none, none, 0#32, none, 0, none, ()⟩)]⟩⟩

def pinRoot (a : Addr) : Nat := if a = 1 then 69420 else 0

theorem rootOnly_sound : rootOnly.Sound ramfsOnly pinRoot := by
  have none : ∀ a, rootOnly.openCount a = 0 :=
    fun a => Finset.card_eq_zero.mpr (Finset.filter_eq_empty_iff.mpr fun _ _ => by simp [rootOnly])
  have only : ∀ a, 0 < pinRoot a → a = 1 := by
    intro a positive
    by_contra other
    rw [pinRoot, if_neg other] at positive
    exact Nat.lt_irrefl 0 positive
  refine ⟨⟨{1}, fun _ => [], fun _ => 0, ⟨⟨?_, ?_, ?_⟩, ?_, ?_, ?_⟩, ?_, only, ?_, ?_, ?_⟩, ?_⟩
  · rintro a rfl
    rfl
  · intro a _ b listed
    cases listed
  · rintro b rfl a up
    cases up
  · rintro a rfl
    rfl
  · intro a _ b listed
    cases listed
  · rintro a rfl _
    exact ⟨(), rfl, rfl⟩
  · rintro a rfl node here
    cases here
    rw [none]
    rfl
  · intro a positive
    rw [none] at positive
    exact absurd positive (Nat.lt_irrefl 0)
  · exact fun _ => show 0 < pinRoot 1 by decide
  · rintro a rfl node here isMount
    cases here
    cases isMount
  · rintro p cwd here
    cases here
    decide

theorem oneFile_plain : oneFile.PlainFiles := by
  intro disk fs data name entry disk' made
  cases made

theorem openFile_legal : rootOnly.Legal ramfsOnly oneFile (.open openFile) := by
  refine ⟨⟨fun a member => ?_, by decide⟩, fun cwd walk here walked a loaded node found => ?_⟩
  · have : a = 2 := List.mem_singleton.mp member
    subst this
    exact ⟨rfl, rfl⟩
  · cases here
    have check : ((walkPath ramfsOnly oneFile () fileOpenRead rootOnly.tree [slash, 97] 1 openFile.kmalloc.nodes).all fun walk =>
        walk.loaded.all fun a => (walk.tree.node a).all fun node => !isMountpoint node.flags) = true := by decide
    have walked' : walkPath ramfsOnly oneFile () fileOpenRead rootOnly.tree [slash, 97] 1 openFile.kmalloc.nodes = some walk :=
      walked
    rw [walked', Option.all_some, List.all_eq_true] at check
    have plain := check a loaded
    rw [found, Option.all_some] at plain
    simpa using plain

def firstSlot : Fin maxFile := ⟨0, by decide⟩

/-- The file is opened in descriptor 0 and closed again; its node is freed with the close. -/
theorem open_files_accounted_open_close :
    ∃ s s', rootOnly.step ramfsOnly oneFile (.open openFile) = some s ∧ s.table () firstSlot = some 2 ∧ s.openCount 2 = 1 ∧
      s.Accounted ramfsOnly pinRoot ∧ s.step ramfsOnly oneFile (.close () 0) = some s' ∧ s'.table () firstSlot = none ∧
      (s'.tree.node 2).isNone ∧ s'.Accounted ramfsOnly pinRoot := by
  have calls : ((rootOnly.step ramfsOnly oneFile (.open openFile)).any fun s => s.table () firstSlot = some 2 ∧ s.openCount 2 = 1 ∧
      (s.step ramfsOnly oneFile (.close () 0)).any fun s' => s'.table () firstSlot = none ∧ (s'.tree.node 2).isNone) = true := by
    decide
  obtain ⟨s, opened, here⟩ := Option.any_eq_true _ _ |>.mp calls
  obtain ⟨inTable, one, closes⟩ := of_decide_eq_true here
  obtain ⟨s', closed, gone⟩ := Option.any_eq_true _ _ |>.mp closes
  obtain ⟨empty, freed⟩ := of_decide_eq_true gone
  have first : (machine Unit ramfsOnly oneFile).Reaches rootOnly s :=
    (Machine.Reaches.refl rootOnly).snoc (i := .open openFile) openFile_legal opened
  have second : (machine Unit ramfsOnly oneFile).Reaches rootOnly s' := first.snoc (i := .close () 0) trivial closed
  exact ⟨s, s', opened, inTable, one, (open_files_accounted oneFile_plain rootOnly_sound first).1, closed, empty, freed,
    (open_files_accounted oneFile_plain rootOnly_sound second).1⟩

end Kerosene.Vfs.Files

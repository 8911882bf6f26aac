import Kerosene.Files.Reads

/-!
# Copies from one file system to another

`universal_copy` of node_op.c and `ramfs_universal_copy` of ramfs.c, over the functions of the file system
that is written to.
-/

namespace Kerosene.Files
open Lib Ramfs

def fileOpenCreate : FileMode := 1#16 <<< 3

def universalCopySize : Nat := 512

/-- An error code, and the call that it comes from. -/
inductive CopyErr (ε ε' : Type) where
  | success
  | create (err : ε)
  | read (err : ReadErr)
  | write (err : ε')

/-- The calls on the new file, in the directory that it comes to lie in. `ω` is what a write is given from outside: the
time, or the answers of an allocator. -/
structure Target (σ ω ε ε' : Type) where
  nodeCreate : Option (Except ε σ)
  fileOpen : σ → FileMode → Option σ
  -- the bytes written, or an error
  fileWrite : σ → List UInt8 → ω → Option (Except ε' Nat × σ)
  nodeSync : σ → Option σ

namespace Target
variable {σ ω ε ε' γ : Type}

/-! ## `universal_copy` -/

-- `remain_size -= actual_write_size`
def lessen (remain actual : Nat) : Nat := (((remain : Int) - actual) % 2 ^ 32).toNat

-- The loop, `none` when it does not end within `fuel` rounds.
def copyLoop (t : Target σ ω ε ε') (src : FileSystem γ) (given : Nat → ω) :
    (fuel : Nat) → (round remain : Nat) → Description γ → σ → Option (CopyErr ε ε' × σ)
  | 0, _, remain, _, s => if remain = 0 then some (.success, s) else none
  | fuel + 1, round, remain, srcFile, s =>
      if remain = 0 then some (.success, s)
      else do
        let writeSize := if remain ≥ universalCopySize then universalCopySize else remain
        let (err, buffer, srcFile) ← src.fileRead srcFile writeSize
        if err ≠ .success ∧ err ≠ .eof then return (.read err, s)
        match ← t.fileWrite s buffer (given round) with
        | (.error err, s) => return (.write err, s)
        | (.ok actual, s) => copyLoop t src given fuel (round + 1) (lessen remain actual) srcFile s

def universalCopy (t : Target σ ω ε ε') (src : FileSystem γ) (slot : Description γ) (given : Nat → ω) :
    Option (CopyErr ε ε' × Option σ) := do
  match ← t.nodeCreate with
  | .error err => return (.create err, none)
  | .ok s =>
      let srcFile := src.fileOpen slot fileOpenRead
      let s ← t.fileOpen s (fileOpenWrite ||| fileOpenCreate)
      let (err, s) ← t.copyLoop src given src.size 0 src.size srcFile s
      let s ← t.nodeSync s
      return (err, some s)

/-! ## `ramfs_universal_copy` -/

-- The inner loop. No `file_write` of a file system that it may be called for returns `ERR_FS_EOF`.
def writeAll (t : Target σ ω ε ε') (given : Nat → ω) : (fuel : Nat) → (round : Nat) → List UInt8 → σ →
    Option (CopyErr ε ε' × Nat × σ)
  | 0, round, data, s => if data = [] then some (.success, round, s) else none
  | fuel + 1, round, data, s =>
      if data = [] then some (.success, round, s)
      else do
        match ← t.fileWrite s data (given round) with
        | (.error err, s) => return (.write err, round + 1, s)
        | (.ok written, s) => writeAll t given fuel (round + 1) (data.drop written) s

def copyDatanodes (t : Target σ ω ε ε') (f : File) (given : Nat → ω) : (fuel : Nat) → (round : Nat) → Option Addr → σ →
    Option (CopyErr ε ε' × σ)
  | _, _, none, s => some (.success, s)
  | 0, _, some _, _ => none
  | fuel + 1, round, some a, s => do
      let node ← f.datanode a
      let size := if node.next = none then f.size % ramfsDatanodeSize else ramfsDatanodeSize
      match ← t.writeAll given size round (node.data.toList.take size) s with
      | (.success, round, s) => copyDatanodes t f given fuel round node.next s
      | (err, _, s) => return (err, s)

def ramfsUniversalCopy (t : Target σ ω ε ε') (f : File) (given : Nat → ω) : Option (CopyErr ε ε' × Option σ) := do
  match ← t.nodeCreate with
  | .error err => return (.create err, none)
  | .ok s =>
      let s ← t.fileOpen s fileOpenWrite
      match ← t.copyDatanodes f given chainFuel 0 f.datanodeChain s with
      | (.success, s) => return (.success, some (← t.nodeSync s))
      | (err, s) => return (err, some s)

/-! ## Pieces that are taken -/

/-- What round `k` writes. -/
def piece (content : List UInt8) (k : Nat) : List UInt8 := (content.drop (512 * k)).take 512

variable {t : Target σ ω ε ε'} {src : FileSystem γ} {given : Nat → ω} {content : List UInt8} {blockSize fuel k m : Nat}
  {at_ : γ → Nat → Prop} {file : Description γ} {holds : Nat → σ → Prop} {s : σ}

theorem length_piece (content : List UInt8) (k : Nat) : (piece content k).length = min 512 (content.length - 512 * k) := by
  rw [piece, List.length_take, List.length_drop]

theorem take_piece (content : List UInt8) (k : Nat) :
    content.take (512 * k) ++ piece content k = content.take (512 * (k + 1)) := by
  rw [piece, Nat.mul_succ, List.take_add]

/-- The first `rounds` pieces are taken. `holds k` says what there is of the new file before round `k`. -/
structure Takes (t : Target σ ω ε ε') (given : Nat → ω) (content : List UInt8) (rounds : Nat) (holds : Nat → σ → Prop) : Prop where
  write : ∀ {k s}, k < rounds → 512 * k < content.length → holds k s →
    ∃ s', t.fileWrite s (piece content k) (given k) = some (.ok (piece content k).length, s') ∧ holds (k + 1) s'

theorem lessen_eq {remain actual : Nat} (less : actual ≤ remain) (small : remain < 2 ^ 32) : lessen remain actual = remain - actual := by
  rw [lessen]
  omega

/-- The reader is at the start of a round. -/
structure AtRound (content : List UInt8) (blockSize : Nat) (at_ : γ → Nat → Prop) (k : Nat) (file : Description γ) : Prop
    extends Stands content blockSize at_ file where
  readable : file.mode.has fileOpenRead
  position : file.position = min (512 * k) content.length

theorem copyLoop_round (t : Target σ ω ε ε') (given : Nat → ω) (reads : Reads src content blockSize at_)
    (here : AtRound content blockSize at_ k file)
    (more : 512 * k < content.length) (fuel : Nat) :
    ∃ file', AtRound content blockSize at_ (k + 1) file' ∧ ∀ s,
      t.copyLoop src given (fuel + 1) k (content.length - 512 * k) file s = (t.fileWrite s (piece content k) (given k)).bind fun
        | (.error err, s) => some (.write err, s)
        | (.ok actual, s) => t.copyLoop src given fuel (k + 1) (lessen (content.length - 512 * k) actual) file' s := by
  have position : file.position = 512 * k := by rw [here.position, Nat.min_eq_left more.le]
  have size : (if content.length - 512 * k ≥ universalCopySize then universalCopySize else content.length - 512 * k) =
      min 512 (content.length - 512 * k) := by
    rw [universalCopySize]
    split_ifs <;> omega
  obtain ⟨file', read, stands, mode, next⟩ := reads.fileRead here.toStands here.readable
    (show 0 < min 512 (content.length - 512 * k) by omega)
  have taken : (content.drop file.position).take (min 512 (content.length - 512 * k)) = piece content k := by
    rw [piece, position, ← List.length_drop, ← List.take_eq_take_min]
  refine ⟨file', ⟨stands, by rw [mode]; exact here.readable, by rw [next, position]; omega⟩, fun s => ?_⟩
  rw [if_neg (by omega), taken] at read
  rw [Target.copyLoop, if_neg (by omega)]
  simp only [size, read, Option.bind_eq_bind, Option.bind_some, ne_eq, not_true, false_and, if_false]
  rfl

theorem Takes.copyLoop_rounds (takes : t.Takes given content m holds) (fuel : Nat) (reads : Reads src content blockSize at_)
    (inside : 512 * m ≤ content.length) (upTo : k ≤ m) (enough : m - k ≤ fuel) (here : AtRound content blockSize at_ k file)
    (held : holds k s) :
    ∃ file' s', AtRound content blockSize at_ m file' ∧ holds m s' ∧
      t.copyLoop src given fuel k (content.length - 512 * k) file s =
        t.copyLoop src given (fuel - (m - k)) m (content.length - 512 * m) file' s' := by
  have small := reads.small
  induction fuel generalizing k file s with
  | zero =>
      obtain rfl : k = m := by omega
      exact ⟨file, s, here, held, by rw [Nat.sub_self]⟩
  | succ fuel ih =>
      rcases upTo.eq_or_lt with rfl | before
      · exact ⟨file, s, here, held, by rw [Nat.sub_self, Nat.sub_zero]⟩
      · have more : 512 * k < content.length := by omega
        obtain ⟨s₁, written, held₁⟩ := takes.write before more held
        obtain ⟨file₁, here₁, round⟩ := copyLoop_round t given reads here more fuel
        have length := length_piece content k
        have rest : lessen (content.length - 512 * k) (piece content k).length = content.length - 512 * (k + 1) := by
          rw [lessen_eq (by omega) (by omega)]
          omega
        obtain ⟨file', s', atEnd, held', done⟩ := ih before (by omega) here₁ held₁
        refine ⟨file', s', atEnd, held', ?_⟩
        rw [round, written, Option.bind_some]
        dsimp only
        rw [rest, done, show fuel + 1 - (m - k) = fuel - (m - (k + 1)) by omega]

theorem Takes.copyLoop (takes : t.Takes given content m holds) (reads : Reads src content blockSize at_)
    (all : content.length ≤ 512 * m) (here : AtRound content blockSize at_ 0 file) (held : holds 0 s) :
    ∃ k s', content.length ≤ 512 * k ∧ holds k s' ∧
      t.copyLoop src given content.length 0 content.length file s = some (.success, s') := by
  have small := reads.small
  have first : t.Takes given content (content.length / 512) holds := ⟨fun before => takes.write (by omega)⟩
  obtain ⟨file₁, s₁, here₁, held₁, done⟩ := first.copyLoop_rounds content.length reads (by omega) (Nat.zero_le _) (by omega)
    here held
  rw [Nat.mul_zero, Nat.sub_zero, Nat.sub_zero] at done
  rw [done]
  by_cases ended : content.length - 512 * (content.length / 512) = 0
  · refine ⟨_, s₁, by omega, held₁, ?_⟩
    rw [ended]
    cases content.length - content.length / 512 <;> exact if_pos rfl
  · obtain ⟨fuel, left⟩ := Nat.exists_eq_add_one.mpr (show 0 < content.length - content.length / 512 by omega)
    obtain ⟨s₂, written, held₂⟩ := takes.write (show content.length / 512 < m by omega) (by omega) held₁
    obtain ⟨file₂, -, round⟩ := copyLoop_round t given reads here₁ (by omega) fuel
    have length := length_piece content (content.length / 512)
    have rest : lessen (content.length - 512 * (content.length / 512)) (piece content (content.length / 512)).length = 0 := by
      rw [lessen_eq (by omega) (by omega)]
      omega
    refine ⟨_, s₂, by omega, held₂, ?_⟩
    rw [left, round, written, Option.bind_some]
    dsimp only
    rw [rest]
    cases fuel <;> exact if_pos rfl

theorem atRound_open (reads : Reads src content blockSize at_) (slot : Description γ) :
    AtRound content blockSize at_ 0 (src.fileOpen slot fileOpenRead) := by
  have readable : fileOpenRead.has fileOpenRead = true := by decide
  exact ⟨reads.fileOpen_stands slot readable, readable, (Nat.zero_min _).symm⟩

theorem Takes.universalCopy {s₁ : σ} (takes : t.Takes given content m holds) (reads : Reads src content blockSize at_)
    (all : content.length ≤ 512 * m) (created : t.nodeCreate = some (.ok s))
    (opened : t.fileOpen s (fileOpenWrite ||| fileOpenCreate) = some s₁) (start : holds 0 s₁) (slot : Description γ) :
    ∃ k s₂, content.length ≤ 512 * k ∧ holds k s₂ ∧
      t.universalCopy src slot given = (t.nodeSync s₂).map fun s => (.success, some s) := by
  obtain ⟨k, s₂, whole, held, done⟩ := takes.copyLoop reads all (atRound_open reads slot) start
  rw [← reads.size] at done
  refine ⟨k, s₂, whole, held, ?_⟩
  simp only [Target.universalCopy, created, opened, done, Option.bind_eq_bind, Option.bind_some]
  cases t.nodeSync s₂ <;> rfl

/-! ## Datanodes that are copied -/

variable {f : File} {nodes : List Addr} {first : Option Addr}

/-- What `ramfs_universal_copy` takes of a chain: of the last datanode, as much as the size leaves over. -/
def copied (f : File) (nodes : List Addr) : List UInt8 :=
  (f.datanode.bytes nodes).take (512 * (nodes.length - 1) + f.size % 512)

theorem copied_cons {a b : Addr} (length : (f.datanode.row a).length = 512) :
    copied f (a :: b :: nodes) = f.datanode.row a ++ copied f (b :: nodes) := by
  have sum : 512 * ((a :: b :: nodes).length - 1) + f.size % 512 =
      (f.datanode.row a).length + (512 * ((b :: nodes).length - 1) + f.size % 512) := by
    rw [length, List.length_cons, List.length_cons]
    omega
  rw [copied, sum, Datanodes.bytes_cons, List.take_length_add_append, copied]

theorem Takes.writeAll {data : List UInt8} (takes : t.Takes given content m holds) (inside : k < m) (data_ : data = piece content k)
    (enough : data.length ≤ fuel) (held : holds k s) :
    ∃ k' s', t.writeAll given fuel k data s = some (.success, k', s') ∧ holds k' s' ∧
      (data = [] → k' = k) ∧ (data ≠ [] → k' = k + 1) := by
  by_cases none : data = []
  · refine ⟨k, s, ?_, held, fun _ => rfl, fun some => absurd none some⟩
    rw [none]
    cases fuel <;> exact if_pos rfl
  · obtain ⟨fuel, rfl⟩ := Nat.exists_eq_add_one.mpr ((List.length_pos_iff.mpr none).trans_le enough)
    have length := length_piece content k
    rw [← data_] at length
    have some := List.length_pos_iff.mpr none
    obtain ⟨s', written, held'⟩ := takes.write inside (by omega) held
    refine ⟨k + 1, s', ?_, held', fun empty => absurd empty none, fun _ => rfl⟩
    rw [← data_] at written
    rw [Target.writeAll, if_neg none, written]
    simp only [Option.bind_eq_bind, Option.bind_some, List.drop_length]
    cases fuel <;> exact if_pos rfl

theorem Takes.copyDatanodes (takes : t.Takes given content m holds) (chain : f.datanode.Chain first nodes) (enough : nodes.length ≤ fuel)
    (rounds : k + nodes.length ≤ m) (left : content.drop (512 * k) = copied f nodes) (held : holds k s) :
    ∃ k' s', content.length ≤ 512 * k' ∧ holds k' s' ∧ t.copyDatanodes f given fuel k first s = some (.success, s') := by
  have length := congrArg List.length left
  rw [List.length_drop] at length
  induction nodes generalizing first fuel k s with
  | nil =>
      have none : first = none := chain.links
      rw [copied, Datanodes.bytes_nil, List.take_nil, List.length_nil] at length
      rw [none]
      exact ⟨k, s, by omega, held, by cases fuel <;> rfl⟩
  | cons a nodes ih =>
      obtain ⟨fuel, rfl⟩ := Nat.exists_eq_add_one.mpr (Nat.zero_lt_of_lt enough)
      obtain ⟨node, rfl, found, later⟩ := Datanodes.chain_cons.mp chain
      have row := Datanodes.row_eq found
      have width := Datanodes.row_length found
      rw [List.length_cons] at rounds
      cases nodes with
      | nil =>
          have last : node.next = none := later.links
          have all : copied f [a] = node.data.toList.take (f.size % ramfsDatanodeSize) := by
            rw [copied, Datanodes.bytes_cons, Datanodes.bytes_nil, List.append_nil, row, List.length_singleton, Nat.sub_self,
              Nat.mul_zero, Nat.zero_add]
            rfl
          have less : f.size % ramfsDatanodeSize < 512 := Nat.mod_lt _ (by decide)
          have part : (node.data.toList.take (f.size % ramfsDatanodeSize)).length ≤ f.size % ramfsDatanodeSize :=
            List.length_take_le ..
          rw [all] at left length
          have data : node.data.toList.take (f.size % ramfsDatanodeSize) = piece content k := by
            rw [piece, left, List.take_of_length_le (part.trans less.le)]
          obtain ⟨k', s', written, held', same, next⟩ := takes.writeAll (by omega) data part held
          refine ⟨k', s', ?_, held', ?_⟩
          · by_cases none : node.data.toList.take (f.size % ramfsDatanodeSize) = []
            · rw [none, List.length_nil] at length
              rw [same none]
              omega
            · rw [next none]
              omega
          · rw [Target.copyDatanodes, found]
            simp only [last, if_true, written, Option.bind_eq_bind, Option.bind_some]
            cases fuel <;> rfl
      | cons b nodes =>
          have more : node.next = some b := later.links.1
          rw [copied_cons width, row] at left
          rw [row] at width
          have cut : node.data.toList.take ramfsDatanodeSize = node.data.toList := List.take_of_length_le width.le
          have data : node.data.toList = piece content k := by
            rw [piece, left, List.take_append_of_le_length width.ge, List.take_of_length_le width.le]
          have fits : node.data.toList.length ≤ ramfsDatanodeSize := width.le
          have some : node.data.toList ≠ [] := List.ne_nil_of_length_pos (by omega)
          obtain ⟨k', s₁, written, held₁, -, next⟩ := takes.writeAll (by omega) data fits held
          obtain rfl := next some
          have left' : content.drop (512 * (k + 1)) = copied f (b :: nodes) := by
            rw [Nat.mul_succ, ← List.drop_drop, left, List.drop_left' width]
          have length' := congrArg List.length left'
          rw [List.length_drop] at length'
          obtain ⟨k', s', whole, held', done⟩ := ih later (Nat.le_of_succ_le_succ enough) (by omega) left' held₁ length'
          refine ⟨k', s', whole, held', ?_⟩
          rw [Target.copyDatanodes, found]
          simp only [more, reduceCtorEq, if_false, cut, written, Option.bind_eq_bind, Option.bind_some]
          rw [← more]
          exact done

theorem Takes.ramfsUniversalCopy {s₁ : σ} (takes : t.Takes given (copied f nodes) nodes.length holds)
    (chain : f.datanode.Chain f.datanodeChain nodes) (created : t.nodeCreate = some (.ok s))
    (opened : t.fileOpen s fileOpenWrite = some s₁) (start : holds 0 s₁) :
    ∃ k s₂, (copied f nodes).length ≤ 512 * k ∧ holds k s₂ ∧
      t.ramfsUniversalCopy f given = (t.nodeSync s₂).map fun s => (.success, some s) := by
  obtain ⟨k, s₂, whole, held, done⟩ := takes.copyDatanodes chain chain.length_le (Nat.zero_add _).le rfl start
  refine ⟨k, s₂, whole, held, ?_⟩
  simp only [Target.ramfsUniversalCopy, created, opened, done, Option.bind_eq_bind, Option.bind_some]
  cases t.nodeSync s₂ <;> rfl

end Target
end Kerosene.Files

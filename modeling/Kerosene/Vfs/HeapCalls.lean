import Kerosene.Vfs.FailedSearch

/-!
# The heap calls of `vfs_find_and_create_node`

The function with a record of its calls of `kmalloc` that answered with a block, and of `kfree`, in order.
-/

namespace Kerosene.Vfs
open Lib Ramfs
variable {σ φ ε : Type}

/-- What the function keeps in the kernel heap. -/
inductive HeapBlock
  | pathcpy
  | searchStack
  | node (a : Addr)
deriving DecidableEq

inductive HeapCall
  | kmalloc (block : HeapBlock)
  | kfree (block : HeapBlock)
deriving DecidableEq

def kmallocNodes (stack : List Addr) : List HeapCall := stack.map fun a => .kmalloc (.node a)

def kfreeNodes (stack : List Addr) : List HeapCall := stack.map fun a => .kfree (.node a)

section
variable (V : Volumes φ) (S : Store σ φ ε) (disk : σ) (mode : FileMode)

-- the block that `load` takes
def loadCalls (stack : List Addr) (grants : List (Grant φ ε)) : List HeapCall :=
  if stack.length ≥ maxAllocation then []
  else match grants.head?.join with
  | none => []
  | some (new, _) => kmallocNodes [new]

def loggedLoop : (fuel : Nat) → (s : Tree φ ε) → (current : Addr) → (stack : List Addr) → (path : Name) →
    List (Grant φ ε) → List HeapCall → Option (Walk φ ε × List HeapCall)
  | 0, _, _, _, _, _, _ => none
  | fuel + 1, s, current, stack, path, grants, calls =>
      match strtok path with
      | none => some (.arrived s current stack, calls)
      | some (name, rest) =>
          if isDot name then do loggedLoop fuel s (← s.followMount current) stack rest grants calls
          else if isDotdot name then do
            let node ← s.node current
            loggedLoop fuel s (← s.followMount (node.parent.getD current)) stack rest grants calls
          else do
            let node ← s.node current
            match ← s.siblingWhere (fun child => child.name == name) node.children with
            | some child => loggedLoop fuel s (← s.followMount child) stack rest grants calls
            | none =>
                match ← load V S disk mode s current name rest.isEmpty stack grants with
                | .arrived s' new stack' =>
                    loggedLoop fuel s' (← s'.followMount new) stack' rest grants.tail (calls ++ loadCalls stack grants)
                | walk => return (walk, calls ++ loadCalls stack grants)

def loggedPath (s : Tree φ ε) (path : Name) (cwd : Addr) (grants : List (Grant φ ε)) (calls : List HeapCall) :
    Option (Walk φ ε × List HeapCall) :=
  if path.head? = some slash then
    loggedLoop V S disk mode (path.length + 1) s (V.root V.ramfs) [] path.tail grants calls
  else loggedLoop V S disk mode (path.length + 1) s cwd [] path grants calls

end

section
variable (V : Volumes φ) (S : Store σ φ ε)

def loggedFail (disk : σ) (s : Tree φ ε) (err : FsErr) (stack : List Addr) (calls : List HeapCall) :
    Option (Found σ φ ε × List HeapCall) := do
  return (← failLookup disk s err stack, calls ++ kfreeNodes stack)

def loggedFinish (disk : σ) (mode : FileMode) (s : Tree φ ε) (current : Addr) (stack : List Addr)
    (calls : List HeapCall) : Option (Found σ φ ε × List HeapCall) := do
  let node ← s.node current
  if mode.has fileOpenOnlydir ∧ ¬ isDirectory node.flags then loggedFail disk s .notDir stack calls
  else return (⟨.success, some current, s, disk⟩, calls)

def loggedCreate [DecidableEq φ] (disk : σ) (mode : FileMode) (createFlags : BitVec 32) (s : Tree φ ε) (parent : Addr)
    (name : Name) (stack : List Addr) (grants : List (Grant φ ε)) (calls : List HeapCall) :
    Option (Found σ φ ε × List HeapCall) :=
  match grants.head?.join with
  | none => loggedFail disk s .notEnoughSpace stack calls
  | some (new, stale) => do
      let calls := calls ++ kmallocNodes [new]
      let parentNode ← s.node parent
      match createEntry V S disk parentNode name createFlags with
      | (.error err, disk) => loggedFail disk s err stack (calls ++ kfreeNodes [new])
      | (.ok entry, disk) =>
          let s ← (s.put new (stale.fill parent parentNode entry)).appendChild parent new
          loggedFinish disk mode (s.setNextSibling new none) new stack calls

def loggedRest [DecidableEq φ] (disk : σ) (mode : FileMode) (createFlags : BitVec 32) (calls : List HeapCall) :
    Walk φ ε → Option (Found σ φ ε × List HeapCall)
  | .arrived s current stack => loggedFinish disk mode s current stack calls
  | .create s parent name stack grants => loggedCreate V S disk mode createFlags s parent name stack grants calls
  | .nuke s err stack => loggedFail disk s err stack calls
  | .leave s err => some (⟨err, none, s, disk⟩, calls)

/-- `vfs_find_and_create_node` with its heap calls. -/
def loggedLookup [DecidableEq φ] (disk : σ) (s : Tree φ ε) (path : Name) (cwd : Addr) (mode : FileMode)
    (createFlags : BitVec 32) (kmalloc : Kmalloc φ ε) : Option (Found σ φ ε × List HeapCall) :=
  if ¬ kmalloc.pathcpy then some (⟨.notEnoughSpace, none, s, disk⟩, [])
  else if ¬ kmalloc.searchStack then
    some (⟨.notEnoughSpace, none, s, disk⟩, [.kmalloc .pathcpy, .kfree .pathcpy])
  else do
    let (walk, calls) ← loggedPath V S disk mode s path cwd kmalloc.nodes [.kmalloc .pathcpy, .kmalloc .searchStack]
    let (found, calls) ← loggedRest V S disk mode createFlags calls walk
    return (found, calls ++ [.kfree .searchStack, .kfree .pathcpy])

end

/-! ## The record changes nothing -/

section
variable {V : Volumes φ} {S : Store σ φ ε} {disk : σ} {mode : FileMode} {s s' : Tree φ ε} {current p new cwd : Addr}
variable {name path : Name} {stack : List Addr} {grants : List (Grant φ ε)} {walk : Walk φ ε} {isLast : Bool} {fuel : Nat}
variable {calls : List HeapCall} {err : FsErr} {createFlags : BitVec 32} {kmalloc : Kmalloc φ ε}

theorem loggedLoop_erase (calls : List HeapCall) :
    (loggedLoop V S disk mode fuel s current stack path grants calls).map Prod.fst =
      walkLoop V S disk mode fuel s current stack path grants := by
  induction fuel generalizing s current stack path grants calls with
  | zero => rfl
  | succ fuel ih =>
      rw [loggedLoop, walkLoop]
      cases strtok path with
      | none => rfl
      | some found =>
          obtain ⟨name, rest⟩ := found
          simp only [Option.bind_eq_bind]
          split_ifs with dot dotdot
          · rw [Option.map_bind]
            exact Option.bind_congr fun b followed => ih calls
          · rw [Option.map_bind]
            refine Option.bind_congr fun node here => ?_
            simp only [Function.comp_apply, Option.map_bind]
            exact Option.bind_congr fun b followed => ih calls
          · rw [Option.map_bind]
            refine Option.bind_congr fun node here => ?_
            simp only [Function.comp_apply, Option.map_bind]
            refine Option.bind_congr fun child searched => ?_
            cases child with
            | some child =>
                simp only [Function.comp_apply, Option.map_bind]
                exact Option.bind_congr fun b followed => ih calls
            | none =>
                simp only [Function.comp_apply, Option.map_bind]
                refine Option.bind_congr fun walk loaded => ?_
                cases walk with
                | arrived s' new stack' =>
                    simp only [Function.comp_apply, Option.map_bind]
                    exact Option.bind_congr fun b followed => ih _
                | create | nuke | leave => rfl

theorem loggedPath_erase (calls : List HeapCall) :
    (loggedPath V S disk mode s path cwd grants calls).map Prod.fst = walkPath V S disk mode s path cwd grants := by
  rw [loggedPath, walkPath]
  split_ifs <;> exact loggedLoop_erase calls

theorem loggedFail_erase (calls : List HeapCall) :
    (loggedFail disk s err stack calls).map Prod.fst = failLookup disk s err stack := by
  rw [loggedFail]
  cases failLookup disk s err stack <;> rfl

theorem loggedFinish_erase (calls : List HeapCall) :
    (loggedFinish disk mode s current stack calls).map Prod.fst = finishLookup disk mode s current stack := by
  rw [loggedFinish, finishLookup, Option.bind_eq_bind, Option.bind_eq_bind, Option.map_bind]
  refine Option.bind_congr fun node here => ?_
  simp only [Function.comp_apply]
  split_ifs
  · exact loggedFail_erase calls
  · rfl

theorem loggedCreate_erase [DecidableEq φ] (calls : List HeapCall) :
    (loggedCreate V S disk mode createFlags s p name stack grants calls).map Prod.fst =
      createLookup V S disk mode createFlags s p name stack grants := by
  rw [loggedCreate, createLookup]
  cases grants.head?.join with
  | none => exact loggedFail_erase calls
  | some grant =>
      obtain ⟨new, stale⟩ := grant
      simp only [Option.bind_eq_bind, Option.map_bind]
      refine Option.bind_congr fun parentNode here => ?_
      simp only [Function.comp_apply]
      rcases createEntry V S disk parentNode name createFlags with ⟨err | entry, disk'⟩
      · exact loggedFail_erase _
      · simp only [Option.map_bind]
        exact Option.bind_congr fun s' appended => loggedFinish_erase _

theorem loggedLookup_erase [DecidableEq φ] :
    (loggedLookup V S disk s path cwd mode createFlags kmalloc).map Prod.fst =
      vfsFindAndCreateNode V S disk s path cwd mode createFlags kmalloc := by
  rw [loggedLookup, vfsFindAndCreateNode]
  by_cases copied : kmalloc.pathcpy
  · by_cases stacked : kmalloc.searchStack
    · rw [if_neg (by simp [copied]), if_neg (by simp [stacked]), if_neg (by simp [copied, stacked])]
      rw [← loggedPath_erase [.kmalloc .pathcpy, .kmalloc .searchStack]]
      simp only [Option.bind_eq_bind, Option.map_bind, Option.bind_map]
      refine Option.bind_congr fun logged walked => ?_
      obtain ⟨walk, calls⟩ := logged
      have rest : ((loggedRest V S disk mode createFlags calls walk).bind fun x =>
          some (x.1, x.2 ++ [.kfree .searchStack, .kfree .pathcpy])).map Prod.fst =
          (loggedRest V S disk mode createFlags calls walk).map Prod.fst := by
        cases loggedRest V S disk mode createFlags calls walk <;> rfl
      refine rest.trans ?_
      cases walk with
      | arrived => exact loggedFinish_erase _
      | create => exact loggedCreate_erase _
      | nuke => exact loggedFail_erase _
      | leave => rfl
    · rw [if_neg (by simp [copied]), if_pos stacked, if_pos (.inr stacked)]
      rfl
  · rw [if_pos copied, if_pos (.inl copied)]
    rfl

end
end Kerosene.Vfs

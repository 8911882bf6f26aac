import Kerosene.Sched.Lines

/-!
# The global list of processes

The list is doubly linked and starts with the idle process. Processes join it at its end; the
deletion loop of `scheduler_switch` takes the dead ones out.
-/

namespace Kerosene.Sched
open Lib

namespace Scheduler
variable {S : Type} {s s' : Scheduler S} {idle p : Addr} {listed : List Addr} {lines : QueueId S → List Addr}

structure Registered (s : Scheduler S) (idle : Addr) (listed : List Addr) : Prop where
  linked : DoublyLinked (fun r => (s.proc r).globalNext) (fun r => (s.proc r).globalPrev) listed
  first : listed.head? = some idle
  bottom : listed.getLast? = some s.globalListBottom
  size : s.globalListSize = listed.length

theorem Registered.quiet (registered : s.Registered idle listed) (quiet : Quiet s s') :
    s'.Registered idle listed := by
  refine ⟨⟨registered.linked.forth.congr fun r _ => quiet.next r, registered.linked.back.congr fun r _ => quiet.prev r⟩,
    registered.first, ?_, ?_⟩
  · rw [quiet.bottom]
    exact registered.bottom
  · rw [quiet.size]
    exact registered.size

theorem proc_modify_ne {r : Addr} (other : r ≠ p) (s : Scheduler S) (change : Process → Process) :
    (s.modify p change).proc r = s.proc r := by
  simp [modify, other]

theorem proc_modify_self (s : Scheduler S) (p : Addr) (change : Process → Process) :
    (s.modify p change).proc p = change (s.proc p) := by
  simp [modify]

theorem Linked.fresh (linked : s.Linked lines) (free : ∀ j, p ∉ lines j) (change : Process → Process) :
    (s.modify p change).Linked lines := by
  refine ⟨fun k => ?_, linked.apart⟩
  have holds := linked.holds k
  refine ⟨holds.seg.congr fun r member => ?_, holds.bottom, holds.size⟩
  have other : r ≠ p := by
    rintro rfl
    exact free k member
  simp only [Heap.next, proc_modify_ne other]

theorem Registered.fresh (registered : s.Registered idle listed) (unlisted : p ∉ listed) (change : Process → Process) :
    (s.modify p change).Registered idle listed := by
  have same : ∀ r ∈ listed, (s.modify p change).proc r = s.proc r := by
    intro r member
    refine proc_modify_ne ?_ s change
    rintro rfl
    exact unlisted member
  exact ⟨⟨registered.linked.forth.congr fun r member => by rw [same r member],
    registered.linked.back.congr fun r member => by rw [same r member]⟩, registered.first, registered.bottom,
    registered.size⟩

/-- A function that may change the global list, but no queue and no `attached_from`. -/
structure Relists (s s' : Scheduler S) : Prop where
  queueNext : ∀ r, (s'.proc r).queueNext = (s.proc r).queueNext
  attached : ∀ r, (s'.proc r).attachedFrom = (s.proc r).attachedFrom
  id : ∀ r, (s'.proc r).id = (s.proc r).id
  queue : s'.queue = s.queue
  current : s'.currentProcess = s.currentProcess

theorem Relists.refl (s : Scheduler S) : Relists s s := ⟨fun _ => rfl, fun _ => rfl, fun _ => rfl, rfl, rfl⟩

theorem relists_modify {f : Process → Process} (queueNext : ∀ r, (f r).queueNext = r.queueNext)
    (attached : ∀ r, (f r).attachedFrom = r.attachedFrom) (id : ∀ r, (f r).id = r.id) (s : Scheduler S)
    (p : Addr) : Relists s (s.modify p f) :=
  ⟨modify_field Process.queueNext queueNext s p, modify_field Process.attachedFrom attached s p,
    modify_field Process.id id s p, rfl, rfl⟩

theorem Relists.trans {s₁ s₂ s₃ : Scheduler S} (first : Relists s₁ s₂) (second : Relists s₂ s₃) : Relists s₁ s₃ :=
  ⟨fun r => (second.queueNext r).trans (first.queueNext r), fun r => (second.attached r).trans (first.attached r),
    fun r => (second.id r).trans (first.id r), second.queue.trans first.queue, second.current.trans first.current⟩

theorem Relists.linked (relists : Relists s s') (linked : s.Linked lines) : s'.Linked lines :=
  linked.congr relists.queueNext relists.queue

theorem Registered.push (registered : s.Registered idle listed) (unlisted : p ∉ listed) :
    (s.globalListPush p).Registered idle (listed ++ [p]) ∧ Relists s (s.globalListPush p) := by
  have bottom : s.globalListBottom ∈ listed := List.mem_of_getLast? registered.bottom
  have bottomOld : s.globalListBottom ≠ p := by
    intro same
    exact unlisted (same ▸ bottom)
  have step₁ := relists_modify (f := fun r => { r with globalNext := some p }) (fun _ => rfl) (fun _ => rfl)
    (fun _ => rfl) s s.globalListBottom
  have step₂ := relists_modify (f := fun r => { r with globalPrev := some s.globalListBottom, globalNext := none })
    (fun _ => rfl) (fun _ => rfl) (fun _ => rfl) (s.modify s.globalListBottom fun r => { r with globalNext := some p }) p
  have steps := step₁.trans step₂
  refine ⟨⟨?_, ?_, by simp [globalListPush], by simp [globalListPush, modify, registered.size]⟩,
    ⟨steps.queueNext, steps.attached, steps.id, rfl, rfl⟩⟩
  · refine registered.linked.push registered.bottom ?_ ?_ ?_ (fun c member notBottom => ?_) fun c member => ?_
    · simp [globalListPush, modify, bottomOld]
    · simp [globalListPush, modify]
    · simp [globalListPush, modify]
    · have notNew : c ≠ p := by
        rintro rfl
        exact unlisted member
      simp [globalListPush, modify, notNew, notBottom]
    · have notNew : c ≠ p := by
        rintro rfl
        exact unlisted member
      by_cases isBottom : c = s.globalListBottom <;> simp [globalListPush, modify, notNew, isBottom, bottomOld]
  · rw [List.head?_append, registered.first]
    rfl

-- the part of `global_list_pop` that is about the process after the one it takes
def setPrev (t : Scheduler S) (next : Option Addr) (prev : Addr) : Scheduler S :=
  match next with
  | some n => t.modify n fun r => { r with globalPrev := some prev }
  | none => t

theorem Registered.pop (registered : s.Registered idle listed) (member : p ∈ listed) (notIdle : p ≠ idle) :
    ∃ s', s.globalListPop p = some s' ∧ s'.Registered idle (listed.erase p) ∧ Relists s s' := by
  obtain ⟨front, rest, rfl⟩ := List.append_of_mem member
  have nodup := registered.linked.forth.nodup
  have parts := List.nodup_append'.mp nodup
  obtain ⟨b, last⟩ : ∃ b, front.getLast? = some b := by
    cases front with
    | nil =>
        have := registered.first
        simp only [List.nil_append, List.head?_cons, Option.some.injEq] at this
        exact absurd this notIdle
    | cons a front => exact ⟨_, List.getLast?_eq_some_getLast (by simp)⟩
  have notFront : p ∉ front := fun early => parts.2.2 early (by simp)
  have notRest : p ∉ rest := (List.nodup_cons.mp parts.2.1).1
  have bFront : b ∈ front := List.mem_of_getLast? last
  have erased : (front ++ p :: rest).erase p = front ++ rest := by
    rw [List.erase_append_right _ notFront, List.erase_cons_head]
  have prev : (s.proc p).globalPrev = some b := by
    have back := (back_append.mp registered.linked.back).2.1
    rw [last] at back
    exact back
  have next : (s.proc p).globalNext = rest.head? := registered.linked.forth.split.2.head
  have bNotP : b ≠ p := fun same => notFront (same ▸ bFront)
  have bNotHead : ∀ c, rest.head? = some c → b ≠ c := by
    rintro c first rfl
    exact parts.2.2 bFront (List.mem_cons_of_mem p (List.mem_of_mem_head? first))
  set t := s.modify b fun r => { r with globalNext := (s.proc p).globalNext } with tDef
  have step₁ : Relists s t := by
    apply relists_modify <;> exact fun _ => rfl
  obtain ⟨u, uDef⟩ : ∃ u, u = t.setPrev (s.proc p).globalNext b := ⟨_, rfl⟩
  have step₂ : Relists t u := by
    simp only [uDef, setPrev]
    cases (s.proc p).globalNext with
    | none => exact .refl t
    | some n => apply relists_modify <;> exact fun _ => rfl
  have bottom : u.globalListBottom = s.globalListBottom ∧ u.globalListSize = s.globalListSize := by
    simp only [uDef, setPrev]
    cases (s.proc p).globalNext <;> exact ⟨rfl, rfl⟩
  have gnext : ∀ c, (u.proc c).globalNext = (t.proc c).globalNext := by
    intro c
    simp only [uDef, setPrev]
    cases (s.proc p).globalNext with
    | none => rfl
    | some n =>
        apply modify_field Process.globalNext
        exact fun _ => rfl
  have steps := step₁.trans step₂
  refine ⟨{ u with
    globalListBottom := if p = u.globalListBottom then b else u.globalListBottom,
    globalListSize := u.globalListSize - 1 }, ?_, ?_, ⟨steps.queueNext, steps.attached, steps.id, steps.queue,
      steps.current⟩⟩
  · simp only [globalListPop, prev, Option.bind_eq_bind, Option.bind_some]
    rw [uDef]
    rfl
  · rw [erased]
    refine ⟨?_, ?_, ?_, ?_⟩
    · refine registered.linked.remove rfl last ?_ (fun c first => ?_) (fun c inside notB => ?_) fun c inside notFirst => ?_
      · change (u.proc b).globalNext = _
        rw [gnext, tDef, proc_modify_self]
      · change (u.proc c).globalPrev = _
        rw [uDef, next, first]
        simp [setPrev, modify]
      · change (u.proc c).globalNext = _
        rw [gnext, tDef, proc_modify_ne notB]
      · change (u.proc c).globalPrev = _
        have kept : (t.proc c).globalPrev = (s.proc c).globalPrev := by
          apply modify_field Process.globalPrev
          exact fun _ => rfl
        rw [← kept, uDef, next]
        cases h : rest.head? with
        | none => rfl
        | some n =>
            have : c ≠ n := by
              rintro rfl
              exact notFirst h
            simp only [setPrev, proc_modify_ne this]
    · have first := registered.first
      cases front with
      | nil => cases last
      | cons a front => exact first
    · have old := registered.bottom
      rw [bottom.1]
      cases rest with
      | nil =>
          have isLast : p = s.globalListBottom := by simpa using old
          rw [if_pos isLast, List.append_nil]
          exact last
      | cons c rest =>
          have isLast : (front ++ c :: rest).getLast? = some s.globalListBottom := by
            simpa using old
          have other : p ≠ s.globalListBottom := by
            intro same
            have := List.mem_of_getLast? isLast
            rw [← same] at this
            rcases List.mem_append.mp this with h | h
            · exact notFront h
            · exact notRest h
          rw [if_neg other]
          exact isLast
    · have old := registered.size
      simp only [bottom.2, old, List.length_append, List.length_cons]
      omega

variable [DecidableEq S]

theorem deleteLoop_spec (linked : s.Linked lines) (registered : s.Registered idle listed)
    (members : ∀ r ∈ lines .delete, r ∈ listed ∧ r ≠ idle) {fuel : Nat} (enough : (lines .delete).length ≤ fuel) :
    ∃ s', deleteLoop fuel s = some (lines .delete, s') ∧ s'.Linked (Function.update lines .delete []) ∧
      s'.Registered idle (listed.filter (· ∉ lines .delete)) ∧
      (∀ r, (s'.proc r).attachedFrom = (s.proc r).attachedFrom) ∧ (∀ r, (s'.proc r).id = (s.proc r).id) ∧
      s'.currentProcess = s.currentProcess := by
  induction fuel generalizing s lines listed with
  | zero =>
      have empty : lines .delete = [] := List.length_eq_zero_iff.mp (Nat.le_zero.mp enough)
      have size := (linked.holds .delete).size
      rw [empty] at size ⊢
      refine ⟨s, by simpa [deleteLoop] using size, ?_, by simpa using registered, fun _ => rfl, fun _ => rfl, rfl⟩
      rw [← empty, Function.update_eq_self]
      exact linked
  | succ fuel ih =>
      have size := (linked.holds .delete).size
      cases line : lines .delete with
      | nil =>
          rw [line] at size
          refine ⟨s, by simp [deleteLoop, size], ?_, by simpa using registered, fun _ => rfl, fun _ => rfl, rfl⟩
          rw [← line, Function.update_eq_self]
          exact linked
      | cons p l =>
          rw [line] at size members enough
          have nodup : (p :: l).Nodup := line ▸ (linked.holds .delete).seg.nodup
          obtain ⟨t, popped, becomes⟩ := linked.popQueue line
          obtain ⟨pListed, notIdle⟩ := members p List.mem_cons_self
          obtain ⟨u, removed, rest, relists⟩ := (registered.quiet becomes.quiet).pop pListed notIdle
          have lineU : Function.update lines .delete l .delete = l := Function.update_self _ _ _
          obtain ⟨s', loop, linked', registered', attached, id, current⟩ := ih (relists.linked becomes.linked) rest
            (fun r member => by
              rw [lineU] at member
              obtain ⟨old, other⟩ := members r (List.mem_cons_of_mem p member)
              refine ⟨(List.mem_erase_of_ne ?_).mpr old, other⟩
              rintro rfl
              exact (List.nodup_cons.mp nodup).1 member)
            (by rw [lineU]; simp at enough; omega)
          rw [lineU] at loop registered'
          rw [Function.update_idem] at linked'
          refine ⟨s', ?_, linked', ?_, ?_, ?_, ?_⟩
          · have nonempty : ¬ (s.queue .delete).size = 0 := by
              rw [size]
              simp
            simp only [deleteLoop, nonempty, if_false, popped, removed, Option.bind_eq_bind, Option.bind_some, loop]
            rfl
          · rw [registered.linked.forth.nodup.erase_eq_filter, List.filter_filter] at registered'
            have same : (fun r => decide (r ∉ p :: l)) = fun r => decide (r ∉ l) && r != p := by
              funext r
              by_cases first : r = p <;> by_cases later : r ∈ l <;> simp [first, later]
            rw [same]
            exact registered'
          · intro r
            rw [attached, relists.attached, becomes.quiet.attached]
          · intro r
            rw [id, relists.id, becomes.quiet.id]
          · rw [current, relists.current, becomes.current]

end Scheduler
end Kerosene.Sched

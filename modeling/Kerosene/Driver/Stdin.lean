import Kerosene.Driver.Typing
import Kerosene.Lib.Machine

/-!
# From the keyboard to `stdin`

`kproc_stdin` waits in `kbd_wait_key` for the handler to set `latest_key_handled`, takes the key and writes its
character to the pipe. The handler has one place for a key and runs at any time, between any two of the steps of
the process: a key that comes while the process is elsewhere takes the place of the one before.
-/

namespace Kerosene.Driver
open Lib

/-- Where `kproc_stdin` is: before the wait, in it, after it, or with a copy of the key. -/
inductive Phase where
  | starts
  | waits
  | took
  | copied (key : Key)

structure Stdin where
  kbd : Keyboard
  phase : Phase
  written : List UInt8

namespace Stdin

def boot (leds : Indicators) : Stdin := ⟨Keyboard.kbdInit leds, .starts, []⟩

/-- A byte at the port, or a step of the process. -/
inductive Input where
  | interrupt (scancode : UInt8)
  | run

def run (s : Stdin) : Stdin :=
  match s.phase with
  | .starts => { s with kbd := { s.kbd with latestKeyHandled := true }, phase := .waits }
  | .waits =>
      if s.kbd.latestKeyHandled then s else { s with kbd := { s.kbd with latestKeyHandled := true }, phase := .took }
  | .took => { s with phase := .copied s.kbd.currentKey }
  | .copied key => { s with written := if key.released then s.written else s.written ++ [key.mapped], phase := .starts }

def step (layout : Layout) (s : Stdin) : Input → Option Stdin
  | .interrupt scancode => (s.kbd.interrupt layout scancode).map fun kbd => { s with kbd := kbd }
  | .run => some s.run

def bytes (inputs : List Input) : List UInt8 := inputs.filterMap fun
  | .interrupt scancode => some scancode
  | .run => none

end Stdin

namespace Keyboard

/-- The byte is the last that the handler needs for a key. -/
def ends (k : Keyboard) (scancode : UInt8) : Bool := !k.trash && scancode != kbdExtendedByte

/-- The handler tells of the key, which it does not of `Print Screen` and `Pause`. -/
def posts (k : Keyboard) (scancode : UInt8) : Bool :=
  k.ends scancode && scancode != kbdPauseScancode1st && !(k.extendedByte &&
    (scancode == kbdPrintscreenPressedScancode2nd || scancode == kbdPrintscreenReleasedScancode2nd))

/-- The keys that the bytes make, those of them that are kept. -/
def keysBy (keep : Keyboard → UInt8 → Bool) (layout : Layout) : Keyboard → List UInt8 → List Key
  | _, [] => []
  | k, b :: bytes =>
      match k.interrupt layout b with
      | none => []
      | some k' => if keep k b then k'.currentKey :: keysBy keep layout k' bytes else keysBy keep layout k' bytes

/-- The driver apart from what a process may change. -/
def forget (k : Keyboard) : Keyboard := { k with latestKeyHandled := true }

variable {layout : Layout} {k k₁ k₂ : Keyboard} {b : UInt8} {bytes : List UInt8} {keep : Keyboard → UInt8 → Bool}

theorem keysBy_concat (run : bytes.foldlM (interrupt layout) k = some k₁) (last : k₁.interrupt layout b = some k₂) :
    keysBy keep layout k (bytes ++ [b]) = keysBy keep layout k bytes ++ if keep k₁ b then [k₂.currentKey] else [] := by
  induction bytes generalizing k with
  | nil =>
      cases run
      simp only [List.nil_append, keysBy, last]
  | cons c bytes ih =>
      rw [List.foldlM_cons] at run
      obtain ⟨k', here, run⟩ := Option.bind_eq_some_iff.mp run
      rw [List.cons_append, keysBy, keysBy, here]
      simp only
      rw [ih run]
      split_ifs <;> rfl

theorem keysBy_append (run : bytes.foldlM (interrupt layout) k = some k₁) (more : List UInt8) :
    keysBy keep layout k (bytes ++ more) = keysBy keep layout k bytes ++ keysBy keep layout k₁ more := by
  induction bytes generalizing k with
  | nil =>
      cases run
      rfl
  | cons c bytes ih =>
      rw [List.foldlM_cons] at run
      obtain ⟨k', here, run⟩ := Option.bind_eq_some_iff.mp run
      rw [List.cons_append, keysBy, keysBy, here]
      simp only
      rw [ih run]
      split_ifs <;> rfl

theorem keysBy_quiet (quiet : keep k b = false) : keysBy keep layout k [b] = [] := by
  rw [keysBy]
  cases k.interrupt layout b with
  | none => rfl
  | some k' =>
      simp only
      rw [quiet, if_neg Bool.false_ne_true, keysBy]

theorem keysBy_trash (trash : k.trash = true) (left : k.interruptProgressCnt.toNat + bytes.length ≤ k.interruptLoopCnt.toNat) :
    keysBy posts layout k bytes = [] := by
  induction bytes generalizing k with
  | nil => rfl
  | cons b bytes ih =>
      have small := k.interruptLoopCnt.toNat_lt
      rw [List.length_cons] at left
      have count : (k.interruptProgressCnt + 1).toNat = k.interruptProgressCnt.toNat + 1 := by
        rw [UInt8.toNat_add]
        change (k.interruptProgressCnt.toNat + 1) % 2 ^ 8 = _
        omega
      have quiet : k.posts b = false := by rw [posts, ends, trash]; rfl
      rw [keysBy, interrupt, if_pos trash]
      simp only
      rw [quiet, if_neg Bool.false_ne_true]
      by_cases last : k.interruptProgressCnt + 1 = k.interruptLoopCnt
      · have none : bytes = [] := by
          have := congrArg UInt8.toNat last
          rw [count] at this
          exact List.eq_nil_of_length_eq_zero (by omega)
        rw [none, keysBy]
      · have counted : k.kbdTrashIntHandler = { k with interruptProgressCnt := k.interruptProgressCnt + 1 } := if_neg last
        rw [counted]
        refine ih trash ?_
        simp only [count]
        omega

theorem keysBy_frame (rest : k.Rest) {e : KeyEvent} (frame : e.Frame bytes) :
    keysBy posts layout k bytes = if e.told then [(k.effect layout e).currentKey] else [] := by
  have whole : bytes.foldlM (interrupt layout) k = some (k.effect layout e) := interrupt_frame rest frame
  have awake : ¬ k.trash = true := by rw [rest.trash]; exact Bool.false_ne_true
  have announced : k.interrupt layout kbdExtendedByte = some { k with extendedByte := true } := by
    rw [interrupt, if_neg awake, kbdHandler, if_pos rfl]
  have silent : k.posts kbdExtendedByte = false := by rw [posts, ends, bne_self_eq_false, Bool.and_false]; rfl
  cases e with
  | plain code released =>
      cases frame
      obtain ⟨notExtended, notPause⟩ := scancodeOf_ne_prefix (r := released) (by omega) (plain_codes code)
      have step : k.interrupt layout (scancodeOf code released) = some (k.effect layout (.plain code released)) := by
        simpa using whole
      have tells : k.posts (scancodeOf code released) = true := by
        rw [posts, ends, rest.trash, bne_iff_ne.mpr notExtended, bne_iff_ne.mpr notPause, rest.extendedByte]
        rfl
      rw [keysBy, step]
      simp only
      rw [tells]
      rfl
  | extended code released =>
      cases frame
      obtain ⟨code, allowed⟩ := code
      obtain ⟨notExtended, notPause⟩ := scancodeOf_ne_prefix (r := released) code.isLt (allowed_codes allowed).2
      have notPrint := scancodeOf_ne_print (r := released) code.isLt (allowed_codes allowed).1
      rw [List.foldlM_cons, announced] at whole
      have step : Keyboard.interrupt layout { k with extendedByte := true } (scancodeOf code released) =
          some (k.effect layout (.extended ⟨code, allowed⟩ released)) := by
        simpa using whole
      have tells : Keyboard.posts { k with extendedByte := true } (scancodeOf code released) = true := by
        rw [not_or] at notPrint
        simp [posts, ends, rest.trash, notExtended, notPause, notPrint]
      rw [keysBy, announced]
      simp only
      rw [silent, if_neg Bool.false_ne_true, keysBy, step]
      simp only
      rw [tells]
      rfl
  | printscreen released =>
      obtain ⟨x, y, rfl⟩ := frame
      have named : Keyboard.posts { k with extendedByte := true } (if released then kbdPrintscreenReleasedScancode2nd
          else kbdPrintscreenPressedScancode2nd) = false := by
        cases released <;> simp [posts]
      have first : keysBy posts layout k [kbdExtendedByte, if released then kbdPrintscreenReleasedScancode2nd
          else kbdPrintscreenPressedScancode2nd] = [] := by
        rw [keysBy, announced]
        simp only
        rw [silent, if_neg Bool.false_ne_true]
        exact keysBy_quiet named
      refine (keysBy_append (printscreen_starts rest released) [x, y]).trans ?_
      rw [first, keysBy_trash rfl (by simp [effect, setPressed, rest.progress])]
      rfl
  | pause =>
      obtain ⟨tail, five, rfl⟩ := frame
      have first : keysBy posts layout k [kbdPauseScancode1st] = [] :=
        keysBy_quiet (by rw [posts, bne_self_eq_false, Bool.and_false]; rfl)
      refine (keysBy_append (pause_starts rest) tail).trans ?_
      rw [first, keysBy_trash rfl (by simp [effect, rest.progress, five])]
      rfl

theorem keyEvent_forget (k : Keyboard) (layout : Layout) (kcode : UInt8) (r : Bool) :
    (k.forget.keyEvent layout kcode r) = k.keyEvent layout kcode r := by
  simp only [keyEvent, toggleLocks, setPressed, forget]
  by_cases pause : kcode = kbdKeycodePause
  · simp only [pause, ne_eq, not_true_eq_false, if_false]
    rfl
  · simp only [pause, ne_eq, not_false_eq_true, if_true]
    cases (kcode = kbdKeycodeCapslock && !r : Bool) <;> cases (kcode = kbdKeycodeScrolllock && !r : Bool) <;> rfl

theorem interrupt_cases (step : k.interrupt layout b = some k₁) :
    (k.ends b = false ∧ k₁.currentKey = k.currentKey ∧ k₁.latestKeyHandled = k.latestKeyHandled) ∨
    (k.ends b = true ∧ k.posts b = false ∧ k₁.latestKeyHandled = k.latestKeyHandled) ∨
    (k.posts b = true ∧ k.ends b = true ∧ k₁.latestKeyHandled = false) := by
  rw [interrupt] at step
  split_ifs at step with trash
  · cases step
    refine .inl ⟨by rw [ends, trash]; rfl, ?_⟩
    rw [kbdTrashIntHandler]
    split_ifs <;> exact ⟨rfl, rfl⟩
  · rw [Bool.not_eq_true] at trash
    rw [kbdHandler] at step
    by_cases extended : b = kbdExtendedByte
    · rw [if_pos extended] at step
      cases step
      exact .inl ⟨by rw [ends, trash, extended]; rfl, rfl, rfl⟩
    have ending : k.ends b = true := by rw [ends, trash, bne_iff_ne.mpr extended]; rfl
    rw [if_neg extended] at step
    by_cases pause : b = kbdPauseScancode1st
    · rw [if_pos pause] at step
      cases step
      exact .inr (.inl ⟨ending, by rw [posts, ending, pause]; rfl, rfl⟩)
    rw [if_neg pause] at step
    by_cases print : k.extendedByte = true ∧ (b = kbdPrintscreenPressedScancode2nd ∨ b = kbdPrintscreenReleasedScancode2nd)
    · rw [if_pos print] at step
      cases step
      exact .inr (.inl ⟨ending, by rcases print with ⟨on, rfl | rfl⟩ <;> simp [posts, on], rfl⟩)
    · rw [if_neg print] at step
      obtain ⟨kcode, -, made⟩ := Option.bind_eq_some_iff.mp step
      cases made
      refine .inr (.inr ⟨?_, ending, by rw [keyEvent_eq]⟩)
      rw [posts, ending, bne_iff_ne.mpr pause]
      cases on : k.extendedByte with
      | false => rfl
      | true => simpa [on] using print

theorem interrupt_forget (layout : Layout) (k : Keyboard) (b : UInt8) :
    (k.forget.interrupt layout b).map forget = (k.interrupt layout b).map forget := by
  have handler : (k.forget.kbdHandler layout b).map forget = (k.kbdHandler layout b).map forget := by
    have same : k.forget.extendedByte = k.extendedByte := rfl
    rw [kbdHandler, kbdHandler, same]
    simp only [keyEvent_forget]
    split_ifs <;> rfl
  have same : k.forget.trash = k.trash := rfl
  rw [interrupt, interrupt, same]
  split_ifs
  · by_cases last : k.interruptProgressCnt + 1 = k.interruptLoopCnt
    · have ended : k.kbdTrashIntHandler = { k with interruptProgressCnt := 0, trash := false } := if_pos last
      have ended' : k.forget.kbdTrashIntHandler = { k.forget with interruptProgressCnt := 0, trash := false } := if_pos last
      rw [ended, ended']
      rfl
    · have counted : k.kbdTrashIntHandler = { k with interruptProgressCnt := k.interruptProgressCnt + 1 } := if_neg last
      have counted' : k.forget.kbdTrashIntHandler = { k.forget with interruptProgressCnt := k.interruptProgressCnt + 1 } :=
        if_neg last
      rw [counted, counted']
      rfl
  · exact handler

theorem interrupt_alike (alike : k.forget = k₁.forget) (step : k.interrupt layout b = some k₂) :
    ∃ k₃, k₁.interrupt layout b = some k₃ ∧ k₂.forget = k₃.forget := by
  have same := interrupt_forget layout k b
  rw [alike, interrupt_forget, step] at same
  obtain ⟨k₃, here, kept⟩ := Option.map_eq_some_iff.mp same
  exact ⟨k₃, here, kept.symm⟩

end Keyboard

namespace Stdin
variable {layout : Layout} {leds : Indicators} {s t : Stdin} {inputs : List Input}

/-- Any interleaving of the bytes with the steps of the process. -/
def machine (layout : Layout) : Machine Stdin Input where
  Legal _ _ := True
  step := step layout

/-- A key is finished only while the process waits and no key is there. -/
def unhurried (layout : Layout) : Machine Stdin Input where
  Legal s
    | .interrupt b => s.kbd.ends b = true → s.phase = .waits ∧ s.kbd.latestKeyHandled = true
    | .run => True
  step := step layout

def chars (keys : List Key) : List UInt8 := (keys.filter fun key => !key.released).map Key.mapped

theorem chars_append (keys more : List Key) : chars (keys ++ more) = chars keys ++ chars more := by
  rw [chars, List.filter_append, List.map_append]
  rfl

theorem chars_sublist {keys more : List Key} (less : List.Sublist keys more) : List.Sublist (chars keys) (chars more) :=
  (less.filter _).map _

/-- The keyboard as it were without a reader. -/
structure Watched (layout : Layout) (leds : Indicators) (s : Stdin) (inputs : List Input) (alone : Keyboard) : Prop where
  run : (bytes inputs).foldlM (Keyboard.interrupt layout) (Keyboard.kbdInit leds) = some alone
  alike : alone.forget = s.kbd.forget

theorem bytes_concat_run (inputs : List Input) : bytes (inputs ++ [.run]) = bytes inputs := by
  rw [bytes, List.filterMap_append]
  exact List.append_nil _

theorem bytes_concat_interrupt (inputs : List Input) (b : UInt8) :
    bytes (inputs ++ [.interrupt b]) = bytes inputs ++ [b] := by
  rw [bytes, List.filterMap_append]
  rfl

theorem Watched.start : Watched layout leds (boot leds) [] (Keyboard.kbdInit leds) := ⟨rfl, rfl⟩

theorem forget_run (s : Stdin) : s.run.kbd.forget = s.kbd.forget := by
  rw [run]
  cases s.phase with
  | waits =>
      simp only
      split_ifs <;> rfl
  | starts | took | copied => rfl

theorem Watched.ran {alone : Keyboard} (watched : Watched layout leds s inputs alone) :
    Watched layout leds s.run (inputs ++ [.run]) alone :=
  ⟨by rw [bytes_concat_run]; exact watched.run, watched.alike.trans (forget_run s).symm⟩

theorem Watched.interrupted {alone kbd : Keyboard} {b : UInt8} (watched : Watched layout leds s inputs alone)
    (step : s.kbd.interrupt layout b = some kbd) :
    ∃ alone', Watched layout leds { s with kbd := kbd } (inputs ++ [.interrupt b]) alone' ∧ ∀ keep : Keyboard → UInt8 → Bool,
      (∀ k b, keep k.forget b = keep k b) →
        Keyboard.keysBy keep layout (Keyboard.kbdInit leds) (bytes (inputs ++ [.interrupt b])) =
          Keyboard.keysBy keep layout (Keyboard.kbdInit leds) (bytes inputs) ++ if keep s.kbd b then [kbd.currentKey] else [] := by
  obtain ⟨alone', step', alike⟩ := Keyboard.interrupt_alike watched.alike.symm step
  refine ⟨alone', ⟨?_, alike.symm⟩, fun keep blind => ?_⟩
  · rw [bytes_concat_interrupt, List.foldlM_append, watched.run]
    simp [step']
  · have key : alone'.forget.currentKey = kbd.forget.currentKey := congrArg Keyboard.currentKey alike.symm
    change alone'.currentKey = kbd.currentKey at key
    rw [bytes_concat_interrupt, Keyboard.keysBy_concat watched.run step', ← blind, watched.alike, blind, key]

/-! ## In order, and none twice -/

/-- What is written, and what will be with the key that the process has taken, are keys in their order. -/
def InOrder (typed : List Key) (s : Stdin) : Prop :=
  match s.phase with
  | .starts => List.Sublist s.written (chars typed)
  | .waits => List.Sublist s.written (chars typed) ∧ (s.kbd.latestKeyHandled = false →
      ∃ rest, typed = rest ++ [s.kbd.currentKey] ∧ List.Sublist s.written (chars rest))
  | .took => ∃ rest, typed = rest ++ [s.kbd.currentKey] ∧ List.Sublist s.written (chars rest)
  | .copied key => List.Sublist (s.written ++ chars [key]) (chars typed)

theorem InOrder.written {typed : List Key} (order : InOrder typed s) : List.Sublist s.written (chars typed) := by
  rw [InOrder] at order
  cases phase : s.phase with
  | starts =>
      rw [phase] at order
      exact order
  | waits =>
      rw [phase] at order
      exact order.1
  | took =>
      rw [phase] at order
      obtain ⟨rest, rfl, order⟩ := order
      exact order.trans (chars_sublist (List.sublist_append_left rest _))
  | copied key =>
      rw [phase] at order
      exact (List.sublist_append_left _ _).trans order

theorem InOrder.ran {typed : List Key} (order : InOrder typed s) : InOrder typed s.run := by
  have all := order.written
  rw [InOrder] at order
  rw [run]
  cases phase : s.phase with
  | starts => exact ⟨all, by rintro ⟨⟩⟩
  | waits =>
      rw [phase] at order
      cases handled : s.kbd.latestKeyHandled with
      | true =>
          rw [if_pos rfl, InOrder, phase]
          exact order
      | false => exact order.2 handled
  | took =>
      rw [phase] at order
      obtain ⟨rest, rfl, order⟩ := order
      change List.Sublist _ _
      rw [chars_append]
      exact order.append_right _
  | copied key =>
      rw [phase] at order
      change List.Sublist (if key.released = true then s.written else s.written ++ [key.mapped]) _
      split_ifs with released
      · exact all
      · have last : chars [key] = [key.mapped] := by
          rw [chars, List.filter_cons_of_pos (by simpa using released)]
          rfl
        change List.Sublist (s.written ++ chars [key]) _ at order
        rwa [last] at order

theorem InOrder.interrupted {typed : List Key} {kbd : Keyboard} {b : UInt8} (order : InOrder typed s)
    (step : s.kbd.interrupt layout b = some kbd) :
    InOrder (typed ++ if s.kbd.ends b then [kbd.currentKey] else []) { s with kbd := kbd } := by
  have all := order.written
  rcases Keyboard.interrupt_cases step with ⟨inert, key, handled⟩ | ended
  · rw [inert, if_neg Bool.false_ne_true, List.append_nil, InOrder]
    rw [InOrder] at order
    cases phase : s.phase <;> rw [phase] at order <;> simp only [key, handled] <;> exact order
  · have ends : s.kbd.ends b = true := ended.elim (fun e => e.1) fun e => e.2.1
    have more : List.Sublist (chars typed) (chars (typed ++ [kbd.currentKey])) :=
      chars_sublist (List.sublist_append_left typed _)
    rw [ends, if_pos rfl, InOrder]
    rw [InOrder] at order
    cases phase : s.phase with
    | starts => exact all.trans more
    | waits => exact ⟨all.trans more, fun _ => ⟨typed, rfl, all⟩⟩
    | took => exact ⟨typed, rfl, all⟩
    | copied key =>
        rw [phase] at order
        exact order.trans more

theorem watched_of_runs {M : Machine Stdin Input} (same : M.step = step layout) (runs : M.Runs (boot leds) inputs s) :
    ∃ alone, Watched layout leds s inputs alone := by
  induction runs with
  | start => exact ⟨_, .start⟩
  | @snoc inputs s t input _ _ done ih =>
      obtain ⟨alone, watched⟩ := ih
      rw [same] at done
      cases input with
      | run =>
          cases done
          exact ⟨alone, watched.ran⟩
      | interrupt b =>
          obtain ⟨kbd, made, rfl⟩ := Option.map_eq_some_iff.mp done
          obtain ⟨alone', watched', -⟩ := watched.interrupted made
          exact ⟨alone', watched'⟩

theorem inOrder_of_runs (runs : (machine layout).Runs (boot leds) inputs s) :
    InOrder (Keyboard.keysBy Keyboard.ends layout (Keyboard.kbdInit leds) (bytes inputs)) s := by
  induction runs with
  | start => exact List.nil_sublist _
  | @snoc inputs s t input runs _ done ih =>
      obtain ⟨alone, watched⟩ := watched_of_runs rfl runs
      cases input with
      | run =>
          cases done
          rw [bytes_concat_run]
          exact ih.ran
      | interrupt b =>
          obtain ⟨kbd, made, rfl⟩ := Option.map_eq_some_iff.mp done
          obtain ⟨-, -, keys⟩ := watched.interrupted made
          rw [keys _ fun _ _ => rfl]
          exact ih.interrupted made

/-- However the interrupts fall between the steps of the process, it writes characters of keys that were pressed, in
the order of the keys, and for no key twice. -/
theorem stdin_in_order (runs : (machine layout).Runs (boot leds) inputs s) :
    List.Sublist s.written (chars (Keyboard.keysBy Keyboard.ends layout (Keyboard.kbdInit leds) (bytes inputs))) :=
  (inOrder_of_runs runs).written

/-- A second key comes before the first is copied, and only the second is written. -/
theorem stdin_in_order_overtaken : ∃ s,
    (machine setKeyboardLayoutUS).Runs (boot Keyboard.slow) [.run, .interrupt 0x1e, .run, .interrupt 0x30, .run, .run] s ∧
      s.written = [0x62] ∧
      List.Sublist s.written
        (chars (Keyboard.keysBy Keyboard.ends setKeyboardLayoutUS (Keyboard.kbdInit Keyboard.slow) [0x1e, 0x30])) := by
  have runs : (machine setKeyboardLayoutUS).Runs (boot Keyboard.slow) [.run, .interrupt 0x1e, .run, .interrupt 0x30, .run, .run] _ :=
    (((((Machine.Runs.start.snoc trivial rfl).snoc trivial rfl).snoc trivial rfl).snoc trivial rfl).snoc trivial rfl).snoc
      trivial rfl
  exact ⟨_, runs, by decide +kernel, stdin_in_order runs⟩

/-! ## Nothing lost -/

/-- All that is told of is written, but for the key on its way. -/
def UpToDate (posted : List Key) (s : Stdin) : Prop :=
  match s.phase with
  | .starts => s.written = chars posted
  | .waits => if s.kbd.latestKeyHandled then s.written = chars posted
      else ∃ rest, posted = rest ++ [s.kbd.currentKey] ∧ s.written = chars rest
  | .took => ∃ rest, posted = rest ++ [s.kbd.currentKey] ∧ s.written = chars rest
  | .copied key => ∃ rest, posted = rest ++ [key] ∧ s.written = chars rest

theorem UpToDate.ran {posted : List Key} (upToDate : UpToDate posted s) : UpToDate posted s.run := by
  rw [UpToDate] at upToDate
  rw [run]
  cases phase : s.phase with
  | starts =>
      rw [phase] at upToDate
      exact upToDate
  | waits =>
      rw [phase] at upToDate
      simp only at upToDate
      cases handled : s.kbd.latestKeyHandled with
      | true =>
          rw [handled, if_pos rfl] at upToDate
          rw [if_pos rfl, UpToDate, phase]
          simp only
          rw [handled, if_pos rfl]
          exact upToDate
      | false =>
          rw [handled, if_neg Bool.false_ne_true] at upToDate
          exact upToDate
  | took =>
      rw [phase] at upToDate
      exact upToDate
  | copied key =>
      rw [phase] at upToDate
      obtain ⟨rest, rfl, all⟩ := upToDate
      change (if key.released = true then s.written else s.written ++ [key.mapped]) = _
      rw [chars_append, all, chars, chars]
      split_ifs with released
      · rw [List.filter_cons_of_neg (by simpa using released)]
        exact (List.append_nil _).symm
      · rw [List.filter_cons_of_pos (by simpa using released)]
        rfl

theorem UpToDate.interrupted {posted : List Key} {kbd : Keyboard} {b : UInt8} (upToDate : UpToDate posted s)
    (unhurried : s.kbd.ends b = true → s.phase = .waits ∧ s.kbd.latestKeyHandled = true)
    (step : s.kbd.interrupt layout b = some kbd) :
    UpToDate (posted ++ if s.kbd.posts b then [kbd.currentKey] else []) { s with kbd := kbd } := by
  rw [UpToDate] at upToDate ⊢
  rcases Keyboard.interrupt_cases step with ⟨inert, key, handled⟩ | ⟨ends, quiet, handled⟩ | ⟨posts, ends, handled⟩
  · have quiet : s.kbd.posts b = false := by rw [Keyboard.posts, inert]; rfl
    rw [quiet, if_neg Bool.false_ne_true, List.append_nil]
    cases phase : s.phase <;> rw [phase] at upToDate <;> simp only [key, handled] <;> exact upToDate
  · obtain ⟨phase, before⟩ := unhurried ends
    rw [quiet, if_neg Bool.false_ne_true, List.append_nil]
    rw [phase] at upToDate
    simp only [phase, handled, before, if_true] at upToDate ⊢
    exact upToDate
  · obtain ⟨phase, before⟩ := unhurried ends
    rw [posts, if_pos rfl]
    rw [phase] at upToDate
    simp only [phase, handled, before, if_true] at upToDate ⊢
    rw [if_neg Bool.false_ne_true]
    exact ⟨posted, rfl, upToDate⟩

theorem upToDate_of_runs (runs : (unhurried layout).Runs (boot leds) inputs s) :
    UpToDate (Keyboard.keysBy Keyboard.posts layout (Keyboard.kbdInit leds) (bytes inputs)) s := by
  induction runs with
  | start => rfl
  | @snoc inputs s t input runs legal done ih =>
      obtain ⟨alone, watched⟩ := watched_of_runs rfl runs
      cases input with
      | run =>
          cases done
          rw [bytes_concat_run]
          exact ih.ran
      | interrupt b =>
          obtain ⟨kbd, made, rfl⟩ := Option.map_eq_some_iff.mp done
          obtain ⟨-, -, keys⟩ := watched.interrupted made
          rw [keys _ fun _ _ => rfl]
          exact ih.interrupted legal made

/-- The characters of the keys that go down, each as the keys before it make it. -/
def textOf (layout : Layout) (before : List KeyEvent) : List KeyEvent → List UInt8
  | [] => []
  | e :: events =>
      (if e.told then chars [e.key layout (before ++ [e])] else []) ++ textOf layout (before ++ [e]) events

theorem chars_keysBy {events : List KeyEvent} {frames : List (List UInt8)} (cased : layout.Cased) (before : List KeyEvent)
    (framed : List.Forall₂ KeyEvent.Frame events frames) :
    chars (Keyboard.keysBy Keyboard.posts layout (before.foldl (Keyboard.effect layout) (Keyboard.kbdInit leds)) frames.flatten) =
      textOf layout before events := by
  induction framed generalizing before with
  | nil => rfl
  | @cons e f events frames frame _ ih =>
      have rest := (Keyboard.framing layout).atRest (Keyboard.rest_kbdInit leds) before
      have key := Keyboard.currentKey_after leds cased before e
      have next : (before ++ [e]).foldl (Keyboard.effect layout) (Keyboard.kbdInit leds) =
          (before.foldl (Keyboard.effect layout) (Keyboard.kbdInit leds)).effect layout e := by
        rw [List.foldl_append]
        rfl
      rw [List.flatten_cons, Keyboard.keysBy_append (Keyboard.interrupt_frame rest frame), Keyboard.keysBy_frame rest frame,
        chars_append, ← next, ih, key, textOf]
      split_ifs <;> rfl

/-- Where each key comes while the process waits for it, what was typed is in the pipe when the process waits again:
no key is lost, but for `Print Screen` and `Pause`. -/
theorem stdin_complete {events : List KeyEvent} {frames : List (List UInt8)}
    (framed : List.Forall₂ KeyEvent.Frame events frames) (all : bytes inputs = frames.flatten)
    (runs : (unhurried setKeyboardLayoutUS).Runs (boot leds) inputs s) (waits : s.phase = .waits)
    (empty : s.kbd.latestKeyHandled = true) : s.written = textOf setKeyboardLayoutUS [] events := by
  have upToDate := upToDate_of_runs runs
  rw [UpToDate, waits] at upToDate
  simp only at upToDate
  rw [empty, if_pos rfl, all] at upToDate
  rw [upToDate]
  exact chars_keysBy Layout.setKeyboardLayoutUS_cased [] framed

/-- `a` goes down, and comes up. -/
theorem stdin_complete_letter : ∃ s, (unhurried setKeyboardLayoutUS).Runs (boot Keyboard.slow)
    [.run, .interrupt 0x1e, .run, .run, .run, .run] s ∧ s.written = textOf setKeyboardLayoutUS [] [.plain 30 false] ∧
      s.written = [0x61] := by
  have runs : (unhurried setKeyboardLayoutUS).Runs (boot Keyboard.slow) [.run, .interrupt 0x1e, .run, .run, .run, .run] _ :=
    (((((Machine.Runs.start.snoc trivial rfl).snoc (fun _ => ⟨rfl, rfl⟩) rfl).snoc trivial rfl).snoc trivial rfl).snoc trivial
      rfl).snoc trivial rfl
  have framed : List.Forall₂ KeyEvent.Frame [.plain 30 false] [[0x1e]] := .cons rfl .nil
  exact ⟨_, runs, stdin_complete framed rfl runs rfl rfl, by decide +kernel⟩

end Stdin
end Kerosene.Driver

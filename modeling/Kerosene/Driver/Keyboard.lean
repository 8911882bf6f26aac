import Kerosene.Lib.Frames
import Mathlib.Data.Nat.Bitwise

/-!
# The keyboard driver

`kbd_handler` takes one byte of scancode set 1 at each interrupt, follows the keys that are held and the locks,
and maps the key to a character. A key that is not in a table has keycode 0, which is Escape's; the byte of
`Print Screen` and of `Pause` are recognised by their first bytes, and the rest of their sequence goes to
`kbd_trash_int_handler`, which counts bytes without a look at them.
-/

namespace Kerosene.Driver
open Lib

def kbdExtendedByte : UInt8 := 0xe0
def kbdPrintscreenPressedScancode2nd : UInt8 := 0x2a
def kbdPrintscreenReleasedScancode2nd : UInt8 := 0xb7
def kbdPauseScancode1st : UInt8 := 0xe1

def kbdKeycodeCapslock : UInt8 := 0x30
def kbdKeycodeLshift : UInt8 := 0x40
def kbdKeycodeRshift : UInt8 := 0x4b
def kbdKeycodePrintscreen : UInt8 := 0x60
def kbdKeycodeScrolllock : UInt8 := 0x61
def kbdKeycodePause : UInt8 := 0x62

-- row `i` of a table is the scancodes `16 * i` to `16 * i + 15`
def keycode : List UInt8 := [
  0x00, 0x00, 0x11, 0x12, 0x13, 0x14, 0x15, 0x16, 0x17, 0x18, 0x19, 0x1a, 0x1b, 0x1c, 0x1d, 0x20,
  0x21, 0x22, 0x23, 0x24, 0x25, 0x26, 0x27, 0x28, 0x29, 0x2a, 0x2b, 0x2c, 0x3c, 0x50, 0x31, 0x32,
  0x33, 0x34, 0x35, 0x36, 0x37, 0x38, 0x39, 0x3a, 0x3b, 0x10, 0x40, 0x2d, 0x41, 0x42, 0x43, 0x44,
  0x45, 0x46, 0x47, 0x48, 0x49, 0x4a, 0x4b, 0x00, 0x52, 0x53, 0x30, 0x01, 0x02, 0x03, 0x04, 0x05,
  0x06, 0x07, 0x08, 0x09, 0x0a, 0x00, 0x61, 0x00, 0x00, 0x00, 0x00, 0x00, 0x00, 0x00, 0x00, 0x00,
  0x00, 0x00, 0x00, 0x00, 0x00, 0x00, 0x00, 0x0b, 0x0c]

def keycodeExtendedByte : List UInt8 := [
  0x00, 0x00, 0x00, 0x00, 0x00, 0x00, 0x00, 0x00, 0x00, 0x00, 0x00, 0x00, 0x00, 0x00, 0x00, 0x00,
  0x00, 0x00, 0x00, 0x00, 0x00, 0x00, 0x00, 0x00, 0x00, 0x00, 0x00, 0x00, 0x00, 0x57, 0x00, 0x00,
  0x00, 0x00, 0x00, 0x00, 0x00, 0x00, 0x00, 0x00, 0x00, 0x00, 0x00, 0x00, 0x00, 0x00, 0x00, 0x00,
  0x00, 0x00, 0x00, 0x00, 0x00, 0x00, 0x00, 0x00, 0x54, 0x00, 0x00, 0x00, 0x00, 0x00, 0x00, 0x00,
  0x00, 0x00, 0x00, 0x00, 0x00, 0x00, 0x00, 0x64, 0x70, 0x65, 0x00, 0x71, 0x00, 0x73, 0x00, 0x67,
  0x72, 0x68, 0x63, 0x66, 0x00, 0x00, 0x00, 0x00, 0x00, 0x00, 0x00, 0x51, 0x55, 0x56, 0x00, 0x00,
  0x00, 0x00, 0x00, 0x00, 0x00, 0x00, 0x00, 0x00, 0x00, 0x00, 0x00, 0x00, 0x00, 0x00, 0x60, 0x62]

/-! ## The layout -/

structure Layout where
  keymap : UInt8 → UInt8
  keymapShift : UInt8 → UInt8

-- the row of a keycode, its first column that has a character, and the characters from there on
def rowOf (rows : List (UInt8 × UInt8 × String)) (kcode : UInt8) : UInt8 :=
  match rows.find? fun row => row.1 = kcode >>> 4 with
  | some (_, first, text) => if kcode &&& 0xf < first then 0 else text.toUTF8.toList.getD ((kcode &&& 0xf) - first).toNat 0
  | none => 0

def setKeyboardLayoutUS : Layout where
  keymap := rowOf [(1, 0, "`1234567890-=\x08"), (2, 0, "\tqwertyuiop[]\\"), (3, 1, "asdfghjkl;'\n"), (4, 1, "zxcvbnm,./"),
    (5, 3, " ")]
  keymapShift := rowOf [(1, 0, "~!@#$%^&*()_+"), (2, 1, "QWERTYUIOP\x7b\x7d|"), (3, 1, "ASDFGHJKL:\""), (4, 1, "ZXCVBNM<>?")]

def Layout.mapKey (layout : Layout) (kcode : UInt8) (shift : Bool) : UInt8 :=
  if !shift then layout.keymap kcode else layout.keymapShift kcode

/-! ## The handler -/

structure Key where
  keycode : UInt8
  mapped : UInt8
  released : Bool
  deriving DecidableEq

/-- The indicators of the keyboard. Of the commands to come it acknowledges some, and wants the others sent again. -/
structure Indicators where
  shown : UInt8
  acks : Nat → Bool

def Indicators.set (bits : UInt8) : Nat → Indicators → Indicators
  | 0, leds => leds
  | tries + 1, leds =>
      if leds.acks 0 then ⟨bits, fun i => leds.acks (i + 1)⟩ else set bits tries ⟨leds.shown, fun i => leds.acks (i + 1)⟩

/-- Of three commands one after the other, one is acknowledged. -/
def Indicators.Answers (leds : Indicators) : Prop := ∀ i, ∃ j < 3, leds.acks (i + j)

structure Keyboard where
  keyPressed : UInt8 → Bool
  capslockOn : Bool
  scrolllockOn : Bool
  numlockOn : Bool
  leds : Indicators
  currentKey : Key
  latestKeyHandled : Bool
  extendedByte : Bool
  -- `kbd_trash_int_handler` is installed in place of `kbd_handler`
  trash : Bool
  interruptProgressCnt : UInt8
  interruptLoopCnt : UInt8

namespace Keyboard

def ledBits (scroll num caps : Bool) : UInt8 := (scroll.toUInt8 ||| num.toUInt8 <<< 1) ||| caps.toUInt8 <<< 2

def kbdInit (leds : Indicators) : Keyboard where
  keyPressed _ := false
  capslockOn := false
  scrolllockOn := false
  numlockOn := false
  leds := leds.set (ledBits false false false) 3
  currentKey := ⟨0, 0, false⟩
  latestKeyHandled := true
  extendedByte := false
  trash := false
  interruptProgressCnt := 0
  interruptLoopCnt := 0

def kbdSetLed (k : Keyboard) : Keyboard := { k with leds := k.leds.set (ledBits k.scrolllockOn k.numlockOn k.capslockOn) 3 }

def kbdIsKeyPressed (k : Keyboard) (kcode : UInt8) : Bool := k.keyPressed kcode

def setPressed (k : Keyboard) (kcode : UInt8) (pressed : Bool) : Keyboard :=
  { k with keyPressed := Function.update k.keyPressed kcode pressed }

def shift (k : Keyboard) : Bool := k.keyPressed kbdKeycodeLshift || k.keyPressed kbdKeycodeRshift

def isLower (c : UInt8) : Bool := 0x61 ≤ c ∧ c ≤ 0x7a

def mapped (k : Keyboard) (layout : Layout) (kcode : UInt8) : UInt8 :=
  let mapped := layout.mapKey kcode false
  let mapped :=
    if k.shift then
      if !isLower mapped then layout.mapKey kcode true
      else if !k.capslockOn then layout.mapKey kcode true
      else mapped
    else mapped
  -- capslock alone
  if k.capslockOn && isLower mapped && !k.keyPressed kbdKeycodeLshift && !k.keyPressed kbdKeycodeRshift then mapped - 32
  else mapped

def toggleLocks (k : Keyboard) (kcode : UInt8) (released : Bool) : Keyboard :=
  let caps := kcode = kbdKeycodeCapslock && !released
  let scroll := kcode = kbdKeycodeScrolllock && !released
  let k := if caps then { k with capslockOn := !k.capslockOn } else k
  let k := if scroll then { k with scrolllockOn := !k.scrolllockOn } else k
  if caps || scroll then k.kbdSetLed else k

/-- What `kbd_handler` does once it knows the keycode. -/
def keyEvent (k : Keyboard) (layout : Layout) (kcode : UInt8) (released : Bool) : Keyboard :=
  -- nothing tells that `Pause` is let go
  let k := if kcode ≠ kbdKeycodePause then k.setPressed kcode (!released) else k
  let k := k.toggleLocks kcode released
  { k with currentKey := ⟨kcode, k.mapped layout kcode, released⟩, latestKeyHandled := false, extendedByte := false }

/-- `none` where the scancode is not in the table, which the source reads all the same. -/
def kbdHandler (layout : Layout) (k : Keyboard) (scancode : UInt8) : Option Keyboard :=
  if scancode = kbdExtendedByte then some { k with extendedByte := true }
  else if scancode = kbdPauseScancode1st then
    some { k with
      interruptLoopCnt := 5
      trash := true
      currentKey := ⟨keycodeExtendedByte.getD 0x6f 0, 0, false⟩
      extendedByte := false }
  else if k.extendedByte ∧ (scancode = kbdPrintscreenPressedScancode2nd ∨ scancode = kbdPrintscreenReleasedScancode2nd) then
    some { k.setPressed 0x6e (scancode = kbdPrintscreenPressedScancode2nd) with
      interruptLoopCnt := 2
      trash := true
      currentKey := ⟨keycodeExtendedByte.getD 0x6e 0, 0, scancode = kbdPrintscreenReleasedScancode2nd⟩
      extendedByte := false }
  else do
    let released := scancode &&& 0x80 = 0x80
    let scancode := scancode - 0x80 * (decide released).toUInt8
    let kcode ← (if k.extendedByte then keycodeExtendedByte else keycode)[scancode.toNat]?
    return k.keyEvent layout kcode released

def kbdTrashIntHandler (k : Keyboard) : Keyboard :=
  let k := { k with interruptProgressCnt := k.interruptProgressCnt + 1 }
  if k.interruptProgressCnt = k.interruptLoopCnt then { k with interruptProgressCnt := 0, trash := false } else k

/-- The interrupt of the keyboard. -/
def interrupt (layout : Layout) (k : Keyboard) (scancode : UInt8) : Option Keyboard :=
  if k.trash then some k.kbdTrashIntHandler else k.kbdHandler layout scancode

/-! ## Keys as the keyboard announces them -/

def scancodeOf (code : Nat) (released : Bool) : UInt8 := UInt8.ofNat (if released then code + 128 else code)

end Keyboard

/-- A key goes down or up. The codes left out are those whose second byte the driver takes for another prefix. -/
inductive KeyEvent where
  | plain (code : Fin 89) (released : Bool)
  | extended (code : { c : Fin 112 // c ∉ [0x2a, 0x37, 0x60, 0x61] }) (released : Bool)
  | printscreen (released : Bool)
  | pause

namespace KeyEvent

def Frame : KeyEvent → List UInt8 → Prop
  | plain code released, bytes => bytes = [Keyboard.scancodeOf code released]
  | extended code released, bytes => bytes = [kbdExtendedByte, Keyboard.scancodeOf code.1 released]
  | printscreen released, bytes => ∃ x y,
      bytes = [kbdExtendedByte, if released then kbdPrintscreenReleasedScancode2nd else kbdPrintscreenPressedScancode2nd, x, y]
  | pause, bytes => ∃ rest, rest.length = 5 ∧ bytes = kbdPauseScancode1st :: rest

def keycode : KeyEvent → UInt8
  | plain code _ => Driver.keycode.get code
  | extended code _ => keycodeExtendedByte.get code.1
  | printscreen _ => kbdKeycodePrintscreen
  | pause => kbdKeycodePause

def released : KeyEvent → Bool
  | plain _ released | extended _ released | printscreen released => released
  | pause => false

end KeyEvent

/-! ## The indicators -/

namespace Indicators.Answers
variable {leds : Indicators}

theorem next (answers : leds.Answers) (shown : UInt8) : Answers ⟨shown, fun i => leds.acks (i + 1)⟩ := by
  intro i
  obtain ⟨j, three, ack⟩ := answers (i + 1)
  refine ⟨j, three, ?_⟩
  change leds.acks (i + j + 1) = true
  rwa [Nat.add_right_comm]

theorem set (answers : leds.Answers) (bits : UInt8) (tries : Nat) : (leds.set bits tries).Answers := by
  induction tries generalizing leds with
  | zero => exact answers
  | succ tries ih =>
      rw [Indicators.set]
      split_ifs
      · exact answers.next _
      · exact ih (answers.next _)

end Indicators.Answers

theorem Indicators.shown_set {tries : Nat} {leds : Indicators} (ack : ∃ j < tries, leds.acks j) (bits : UInt8) :
    (leds.set bits tries).shown = bits := by
  induction tries generalizing leds with
  | zero => exact absurd ack (by simp)
  | succ tries ih =>
      rw [set]
      split_ifs with first
      · rfl
      · obtain ⟨j, small, here⟩ := ack
        obtain ⟨j, rfl⟩ := Nat.exists_eq_succ_of_ne_zero (fun zero => first (zero ▸ here) : j ≠ 0)
        exact ih ⟨j, Nat.lt_of_succ_lt_succ small, here⟩

theorem Indicators.Answers.shown {leds : Indicators} (answers : leds.Answers) (bits : UInt8) : (leds.set bits 3).shown = bits := by
  obtain ⟨j, small, ack⟩ := answers 0
  exact shown_set ⟨j, small, by rwa [Nat.zero_add] at ack⟩ bits

namespace Keyboard
variable {layout : Layout} {k : Keyboard} {code : Nat} {r : Bool}

def effect (layout : Layout) (k : Keyboard) : KeyEvent → Keyboard
  | .printscreen released => { k.setPressed 0x6e (!released) with
      interruptLoopCnt := 2
      currentKey := ⟨kbdKeycodePrintscreen, 0, released⟩ }
  | .pause => { k with interruptLoopCnt := 5, currentKey := ⟨kbdKeycodePause, 0, false⟩ }
  | e => k.keyEvent layout e.keycode e.released

/-- Between two keys. -/
structure Rest (k : Keyboard) : Prop where
  extendedByte : k.extendedByte = false
  trash : k.trash = false
  progress : k.interruptProgressCnt = 0

theorem and_0x80 (b : UInt8) : b &&& 0x80 = 0x80 ↔ 128 ≤ b.toNat := by
  have small := b.toNat_lt
  have high : (0x80 : UInt8).toNat = 2 ^ 7 := rfl
  rw [← UInt8.toNat_inj, UInt8.toNat_and, high, Nat.and_two_pow, Nat.testBit_eq_decide_div_mod_eq]
  by_cases odd : b.toNat / 2 ^ 7 % 2 = 1
  · rw [decide_eq_true odd, Bool.toNat_true]
    omega
  · rw [decide_eq_false odd, Bool.toNat_false]
    omega

theorem toNat_scancodeOf (small : code < 112) : (scancodeOf code r).toNat = if r then code + 128 else code := by
  rw [scancodeOf, UInt8.toNat_ofNat']
  split_ifs <;> omega

theorem scancode_released (small : code < 112) : (decide (scancodeOf code r &&& 0x80 = 0x80)) = r := by
  rw [Bool.eq_iff_iff, decide_eq_true_iff, and_0x80, toNat_scancodeOf small]
  cases r with
  | false => simpa using small.trans (by decide : 112 < 128)
  | true => simp

theorem scancode_code (small : code < 112) : (scancodeOf code r - 0x80 * r.toUInt8).toNat = code := by
  have byte := toNat_scancodeOf (r := r) small
  cases r with
  | false =>
      rw [UInt8.toNat_sub, byte]
      change (2 ^ 8 - 0 + code) % 2 ^ 8 = code
      omega
  | true =>
      rw [UInt8.toNat_sub, byte]
      change (2 ^ 8 - 128 + (code + 128)) % 2 ^ 8 = code
      omega

-- a byte with the value of a prefix would be one of the codes left out
theorem scancodeOf_ne_prefix (small : code < 112) (allowed : code ∉ [0x60, 0x61]) :
    scancodeOf code r ≠ kbdExtendedByte ∧ scancodeOf code r ≠ kbdPauseScancode1st := by
  have byte := toNat_scancodeOf (r := r) small
  simp only [List.mem_cons, List.not_mem_nil, or_false, not_or] at allowed
  constructor
  · intro same
    have value : (scancodeOf code r).toNat = 224 := congrArg UInt8.toNat same
    rw [byte] at value
    split_ifs at value <;> omega
  · intro same
    have value : (scancodeOf code r).toNat = 225 := congrArg UInt8.toNat same
    rw [byte] at value
    split_ifs at value <;> omega

theorem scancodeOf_ne_print (small : code < 112) (allowed : code ∉ [0x2a, 0x37]) :
    ¬ (scancodeOf code r = kbdPrintscreenPressedScancode2nd ∨ scancodeOf code r = kbdPrintscreenReleasedScancode2nd) := by
  have byte := toNat_scancodeOf (r := r) small
  simp only [List.mem_cons, List.not_mem_nil, or_false, not_or] at allowed
  rintro (same | same)
  · have value : (scancodeOf code r).toNat = 42 := congrArg UInt8.toNat same
    rw [byte] at value
    split_ifs at value <;> omega
  · have value : (scancodeOf code r).toNat = 183 := congrArg UInt8.toNat same
    rw [byte] at value
    split_ifs at value <;> omega

theorem kbdHandler_eq (small : code < 112) (allowed : code ∉ [0x60, 0x61])
    (print : k.extendedByte = true → code ∉ [0x2a, 0x37]) : k.kbdHandler layout (scancodeOf code r) =
      ((if k.extendedByte then keycodeExtendedByte else keycode)[code]?).map fun kcode => k.keyEvent layout kcode r := by
  obtain ⟨notExtended, notPause⟩ := scancodeOf_ne_prefix (r := r) small allowed
  have notPrint : ¬ (k.extendedByte = true ∧ (scancodeOf code r = kbdPrintscreenPressedScancode2nd ∨
      scancodeOf code r = kbdPrintscreenReleasedScancode2nd)) :=
    fun both => scancodeOf_ne_print small (print both.1) both.2
  rw [kbdHandler, if_neg notExtended, if_neg notPause, if_neg notPrint]
  simp only [scancode_released small, scancode_code small, Option.pure_def, Option.bind_eq_bind]
  cases (if k.extendedByte then keycodeExtendedByte else keycode)[code]? <;> rfl

theorem toggleLocks_eq (k : Keyboard) (kcode : UInt8) (r : Bool) : k.toggleLocks kcode r = { k with
    capslockOn := if kcode = kbdKeycodeCapslock && !r then !k.capslockOn else k.capslockOn
    scrolllockOn := if kcode = kbdKeycodeScrolllock && !r then !k.scrolllockOn else k.scrolllockOn
    leds := (k.toggleLocks kcode r).leds } := by
  rw [toggleLocks]
  cases (kcode = kbdKeycodeCapslock && !r : Bool) <;> cases (kcode = kbdKeycodeScrolllock && !r : Bool) <;> rfl

theorem keyEvent_eq (k : Keyboard) (layout : Layout) (kcode : UInt8) (r : Bool) : k.keyEvent layout kcode r = { k with
    keyPressed := if kcode ≠ kbdKeycodePause then Function.update k.keyPressed kcode (!r) else k.keyPressed
    capslockOn := if kcode = kbdKeycodeCapslock && !r then !k.capslockOn else k.capslockOn
    scrolllockOn := if kcode = kbdKeycodeScrolllock && !r then !k.scrolllockOn else k.scrolllockOn
    leds := (k.toggleLocks kcode r).leds
    currentKey := (k.keyEvent layout kcode r).currentKey
    latestKeyHandled := false
    extendedByte := false } := by
  rw [keyEvent]
  by_cases pause : kcode = kbdKeycodePause
  · rw [if_neg (not_not.mpr pause), if_neg (not_not.mpr pause)]
    simp only
    rw [toggleLocks_eq]
  · rw [if_pos pause, if_pos pause]
    simp only
    rw [toggleLocks_eq]
    simp only [setPressed, toggleLocks]
    cases (kcode = kbdKeycodeCapslock && !r : Bool) <;> cases (kcode = kbdKeycodeScrolllock && !r : Bool) <;> rfl

theorem keyEvent_extended (k : Keyboard) (layout : Layout) (kcode : UInt8) (r on : Bool) :
    ({ k with extendedByte := on } : Keyboard).keyEvent layout kcode r = k.keyEvent layout kcode r := by
  simp only [keyEvent, toggleLocks, setPressed]
  by_cases pause : kcode = kbdKeycodePause
  · simp only [pause, ne_eq, not_true_eq_false, if_false]
    rfl
  · simp only [pause, ne_eq, not_false_eq_true, if_true]
    cases (kcode = kbdKeycodeCapslock && !r : Bool) <;> cases (kcode = kbdKeycodeScrolllock && !r : Bool) <;> rfl

theorem trash_run {bytes : List UInt8} (trash : k.trash = true)
    (left : k.interruptProgressCnt.toNat + bytes.length = k.interruptLoopCnt.toNat) (more : bytes ≠ []) :
    bytes.foldlM (interrupt layout) k = some { k with interruptProgressCnt := 0, trash := false } := by
  induction bytes generalizing k with
  | nil => exact absurd rfl more
  | cons b bytes ih =>
      have small := k.interruptLoopCnt.toNat_lt
      rw [List.length_cons] at left
      have count : (k.interruptProgressCnt + 1).toNat = k.interruptProgressCnt.toNat + 1 := by
        rw [UInt8.toNat_add]
        change (k.interruptProgressCnt.toNat + 1) % 2 ^ 8 = _
        omega
      rw [List.foldlM_cons, interrupt, if_pos trash, kbdTrashIntHandler]
      cases bytes with
      | nil =>
          have last : k.interruptProgressCnt + 1 = k.interruptLoopCnt := by
            rw [← UInt8.toNat_inj, count]
            exact left
          simp only [last, if_true]
          rfl
      | cons c bytes =>
          have early : k.interruptProgressCnt + 1 ≠ k.interruptLoopCnt := by
            rw [Ne, ← UInt8.toNat_inj, count, ← left, List.length_cons]
            omega
          simp only [early, if_false]
          refine ih (k := { k with interruptProgressCnt := k.interruptProgressCnt + 1 }) trash ?_ (by simp)
          simp only [count]
          omega

/-! ## The stream of bytes -/

theorem effect_rest (rest : k.Rest) (e : KeyEvent) : (k.effect layout e).Rest := by
  have event : ∀ kcode released, (k.keyEvent layout kcode released).Rest := fun kcode released => by
    rw [keyEvent_eq]
    exact ⟨rfl, rest.trash, rest.progress⟩
  cases e with
  | plain code released => exact event _ _
  | extended code released => exact event _ _
  | printscreen released => exact ⟨rest.extendedByte, rest.trash, rest.progress⟩
  | pause => exact ⟨rest.extendedByte, rest.trash, rest.progress⟩

theorem trash_tail {start : List UInt8} {after : Keyboard} {tail : List UInt8}
    (started : start.foldlM (interrupt layout) k = some { after with trash := true }) (rest : after.Rest)
    (more : tail ≠ []) (all : after.interruptLoopCnt.toNat = tail.length) : (start ++ tail).foldlM (interrupt layout) k = some after := by
  obtain ⟨-, trash, progress⟩ := rest
  have same : ({ after with interruptProgressCnt := 0, trash := false } : Keyboard) = after := by
    rw [← progress, ← trash]
  rw [List.foldlM_append, started]
  refine (trash_run (k := { after with trash := true }) rfl ?_ more).trans (congrArg some same)
  rw [← all, progress, UInt8.toNat_zero, Nat.zero_add]

theorem plain_codes (code : Fin 89) : code.val ∉ [0x60, 0x61] := by
  have := code.isLt
  simp only [List.mem_cons, List.not_mem_nil, or_false]
  omega

theorem allowed_codes {code : Fin 112} (allowed : code ∉ [0x2a, 0x37, 0x60, 0x61]) :
    code.val ∉ [0x2a, 0x37] ∧ code.val ∉ [0x60, 0x61] := by
  simp only [List.mem_cons, List.not_mem_nil, or_false, not_or, Fin.ext_iff] at allowed ⊢
  obtain ⟨a, b, c, d⟩ := allowed
  exact ⟨⟨a, b⟩, c, d⟩

theorem printscreen_starts (rest : k.Rest) (released : Bool) :
    [kbdExtendedByte, if released then kbdPrintscreenReleasedScancode2nd else kbdPrintscreenPressedScancode2nd].foldlM
      (interrupt layout) k = some { k.effect layout (.printscreen released) with trash := true } := by
  have awake : ¬ k.trash = true := by rw [rest.trash]; exact Bool.false_ne_true
  obtain ⟨extendedByte, -, -⟩ := rest
  rw [List.foldlM_cons, interrupt, if_neg awake, kbdHandler, if_pos rfl]
  simp only [Option.bind_eq_bind, Option.bind_some, List.foldlM_cons]
  rw [interrupt, if_neg awake, kbdHandler]
  cases released <;> simp [kbdExtendedByte, kbdPauseScancode1st, kbdPrintscreenPressedScancode2nd,
    kbdPrintscreenReleasedScancode2nd, keycodeExtendedByte, effect, kbdKeycodePrintscreen, setPressed, extendedByte]

theorem pause_starts (rest : k.Rest) :
    [kbdPauseScancode1st].foldlM (interrupt layout) k = some { k.effect layout .pause with trash := true } := by
  have awake : ¬ k.trash = true := by rw [rest.trash]; exact Bool.false_ne_true
  rw [List.foldlM_cons, interrupt, if_neg awake, kbdHandler, if_neg (by decide), if_pos rfl]
  simp [effect, keycodeExtendedByte, kbdKeycodePause, rest.extendedByte]

theorem interrupt_frame (rest : k.Rest) {e : KeyEvent} {bytes : List UInt8} (frame : e.Frame bytes) :
    bytes.foldlM (interrupt layout) k = some (k.effect layout e) := by
  have awake : ¬ k.trash = true := by rw [rest.trash]; exact Bool.false_ne_true
  cases e with
  | plain code released =>
      cases frame
      have short : k.extendedByte = true → code.val ∉ [0x2a, 0x37] := fun on => by
        rw [rest.extendedByte] at on
        cases on
      rw [List.foldlM_cons, interrupt, if_neg awake, kbdHandler_eq (by omega) (plain_codes code) short, rest.extendedByte,
        if_neg Bool.false_ne_true, List.getElem?_eq_getElem (by exact code.isLt)]
      rfl
  | extended code released =>
      cases frame
      obtain ⟨code, allowed⟩ := code
      have prefixed : k.interrupt layout kbdExtendedByte = some { k with extendedByte := true } := by
        rw [interrupt, if_neg awake, kbdHandler, if_pos rfl]
      rw [List.foldlM_cons, prefixed]
      simp only [Option.bind_eq_bind, Option.bind_some, List.foldlM_cons]
      rw [interrupt, if_neg awake, kbdHandler_eq code.isLt (allowed_codes allowed).2 (fun _ => (allowed_codes allowed).1),
        if_pos rfl, List.getElem?_eq_getElem (by exact code.isLt)]
      simp only [Option.map_some, Option.bind_some, List.foldlM_nil, Option.pure_def, keyEvent_extended]
      rfl
  | printscreen released =>
      obtain ⟨x, y, rfl⟩ := frame
      exact trash_tail (printscreen_starts rest released) (effect_rest rest _) (List.cons_ne_nil x [y]) rfl
  | pause =>
      obtain ⟨tail, five, rfl⟩ := frame
      exact trash_tail (pause_starts rest) (effect_rest rest _) (List.ne_nil_of_length_pos (by omega)) five.symm

theorem framing (layout : Layout) : Framing (interrupt layout) Rest KeyEvent.Frame (effect layout) :=
  ⟨fun _ _ _ rest frame => interrupt_frame rest frame, fun _ e rest => effect_rest rest e⟩

/-! ## The keys that are held, and the locks -/

end Keyboard

namespace KeyEvent

/-- The keys that set `latest_key_handled`. -/
def told : KeyEvent → Bool
  | plain _ _ | extended _ _ => true
  | printscreen _ | pause => false

/-- Where the driver notes that a key is held: `Print Screen` at its scancode in place of its keycode, `Pause` nowhere. -/
def touch : KeyEvent → Option (UInt8 × Bool)
  | printscreen released => some (0x6e, !released)
  | e => if e.keycode = kbdKeycodePause then none else some (e.keycode, !e.released)

def heldAfter (events : List KeyEvent) (kcode : UInt8) : Bool := (lastWrite (events.filterMap touch) kcode).getD false

def goesDown (kcode : UInt8) (e : KeyEvent) : Bool := e.keycode = kcode && !e.released

def lockedAfter (events : List KeyEvent) (kcode : UInt8) : Bool := decide (events.countP (goesDown kcode) % 2 = 1)

end KeyEvent

namespace Keyboard
variable {k : Keyboard} {leds : Indicators} {events : List KeyEvent} {frames : List (List UInt8)}

theorem keyPressed_effect (k : Keyboard) (layout : Layout) (e : KeyEvent) : (k.effect layout e).keyPressed =
    (e.touch.map fun w => Function.update k.keyPressed w.1 w.2).getD k.keyPressed := by
  have event : ∀ kcode released, (k.keyEvent layout kcode released).keyPressed =
      ((if kcode = kbdKeycodePause then none else some (kcode, !released)).map fun w =>
        Function.update k.keyPressed w.1 w.2).getD k.keyPressed := by
    intro kcode released
    rw [keyEvent_eq, ite_not]
    split_ifs <;> rfl
  cases e with
  | plain code released => exact event _ _
  | extended code released => exact event _ _
  | printscreen released => rfl
  | pause => rfl

theorem keyPressed_foldl (k : Keyboard) (layout : Layout) (events : List KeyEvent) :
    (events.foldl (effect layout) k).keyPressed =
      (events.filterMap KeyEvent.touch).foldl (fun f w => Function.update f w.1 w.2) k.keyPressed := by
  induction events generalizing k with
  | nil => rfl
  | cons e events ih =>
      rw [List.foldl_cons, ih, keyPressed_effect, List.filterMap_cons]
      cases e.touch <;> rfl

theorem capslockOn_foldl (k : Keyboard) (layout : Layout) (events : List KeyEvent) :
    (events.foldl (effect layout) k).capslockOn =
      events.foldl (fun on e => if KeyEvent.goesDown kbdKeycodeCapslock e then !on else on) k.capslockOn := by
  induction events generalizing k with
  | nil => rfl
  | cons e events ih =>
      rw [List.foldl_cons, List.foldl_cons, ih]
      congr 1
      cases e with
      | plain code released => exact congrArg capslockOn (keyEvent_eq ..)
      | extended code released => exact congrArg capslockOn (keyEvent_eq ..)
      | printscreen released => rfl
      | pause => rfl

theorem scrolllockOn_foldl (k : Keyboard) (layout : Layout) (events : List KeyEvent) :
    (events.foldl (effect layout) k).scrolllockOn =
      events.foldl (fun on e => if KeyEvent.goesDown kbdKeycodeScrolllock e then !on else on) k.scrolllockOn := by
  induction events generalizing k with
  | nil => rfl
  | cons e events ih =>
      rw [List.foldl_cons, List.foldl_cons, ih]
      congr 1
      cases e with
      | plain code released => exact congrArg scrolllockOn (keyEvent_eq ..)
      | extended code released => exact congrArg scrolllockOn (keyEvent_eq ..)
      | printscreen released => rfl
      | pause => rfl

/-- The indicators show the locks. -/
structure Shows (k : Keyboard) : Prop where
  shown : k.leds.shown = ledBits k.scrolllockOn false k.capslockOn
  answers : k.leds.Answers
  numlockOn : k.numlockOn = false

theorem shows_effect (shows : k.Shows) (layout : Layout) (e : KeyEvent) : (k.effect layout e).Shows := by
  have event : ∀ kcode released, (k.keyEvent layout kcode released).Shows := by
    intro kcode released
    rw [keyEvent_eq]
    refine ⟨?_, ?_, shows.numlockOn⟩
    · simp only [toggleLocks, kbdSetLed]
      cases (kcode = kbdKeycodeCapslock && !released : Bool) <;> cases (kcode = kbdKeycodeScrolllock && !released : Bool) <;>
        simp [shows.shown, shows.numlockOn, shows.answers.shown]
    · simp only [toggleLocks, kbdSetLed]
      cases (kcode = kbdKeycodeCapslock && !released : Bool) <;> cases (kcode = kbdKeycodeScrolllock && !released : Bool)
      · exact shows.answers
      all_goals exact shows.answers.set _ _
  cases e with
  | plain code released => exact event _ _
  | extended code released => exact event _ _
  | printscreen released => exact ⟨shows.shown, shows.answers, shows.numlockOn⟩
  | pause => exact ⟨shows.shown, shows.answers, shows.numlockOn⟩

theorem shows_foldl (shows : k.Shows) (layout : Layout) (events : List KeyEvent) :
    (events.foldl (effect layout) k).Shows := by
  induction events generalizing k with
  | nil => exact shows
  | cons e events ih => exact ih (shows_effect shows layout e)

theorem rest_kbdInit (leds : Indicators) : (kbdInit leds).Rest := ⟨rfl, rfl, rfl⟩

theorem shows_kbdInit (answers : leds.Answers) : (kbdInit leds).Shows := ⟨answers.shown _, answers.set _ _, rfl⟩

theorem held_after (leds : Indicators) (layout : Layout) (events : List KeyEvent) (kcode : UInt8) :
    (events.foldl (effect layout) (kbdInit leds)).kbdIsKeyPressed kcode = KeyEvent.heldAfter events kcode := by
  rw [kbdIsKeyPressed, keyPressed_foldl, foldl_update]
  rfl

theorem caps_after (leds : Indicators) (layout : Layout) (events : List KeyEvent) :
    (events.foldl (effect layout) (kbdInit leds)).capslockOn = KeyEvent.lockedAfter events kbdKeycodeCapslock := by
  rw [capslockOn_foldl, foldl_toggle]
  exact Bool.false_xor _

theorem scroll_after (leds : Indicators) (layout : Layout) (events : List KeyEvent) :
    (events.foldl (effect layout) (kbdInit leds)).scrolllockOn = KeyEvent.lockedAfter events kbdKeycodeScrolllock := by
  rw [scrolllockOn_foldl, foldl_toggle]
  exact Bool.false_xor _

/-- The bytes of any keys, whatever the bytes that are not looked at, leave the driver between two keys, with the
keys noted that are held, and the locks after an odd number of presses. The indicators are as the locks are, unless
the keyboard does not take a command at the third try. -/
theorem scancodes_followed (leds : Indicators) (layout : Layout) (framed : List.Forall₂ KeyEvent.Frame events frames) :
    ∃ k, frames.flatten.foldlM (interrupt layout) (kbdInit leds) = some k ∧ k.Rest ∧
      (∀ kcode, k.kbdIsKeyPressed kcode = KeyEvent.heldAfter events kcode) ∧
      k.capslockOn = KeyEvent.lockedAfter events kbdKeycodeCapslock ∧
      k.scrolllockOn = KeyEvent.lockedAfter events kbdKeycodeScrolllock ∧
      (leds.Answers → k.leds.shown = ledBits k.scrolllockOn false k.capslockOn) :=
  ⟨_, (framing layout).stream (rest_kbdInit leds) framed, (framing layout).atRest (rest_kbdInit leds) events,
    held_after leds layout events, caps_after leds layout events, scroll_after leds layout events,
    fun answers => (shows_foldl (shows_kbdInit answers) layout events).shown⟩

-- every command has to be sent twice
def slow : Indicators := ⟨0, fun i => i % 2 = 1⟩

theorem slow_answers : slow.Answers := by
  intro i
  rcases Nat.mod_two_eq_zero_or_one i with even | odd
  · exact ⟨1, by omega, decide_eq_true (by omega)⟩
  · exact ⟨0, by omega, decide_eq_true (by omega)⟩

/-- Shift, Caps Lock and a letter, with `Print Screen` and `Pause` between. -/
theorem scancodes_followed_shift :
    List.Forall₂ KeyEvent.Frame [.plain 42 false, .printscreen false, .plain 58 false, .plain 30 false, .pause]
      [[0x2a], [0xe0, 0x2a, 0xe0, 0x37], [0x3a], [0x1e], [0xe1, 0x1d, 0x45, 0xe1, 0x9d, 0xc5]] ∧
    ∃ k, [0x2a, 0xe0, 0x2a, 0xe0, 0x37, 0x3a, 0x1e, 0xe1, 0x1d, 0x45, 0xe1, 0x9d, 0xc5].foldlM
      (interrupt setKeyboardLayoutUS) (kbdInit slow) = some k ∧ k.kbdIsKeyPressed kbdKeycodeLshift = true ∧
      k.leds.shown = 0b100 := by
  have framed : List.Forall₂ KeyEvent.Frame [.plain 42 false, .printscreen false, .plain 58 false, .plain 30 false, .pause]
      [[0x2a], [0xe0, 0x2a, 0xe0, 0x37], [0x3a], [0x1e], [0xe1, 0x1d, 0x45, 0xe1, 0x9d, 0xc5]] :=
    .cons rfl (.cons ⟨0xe0, 0x37, rfl⟩ (.cons rfl (.cons rfl (.cons ⟨_, rfl, rfl⟩ .nil))))
  obtain ⟨k, run, -, held, caps, scroll, shown⟩ := scancodes_followed slow setKeyboardLayoutUS framed
  refine ⟨framed, k, run, (held _).trans (by decide), (shown slow_answers).trans ?_⟩
  rw [caps, scroll]
  decide

end Keyboard
end Kerosene.Driver

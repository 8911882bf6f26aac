import Kerosene.Driver.Keyboard

/-!
# What a key types

The character depends on the keys that are held and on Capslock, so on the keys before. Capslock turns Shift round
for a letter and does nothing to any other key.
-/

namespace Kerosene.Driver
open Lib

namespace Layout

/-- With Shift, a letter is in upper case. -/
def Cased (layout : Layout) : Prop :=
  ∀ kcode, Keyboard.isLower (layout.keymap kcode) = true → layout.keymapShift kcode = layout.keymap kcode - 32

theorem setKeyboardLayoutUS_cased : setKeyboardLayoutUS.Cased := by
  have all : ∀ kcode : Fin 256, Keyboard.isLower (setKeyboardLayoutUS.keymap (UInt8.ofNat kcode)) = true →
      setKeyboardLayoutUS.keymapShift (UInt8.ofNat kcode) = setKeyboardLayoutUS.keymap (UInt8.ofNat kcode) - 32 := by
    decide +kernel
  intro kcode lower
  have here := all ⟨kcode.toNat, kcode.toNat_lt⟩
  simp only [UInt8.ofNat_toNat] at here
  exact here lower

def charOf (layout : Layout) (kcode : UInt8) (shift caps : Bool) : UInt8 :=
  if Keyboard.isLower (layout.keymap kcode) then
    if shift != caps then layout.keymap kcode - 32 else layout.keymap kcode
  else if shift then layout.keymapShift kcode
  else layout.keymap kcode

end Layout

namespace KeyEvent

/-- The key of the last of `events`, after all of them. -/
def key (layout : Layout) (events : List KeyEvent) : KeyEvent → Key
  | printscreen released => ⟨kbdKeycodePrintscreen, 0, released⟩
  | pause => ⟨kbdKeycodePause, 0, false⟩
  | e => ⟨e.keycode, layout.charOf e.keycode (heldAfter events kbdKeycodeLshift || heldAfter events kbdKeycodeRshift)
      (lockedAfter events kbdKeycodeCapslock), e.released⟩

end KeyEvent

namespace Keyboard
variable {k k' : Keyboard} {layout : Layout} {before events : List KeyEvent} {e : KeyEvent} {frames : List (List UInt8)}

theorem mapped_eq (cased : layout.Cased) (k : Keyboard) (kcode : UInt8) :
    k.mapped layout kcode = layout.charOf kcode k.shift k.capslockOn := by
  have upper := cased kcode
  rw [mapped, Layout.charOf, shift]
  simp only [Layout.mapKey]
  cases lower : isLower (layout.keymap kcode) with
  | false =>
      cases k.keyPressed kbdKeycodeLshift <;> cases k.keyPressed kbdKeycodeRshift <;> simp [lower]
  | true =>
      cases k.keyPressed kbdKeycodeLshift <;> cases k.keyPressed kbdKeycodeRshift <;> cases k.capslockOn <;>
        simp [lower, upper lower]

theorem currentKey_keyEvent (k : Keyboard) (layout : Layout) (kcode : UInt8) (r : Bool) :
    (k.keyEvent layout kcode r).currentKey = ⟨kcode, (k.keyEvent layout kcode r).mapped layout kcode, r⟩ := by
  simp only [keyEvent]
  rfl

theorem currentKey_after (leds : Indicators) (cased : layout.Cased) (before : List KeyEvent) (e : KeyEvent) :
    ((before ++ [e]).foldl (effect layout) (kbdInit leds)).currentKey = e.key layout (before ++ [e]) := by
  have held := held_after leds layout (before ++ [e])
  have caps := caps_after leds layout (before ++ [e])
  have left := held kbdKeycodeLshift
  have right := held kbdKeycodeRshift
  rw [kbdIsKeyPressed] at left right
  have ordinary : ∀ kcode r, (before ++ [e]).foldl (effect layout) (kbdInit leds) =
      (before.foldl (effect layout) (kbdInit leds)).keyEvent layout kcode r →
      ((before ++ [e]).foldl (effect layout) (kbdInit leds)).currentKey =
        ⟨kcode, layout.charOf kcode (KeyEvent.heldAfter (before ++ [e]) kbdKeycodeLshift ||
          KeyEvent.heldAfter (before ++ [e]) kbdKeycodeRshift) (KeyEvent.lockedAfter (before ++ [e]) kbdKeycodeCapslock), r⟩ := by
    intro kcode r same
    rw [← left, ← right, ← caps, same, currentKey_keyEvent, mapped_eq cased, shift]
  have last : (before ++ [e]).foldl (effect layout) (kbdInit leds) = (before.foldl (effect layout) (kbdInit leds)).effect layout e := by
    rw [List.foldl_append]
    rfl
  cases e with
  | plain code released => exact ordinary _ _ last
  | extended code released => exact ordinary _ _ last
  | printscreen released =>
      rw [last]
      rfl
  | pause =>
      rw [last]
      rfl

/-- After any keys, the driver holds the last one with the character that the keys before give it. -/
theorem key_types_by_history (leds : Indicators) (framed : List.Forall₂ KeyEvent.Frame (before ++ [e]) frames) :
    ∃ k, frames.flatten.foldlM (interrupt setKeyboardLayoutUS) (kbdInit leds) = some k ∧
      k.currentKey = e.key setKeyboardLayoutUS (before ++ [e]) :=
  ⟨_, (framing setKeyboardLayoutUS).stream (rest_kbdInit leds) framed, currentKey_after leds Layout.setKeyboardLayoutUS_cased before e⟩

/-- Capslock, then Shift with `a`: the letter is small again. -/
theorem key_types_by_history_caps :
    ∃ k, [[0x3a], [0xba], [0x2a], [0x1e]].flatten.foldlM (interrupt setKeyboardLayoutUS) (kbdInit slow) = some k ∧
      k.currentKey = ⟨0x31, 0x61, false⟩ := by
  have framed : List.Forall₂ KeyEvent.Frame ([.plain 58 false, .plain 58 true, .plain 42 false] ++ [.plain 30 false])
      [[0x3a], [0xba], [0x2a], [0x1e]] :=
    .cons rfl (.cons rfl (.cons rfl (.cons rfl .nil)))
  obtain ⟨k, run, here⟩ := key_types_by_history slow framed
  exact ⟨k, run, here.trans (by decide +kernel)⟩

end Keyboard
end Kerosene.Driver

import Kerosene.Fat32.ShortNames

/-!
# Long names

A long name is cut into pieces of 13 characters, the last piece first. The piece that the name does not
fill holds its terminator.
-/

namespace Kerosene.Fat32
open Lib
open Ramfs (Name filenameLimit)
variable {name text : Name} {buff : Int → UInt8} {offset : Int} {i k : Nat} {s : Decoder}

def pieceOf (name : Name) (i : Nat) : Name := ((name ++ [0]).drop (13 * i)).take 13

def pieceCount (name : Name) : Nat := (name.length + 12) / 13

/-- The 16-bit character `c` stands for `b`. -/
def Spells (c : UInt16) (b : UInt8) : Prop := c.toUInt8 = b ∧ (c = 0 ↔ b = 0)

/-- The characters of a piece; behind the terminator they may be anything. -/
def Piece (text : Name) (chars : List UInt16) : Prop := List.Forall₂ Spells (chars.take text.length) text

/-- The slots `long` hold the pieces of `name`. -/
structure LongGroup (name : Name) (long : List (List UInt8)) : Prop where
  nonempty : name ≠ []
  short : name.length < filenameLimit
  nonzero : ∀ c ∈ name, c ≠ 0
  count : long.length = pieceCount name
  attr : ∀ slot ∈ long, (FatLfnEntry.ofBytes slot).attr = 0x0f
  order : ∀ k slot, long[k]? = some slot →
    (FatLfnEntry.ofBytes slot).order = UInt8.ofNat (long.length - k) ||| if k = 0 then 0x40 else 0
  chars : ∀ k slot, long[k]? = some slot → Piece (pieceOf name (long.length - k - 1)) (FatLfnEntry.ofBytes slot).chars

/-! ## One piece -/

theorem putText_append (buff : Int → UInt8) (offset : Int) (x y : Name) :
    putText (putText buff offset x) (offset + x.length) y = putText buff offset (x ++ y) := by
  induction x generalizing buff offset with
  | nil => rw [putText_nil, List.nil_append, List.length_nil, Nat.cast_zero, add_zero]
  | cons b x ih =>
      have next : offset + ((b :: x).length : Int) = offset + 1 + x.length := by
        rw [List.length_cons]
        omega
      rw [putText_cons, next, ih, List.cons_append, putText_cons]

theorem map_of_spells {chars : List UInt16} (spells : List.Forall₂ Spells chars text) : chars.map (·.toUInt8) = text := by
  induction spells with
  | nil => rfl
  | cons first _ ih => rw [List.map_cons, ih, first.1]

theorem parseChars_spells {chars : List UInt16} {p : Parse} (spells : List.Forall₂ Spells chars text)
    (nonzero : ∀ b ∈ text, b ≠ 0) (room : p.offset + text.length ≤ filenameLimit) (rest : List UInt16) :
    parseChars (chars ++ rest) p =
      parseChars rest ⟨putText p.buff p.offset text, p.offset + text.length, p.cnt + text.length⟩ := by
  have length := spells.length_eq
  have solid : ∀ c ∈ chars, c ≠ 0 := by
    intro c member zero
    obtain ⟨j, inside, rfl⟩ := List.getElem_of_mem member
    have here := (List.forall₂_iff_get.mp spells).2 j inside (length ▸ inside)
    exact nonzero _ (List.getElem_mem _) (here.2.mp zero)
  rw [parseChars_text solid (by rw [length]; exact room), map_of_spells spells, length]

theorem Piece.parse {chars : List UInt16} (piece : Piece text chars) (room : offset + text.length ≤ filenameLimit)
    (ends : (∀ b ∈ text, b ≠ 0) ∧ chars.length = text.length ∨ ∃ front, text = front ++ [0] ∧ ∀ b ∈ front, b ≠ 0) :
    (parseChars chars ⟨buff, offset, 0⟩).2 = ⟨putText buff offset text, offset + text.length, text.length⟩ := by
  rw [← List.take_append_drop text.length chars]
  rw [Piece] at piece
  rcases ends with ⟨nonzero, full⟩ | ⟨front, rfl, nonzero⟩
  · rw [List.drop_of_length_le full.le, parseChars_spells piece nonzero room, parseChars]
    simp
  · generalize chars.take _ = taken at piece ⊢
    generalize chars.drop _ = rest
    have first := List.forall₂_take_append _ _ _ piece
    obtain ⟨c, none, zero, empty, split⟩ := List.forall₂_cons_right_iff.mp (List.forall₂_drop_append _ _ _ piece)
    cases empty
    have isZero : c = 0 := zero.2.mpr rfl
    have last := putText_append buff offset front [0]
    rw [putText_cons, putText_nil] at last
    rw [List.length_append, List.length_singleton] at room ⊢
    rw [← List.take_append_drop front.length taken, split, isZero, List.append_assoc,
      parseChars_spells first nonzero (by simp only; omega), List.singleton_append, parseChars,
      if_pos (by simp only; omega), if_pos rfl, ← last]
    simp only [Nat.zero_add]
    congr 1
    omega

/-! ## The pieces of a name -/

/-- The name with its terminator, which is left out when the name fills its last piece. -/
def storedText (name : Name) : Name := (name ++ [0]).take (13 * pieceCount name)

theorem length_storedText (name : Name) : (storedText name).length = min (13 * pieceCount name) (name.length + 1) := by
  rw [storedText, List.length_take, List.length_append, List.length_singleton]

theorem length_le_stored (name : Name) : name.length ≤ (storedText name).length := by
  rw [length_storedText, pieceCount]
  omega

theorem storedText_getD {j : Nat} (inside : j < name.length) : (storedText name).getD j 0 = name.getD j 0 := by
  have stored := length_le_stored name
  rw [length_storedText] at stored
  rw [storedText, List.getD_eq_getElem?_getD, List.getElem?_take_of_lt (by omega), List.getElem?_append_left inside,
    List.getD_eq_getElem?_getD]

theorem storedText_stop (name : Name) : (storedText name).getD name.length 0 = 0 := by
  rw [storedText, List.getD_eq_getElem?_getD, List.getElem?_take]
  split_ifs
  · simp
  · rfl

theorem pieceOf_eq (inside : i < pieceCount name) : pieceOf name i = ((storedText name).drop (13 * i)).take 13 := by
  rw [pieceOf, storedText, List.drop_take, List.take_take, Nat.min_eq_left (by omega)]

theorem length_pieceOf (inside : i < pieceCount name) :
    (pieceOf name i).length = min 13 ((storedText name).length - 13 * i) := by
  rw [pieceOf_eq inside, List.length_take, List.length_drop]

theorem pieceOf_getD {j : Nat} (inside : i < pieceCount name) (small : j < 13) :
    (pieceOf name i).getD j 0 = (storedText name).getD (13 * i + j) 0 := by
  rw [pieceOf_eq inside, List.getD_eq_getElem?_getD, List.getElem?_take_of_lt small, List.getElem?_drop,
    List.getD_eq_getElem?_getD]

theorem pieceOf_ends (nonzero : ∀ b ∈ name, b ≠ 0) (inside : i < pieceCount name) :
    (∀ b ∈ pieceOf name i, b ≠ 0) ∧ 13 = (pieceOf name i).length ∨
      ∃ front, pieceOf name i = front ++ [0] ∧ ∀ b ∈ front, b ≠ 0 := by
  rw [pieceCount] at inside
  by_cases full : 13 * i + 13 ≤ name.length
  · have piece : pieceOf name i = (name.drop (13 * i)).take 13 := by
      rw [pieceOf, List.drop_append_of_le_length (by omega), List.take_append_of_le_length (by rw [List.length_drop]; omega)]
    refine .inl ⟨fun b member => ?_, ?_⟩
    · rw [piece] at member
      exact nonzero b (List.mem_of_mem_drop (List.mem_of_mem_take member))
    · rw [piece, List.length_take, List.length_drop]
      omega
  · refine .inr ⟨name.drop (13 * i), ?_, fun b member => nonzero b (List.mem_of_mem_drop member)⟩
    rw [pieceOf, List.drop_append_of_le_length (by omega), List.take_of_length_le]
    rw [List.length_append, List.length_drop, List.length_singleton]
    omega

theorem FatLfnEntry.length_chars (e : FatLfnEntry) : e.chars.length = 13 := by
  rw [chars, List.length_append, List.length_append, Vector.length_toList, Vector.length_toList, Vector.length_toList]

/-! ## Reading the pieces -/

def readLong (long : List (List UInt8)) (s : Decoder) : Decoder :=
  long.foldl (fun s slot => s.processLfnEntry (.ofBytes slot)) s

/-- The pieces of `name` from position `start` on are in the buffer, which else holds what it held before. -/
structure Decoded (name : Name) (buff : Int → UInt8) (start : Nat) (s : Decoder) : Prop where
  text : ∀ j : Nat, start ≤ j → j < (storedText name).length → s.entryName j = (storedText name).getD j 0
  frame : ∀ i : Int, i < 0 ∨ (storedText name).length ≤ i → s.entryName i = buff i
  namelen : s.namelen = (storedText name).length
  ready : s.lfnReady = true
  found : s.foundLastLfnEntry = true

theorem order_toNat : ∀ n ≤ 20, (UInt8.ofNat n).toNat = n ∧ ((UInt8.ofNat n ||| 0x40) &&& 0x3f).toNat = n := by
  decide

namespace LongGroup
variable {long : List (List UInt8)} {slot : List UInt8}

theorem few (group : LongGroup name long) : pieceCount name ≤ 20 := by
  have short := group.short
  rw [filenameLimit] at short
  rw [pieceCount]
  omega

theorem parse (group : LongGroup name long) (here : long[k]? = some slot) (position : long.length - k - 1 = i)
    (buff : Int → UInt8) : parseLfn (.ofBytes slot) buff (13 * i : Nat) =
      ⟨putText buff (13 * i : Nat) (pieceOf name i), (13 * i : Nat) + (pieceOf name i).length, (pieceOf name i).length⟩ := by
  have inside : i < pieceCount name := by
    have := (List.getElem?_eq_some_iff.mp here).1
    rw [← group.count]
    omega
  have piece := group.chars k slot here
  rw [position] at piece
  have short := group.short
  have room : 13 * i + (pieceOf name i).length ≤ filenameLimit := by
    rw [length_pieceOf inside, length_storedText]
    rw [pieceCount] at inside ⊢
    rw [filenameLimit] at short ⊢
    omega
  rw [parseLfn_eq, piece.parse (by exact_mod_cast room)]
  rw [FatLfnEntry.length_chars]
  exact pieceOf_ends group.nonzero inside

theorem stored_bounds (group : LongGroup name long) : 13 * (pieceCount name - 1) < (storedText name).length ∧
    (storedText name).length ≤ 13 * pieceCount name ∧ (storedText name).length ≤ filenameLimit := by
  have short := group.short
  have pos := List.length_pos_of_ne_nil group.nonempty
  rw [length_storedText, pieceCount]
  omega

theorem first (group : LongGroup name long) (here : long[0]? = some slot) (fresh : s.foundLastLfnEntry = false) :
    Decoded name s.entryName (13 * (pieceCount name - 1)) (s.processLfnEntry (.ofBytes slot)) := by
  have few := group.few
  have pos : 0 < pieceCount name := group.count ▸ (List.getElem?_eq_some_iff.mp here).1
  have bounds := group.stored_bounds
  have inside : pieceCount name - 1 < pieceCount name := by omega
  have piece := length_pieceOf inside
  have order := group.order 0 slot here
  rw [if_pos rfl, Nat.sub_zero, group.count] at order
  have parsed := group.parse here (i := pieceCount name - 1) (by rw [group.count]; rfl) s.entryName
  have offset : (((FatLfnEntry.ofBytes slot).order &&& 0x3f).toNat : Int) - 1 = ((pieceCount name - 1 : Nat) : Int) := by
    rw [order, (order_toNat _ few).2]
    omega
  have offset' : ((pieceCount name - 1 : Nat) : Int) * 13 = (13 * (pieceCount name - 1) : Nat) := by omega
  have text : ∀ j : Nat, 13 * (pieceCount name - 1) ≤ j → j < (storedText name).length →
      putText s.entryName (13 * (pieceCount name - 1) : Nat) (pieceOf name (pieceCount name - 1)) j =
        (storedText name).getD j 0 := by
    intro j after before
    obtain ⟨k, rfl⟩ := Nat.exists_eq_add_of_le after
    rw [Nat.cast_add, putText_inside (by omega), pieceOf_getD inside (by omega)]
  have last : (13 * (pieceCount name - 1) : Nat) + (pieceOf name (pieceCount name - 1)).length = (storedText name).length := by
    omega
  have frame : ∀ i : Int, i < 0 ∨ (storedText name).length ≤ i →
      putText s.entryName (13 * (pieceCount name - 1) : Nat) (pieceOf name (pieceCount name - 1)) i = s.entryName i := by
    intro i outside
    exact if_neg (by omega)
  rw [Decoder.processLfnEntry]
  simp only [fresh, Bool.not_false, if_true, offset, offset', parsed]
  rw [← Nat.cast_add, last]
  split_ifs with full
  · -- a name of 255 bytes, whose terminator is stored once more
    have short := group.short
    have stop := storedText_stop name
    have length := length_storedText name
    have small : filenameLimit = 256 := rfl
    have end₁ : name.length = 255 := by omega
    refine ⟨fun j after before => ?_, fun i outside => ?_, by simp only; omega, rfl, rfl⟩
    case refine_2 =>
      rw [← frame i outside]
      exact Function.update_of_ne (by omega) _ _
    dsimp only
    by_cases end₂ : j = 255
    · have here : (filenameLimit : Int) - 1 = j := by omega
      rw [here, Function.update_self, end₂, ← end₁, stop]
    · rw [Function.update_of_ne (by omega), text j after before]
  · exact ⟨text, frame, rfl, rfl, rfl⟩

theorem next (group : LongGroup name long) (here : long[k]? = some slot) (notFirst : k ≠ 0)
    (position : long.length - k - 1 = i) (decoded : Decoded name buff (13 * (i + 1)) s) :
    Decoded name buff (13 * i) (s.processLfnEntry (.ofBytes slot)) := by
  have few := group.few
  have count := group.count
  have before := (List.getElem?_eq_some_iff.mp here).1
  have inside : i < pieceCount name := by omega
  have piece := length_pieceOf inside
  have order := group.order k slot here
  rw [if_neg notFirst, show long.length - k = i + 1 by omega] at order
  have parsed := group.parse here position s.entryName
  have offset : ((FatLfnEntry.ofBytes slot).order.toNat : Int) - 1 = (i : Int) := by
    rw [order, UInt8.or_zero, (order_toNat _ (by omega)).1]
    omega
  have offset' : (i : Int) * 13 = (13 * i : Nat) := by omega
  rw [Decoder.processLfnEntry]
  simp only [decoded.found, Bool.not_true, Bool.false_eq_true, if_false, offset, offset', parsed]
  refine ⟨fun j after before => ?_, fun j outside => ?_, decoded.namelen, rfl, rfl⟩
  case refine_2 =>
    have bounds := group.stored_bounds
    rw [← decoded.frame j outside]
    exact if_neg (by omega)
  by_cases later : 13 * (i + 1) ≤ j
  · rw [← decoded.text j later before]
    exact if_neg (by omega)
  · obtain ⟨m, rfl⟩ := Nat.exists_eq_add_of_le after
    simp only
    rw [Nat.cast_add, putText_inside (by omega), pieceOf_getD inside (by omega)]

theorem decoded (group : LongGroup name long) (fresh : s.foundLastLfnEntry = false) :
    Decoded name s.entryName 0 (readLong long s) := by
  have run : ∀ k, k < long.length → Decoded name s.entryName (13 * (long.length - 1 - k)) (readLong (long.take (k + 1)) s) := by
    intro k
    induction k with
    | zero =>
        intro inside
        have here : long[0]? = some long[0] := List.getElem?_eq_getElem inside
        rw [List.take_add_one, here, group.count, Nat.sub_zero]
        exact group.first here fresh
    | succ k ih =>
        intro inside
        have here : long[k + 1]? = some long[k + 1] := List.getElem?_eq_getElem inside
        rw [List.take_add_one, here, readLong, List.foldl_append]
        refine group.next here (Nat.succ_ne_zero k) (by omega) ?_
        have before := ih (by omega)
        rwa [show long.length - 1 - k = long.length - 1 - (k + 1) + 1 by omega] at before
  have pos : 0 < long.length := by
    rw [group.count, pieceCount]
    have := List.length_pos_of_ne_nil group.nonempty
    omega
  have all := run (long.length - 1) (by omega)
  rwa [Nat.sub_self, Nat.mul_zero, Nat.sub_add_cancel pos, List.take_length] at all

end LongGroup

theorem Decoded.cString (decoded : Decoded name buff 0 s) (nonzero : ∀ c ∈ name, c ≠ 0) (short : name.length < filenameLimit)
    (old : Bytes) : Fat32.cString (s.copyName old) = name := by
  have stored := length_storedText name
  have enough := length_le_stored name
  refine cString_copyName nonzero short (fun j inside => ?_) ?_
  · rw [decoded.text j (Nat.zero_le _) (by omega), storedText_getD inside]
  · by_cases full : (storedText name).length = name.length
    · exact .inl (by rw [decoded.namelen, full])
    · refine .inr ⟨by rw [decoded.namelen]; omega, ?_⟩
      rw [decoded.text _ (Nat.zero_le _) (by omega), storedText_stop]

end Kerosene.Fat32

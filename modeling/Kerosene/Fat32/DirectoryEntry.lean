import Kerosene.Fat32.FileRead
import Kerosene.Lib.Packed
import Kerosene.Libc.Calendar
import Kerosene.Ramfs.Create

/-!
# Directory entries

The entries of fat_type.h and the functions of fat32.c that read and make a single one of them.
-/

namespace Kerosene.Fat32
open Lib Libc
open Ramfs (Name filenameLimit fsNodeTypeMask fsNodeTypeFile fsNodeTypeDirectory fsNodeFlagHidden)
open Ramfs.Heap (dot dotdot)

def fatAttrHidden : UInt8 := 0x02
def fatAttrDirectory : UInt8 := 0x10

structure FatDirectoryEntry where
  name : Vector UInt8 11
  attr : UInt8
  reserved : UInt8
  centisecond : UInt8
  creationTime : UInt16
  creationDate : UInt16
  lastAccessDate : UInt16
  firstClusterNumberHigh : UInt16
  lastModTime : UInt16
  lastModDate : UInt16
  firstClusterNumberLow : UInt16
  size : UInt32

structure FatLfnEntry where
  order : UInt8
  chars1 : Vector UInt16 5
  attr : UInt8
  longEntryType : UInt8
  checksum : UInt8
  chars2 : Vector UInt16 6
  zero : UInt16
  chars3 : Vector UInt16 2

namespace FatDirectoryEntry

def layout : List Nat := [1, 1, 1, 2, 2, 2, 2, 2, 2, 2, 4]

def fields (e : FatDirectoryEntry) : List Nat :=
  [e.attr.toNat, e.reserved.toNat, e.centisecond.toNat, e.creationTime.toNat, e.creationDate.toNat,
    e.lastAccessDate.toNat, e.firstClusterNumberHigh.toNat, e.lastModTime.toNat, e.lastModDate.toNat,
    e.firstClusterNumberLow.toNat, e.size.toNat]

def bytes (e : FatDirectoryEntry) : List UInt8 := e.name.toList ++ pack layout e.fields

def ofBytes (bytes : List UInt8) : FatDirectoryEntry :=
  let field := fun k => (unpack layout (bytes.drop 11)).getD k 0
  { name := Vector.ofFn fun i => bytes.getD i 0
    attr := .ofNat (field 0)
    reserved := .ofNat (field 1)
    centisecond := .ofNat (field 2)
    creationTime := .ofNat (field 3)
    creationDate := .ofNat (field 4)
    lastAccessDate := .ofNat (field 5)
    firstClusterNumberHigh := .ofNat (field 6)
    lastModTime := .ofNat (field 7)
    lastModDate := .ofNat (field 8)
    firstClusterNumberLow := .ofNat (field 9)
    size := .ofNat (field 10) }

end FatDirectoryEntry

namespace FatLfnEntry

def layout : List Nat :=
  1 :: (List.replicate 5 2 ++ 1 :: 1 :: 1 :: (List.replicate 6 2 ++ 2 :: List.replicate 2 2))

def fields (e : FatLfnEntry) : List Nat :=
  e.order.toNat :: (e.chars1.toList.map (·.toNat) ++ e.attr.toNat :: e.longEntryType.toNat :: e.checksum.toNat ::
    (e.chars2.toList.map (·.toNat) ++ e.zero.toNat :: e.chars3.toList.map (·.toNat)))

def bytes (e : FatLfnEntry) : List UInt8 := pack layout e.fields

def ofBytes (bytes : List UInt8) : FatLfnEntry :=
  let field := fun k => (unpack layout bytes).getD k 0
  { order := .ofNat (field 0)
    chars1 := Vector.ofFn fun i => .ofNat (field (1 + i))
    attr := .ofNat (field 6)
    longEntryType := .ofNat (field 7)
    checksum := .ofNat (field 8)
    chars2 := Vector.ofFn fun i => .ofNat (field (9 + i))
    zero := .ofNat (field 15)
    chars3 := Vector.ofFn fun i => .ofNat (field (16 + i)) }

end FatLfnEntry

/-! ## Reading a name -/

structure Parse where
  buff : Int → UInt8
  offset : Int
  cnt : Nat

-- One of the loops of `parse_lfn`, and whether it returns from the function.
def parseChars : List UInt16 → Parse → Bool × Parse
  | [], p => (false, p)
  | c :: chars, p =>
      if p.offset < filenameLimit then
        let p := ⟨Function.update p.buff p.offset c.toUInt8, p.offset + 1, p.cnt + 1⟩
        if c = 0 then (true, p) else parseChars chars p
      else (false, p)

def parseLfn (lfn : FatLfnEntry) (buff : Int → UInt8) (offset : Int) : Parse :=
  let (done, p) := parseChars lfn.chars1.toList ⟨buff, offset, 0⟩
  if done then p
  else
    let (done, p) := parseChars lfn.chars2.toList p
    if done then p else (parseChars lfn.chars3.toList p).2

-- the local variables of `fat32_iterate_directory` and `fat32_add_entry`
structure Decoder where
  entryName : Int → UInt8
  namelen : Int
  lfnReady : Bool
  foundLastLfnEntry : Bool

-- the bytes stored from `offset` on
def putText (buff : Int → UInt8) (offset : Int) (text : List UInt8) : Int → UInt8 :=
  fun i => if offset ≤ i ∧ i < offset + text.length then text.getD (i - offset).toNat 0 else buff i

namespace Decoder

def start (entryName : Int → UInt8) : Decoder := ⟨entryName, 0, false, false⟩

def processLfnEntry (s : Decoder) (lfn : FatLfnEntry) : Decoder :=
  let lastLfnEntry := !s.foundLastLfnEntry
  let order : UInt8 := if lastLfnEntry then lfn.order &&& 0x3f else lfn.order
  let offset : Int := ((order.toNat : Int) - 1) * 13
  let p := parseLfn lfn s.entryName offset
  if lastLfnEntry then
    if offset + p.cnt ≥ filenameLimit then
      ⟨Function.update p.buff (filenameLimit - 1) 0, filenameLimit, true, true⟩
    else ⟨p.buff, offset + p.cnt, true, true⟩
  else { s with entryName := p.buff, lfnReady := true }

def processSfnEntry (s : Decoder) (dir : FatDirectoryEntry) : Decoder :=
  let base := (dir.name.toList.take 8).takeWhile (· ≠ 0x20)
  let ext := (dir.name.toList.drop 8).takeWhile (· ≠ 0x20)
  let text := (if ext = [] then base else base ++ 0x2e :: ext) ++ [0]
  { s with entryName := putText s.entryName 0 text, namelen := text.length }

end Decoder

/-! ## Making a short name -/

-- The characters besides the dot that a short name leaves out.
def isSpecial (c : UInt8) : Bool :=
  c == 0x20 || c == 0x2b || c == 0x2c || c == 0x3b || c == 0x3d || c == 0x5b || c == 0x5d

def isLower (c : UInt8) : Bool := 0x61 ≤ c && c ≤ 0x7a

-- The loop of `is_valid_sfn`: `none` where it returns, else the position of the dot.
def dotLoop : (i : Nat) → (dotPos : Option Nat) → Name → Option (Option Nat)
  | _, dotPos, [] => some dotPos
  | i, dotPos, c :: rest =>
      if isLower c then none
      else if isSpecial c then none
      else if c = 0x2e then
        if dotPos.isSome then none else dotLoop (i + 1) (some i) rest
      else dotLoop (i + 1) dotPos rest

def isValidSfn (name : Name) : Bool :=
  let len := name.length
  if len = 0 ∨ len > 12 then false
  else
    match dotLoop 0 none name with
    | none => false
    | some none => len ≤ 8
    | some (some dotPos) => dotPos ≤ 8 && len - dotPos - 1 ≤ 3 && dotPos ≠ 0

-- Both copying loops: the characters that `skip` leaves, `room` at most.
def copyKept (skip : UInt8 → Bool) : (room : Nat) → Name → List UInt8
  | 0, _ => []
  | _, [] => []
  | room + 1, c :: rest => if skip c then copyKept skip (room + 1) rest else c :: copyKept skip room rest

-- The search for the last embedded period; `0` when there is none.
def lastDot (name : Name) : (dotPos : Nat) → Nat
  | 0 => 0
  | dotPos + 1 => if name.getD (dotPos + 1) 0 = 0x2e then dotPos + 1 else lastDot name dotPos

def padded (n : Nat) (text : List UInt8) : List UInt8 := text ++ List.replicate (n - text.length) 0x20

def upper (c : UInt8) : UInt8 := if isLower c then c - 0x20 else c

def shortName (name : Name) (isDir : Bool) : List UInt8 :=
  if name = dot ∨ name = dotdot then padded 11 name
  else
    let dotPos := lastDot name (name.length - 1)
    let split := dotPos > 0 && !isDir
    let ext := if split then copyKept isSpecial 3 (name.drop (dotPos + 1)) else []
    let base := copyKept (fun c => isSpecial c || c == 0x2e) 8 (if split then name.take dotPos else name)
    let base := padded 8 base
    let base := if dotPos > 8 ∨ isDir ∧ name.length > 8 then base.take 6 ++ [0x7e, 0x31] else base
    (base ++ padded 3 ext).map upper

def genChecksum (shortname : List UInt8) : UInt8 :=
  shortname.foldl (fun (sum c : UInt8) => (if sum &&& 1 ≠ 0 then (0x80 : UInt8) else 0) + (sum >>> 1) + c) 0

/-! ## Attributes and times -/

def toFatAttr (flags : BitVec 32) : UInt8 :=
  (if flags &&& fsNodeTypeMask = fsNodeTypeDirectory then fatAttrDirectory else 0) |||
    if flags &&& fsNodeFlagHidden ≠ 0 then fatAttrHidden else 0

def toFsNodeFlags (attr : UInt8) : BitVec 32 :=
  (if attr &&& fatAttrDirectory ≠ 0 then fsNodeTypeDirectory else fsNodeTypeFile) |||
    if attr &&& fatAttrHidden ≠ 0 then fsNodeFlagHidden else 0

def parseDatetime (date time : UInt16) : Int :=
  mktime
    { hour := (time >>> 11).toNat
      min := ((time >>> 5) &&& 0b111111).toNat
      sec := (time &&& 0b11111).toNat * 2
      mday := (date &&& 0b11111).toNat
      mon := ((date >>> 5) &&& 0b1111).toNat
      year := (date >>> 9).toNat + 1980
      wday := 0
      yday := 0 }

-- date and time
def parseTimestamp (t : Tm) : UInt16 × UInt16 :=
  let year := if t.year ≥ 1980 then t.year - 1980 else 0
  (UInt16.ofInt t.mday ||| UInt16.ofInt (t.mon * 2 ^ 5) ||| UInt16.ofInt (year * 2 ^ 9),
    UInt16.ofInt (t.sec.tdiv 2) ||| UInt16.ofInt (t.min * 2 ^ 5) ||| UInt16.ofInt (t.hour * 2 ^ 11))

/-! ## What is packed is read back -/

theorem fits_map {w n : Nat} {l : List Nat} (length : l.length = n) (fits : ∀ x ∈ l, Fits w x) :
    List.Forall₂ Fits (List.replicate n w) l := by
  subst length
  induction l with
  | nil => exact .nil
  | cons x l ih => exact .cons (fits x List.mem_cons_self) (ih fun y member => fits y (List.mem_cons_of_mem _ member))

theorem fits_uint16 {n : Nat} (v : Vector UInt16 n) : List.Forall₂ Fits (List.replicate n 2) (v.toList.map (·.toNat)) := by
  refine fits_map (by simp) fun x member => ?_
  obtain ⟨c, _, rfl⟩ := List.mem_map.mp member
  exact c.toNat_lt

theorem FatDirectoryEntry.ofBytes_bytes (e : FatDirectoryEntry) : ofBytes e.bytes = e := by
  have fits : List.Forall₂ Fits layout e.fields := by
    simp only [layout, fields, List.forall₂_cons, Fits]
    exact ⟨e.attr.toNat_lt, e.reserved.toNat_lt, e.centisecond.toNat_lt, e.creationTime.toNat_lt, e.creationDate.toNat_lt,
      e.lastAccessDate.toNat_lt, e.firstClusterNumberHigh.toNat_lt, e.lastModTime.toNat_lt, e.lastModDate.toNat_lt,
      e.firstClusterNumberLow.toNat_lt, e.size.toNat_lt, .nil⟩
  have read : unpack layout (e.bytes.drop 11) = e.fields := by
    rw [bytes, List.drop_left' e.name.length_toList, unpack_pack fits]
  have name : (Vector.ofFn fun i : Fin 11 => e.bytes.getD i 0) = e.name := by
    ext i small
    rw [Vector.getElem_ofFn, bytes, List.getD_eq_getElem?_getD, List.getElem?_append_left (by simpa using small)]
    simp [small]
  simp only [ofBytes, read, name, fields, List.getD_cons_zero, List.getD_cons_succ, UInt8.ofNat_toNat, UInt16.ofNat_toNat,
    UInt32.ofNat_toNat]

theorem FatLfnEntry.ofBytes_bytes (e : FatLfnEntry) : ofBytes e.bytes = e := by
  have fits : List.Forall₂ Fits layout e.fields := by
    have one : ∀ c : UInt8, Fits 1 c.toNat := fun c => c.toNat_lt
    refine .cons (one _) ?_
    refine List.rel_append (fits_uint16 e.chars1) ?_
    refine .cons (one _) (.cons (one _) (.cons (one _) ?_))
    refine List.rel_append (fits_uint16 e.chars2) ?_
    exact .cons e.zero.toNat_lt (fits_uint16 e.chars3)
  have read : unpack layout e.bytes = e.fields := unpack_pack fits
  have chars1 : (Vector.ofFn fun i : Fin 5 => UInt16.ofNat (e.fields.getD (1 + i) 0)) = e.chars1 := by
    ext i small
    simp [fields, small, Nat.add_comm 1 i, List.getElem?_append]
  have chars2 : (Vector.ofFn fun i : Fin 6 => UInt16.ofNat (e.fields.getD (9 + i) 0)) = e.chars2 := by
    ext i small
    have past : ¬ i + 8 < 5 := by omega
    simp [fields, small, past, Nat.add_comm 9 i, List.getElem?_append]
  have chars3 : (Vector.ofFn fun i : Fin 2 => UInt16.ofNat (e.fields.getD (16 + i) 0)) = e.chars3 := by
    ext i small
    have past₁ : ¬ i + 15 < 5 := by omega
    have past₂ : ¬ i + 7 < 6 := by omega
    simp [fields, small, past₁, past₂, Nat.add_comm 16 i, List.getElem?_append]
  simp only [ofBytes, read, chars1, chars2, chars3]
  simp [fields]

theorem decode_take_one (bytes : List UInt8) (k : Nat) : UInt8.ofNat (decode ((bytes.drop k).take 1)) = bytes.getD k 0 := by
  rcases lt_or_ge k bytes.length with inside | outside
  · rw [List.drop_eq_getElem_cons inside, List.take_succ_cons, decode, List.take_zero, decode, Nat.mul_zero, Nat.add_zero,
      UInt8.ofNat_toNat]
    simp [inside]
  · simp [List.drop_eq_nil_of_le outside, decode, outside]

theorem FatLfnEntry.order_ofBytes (bytes : List UInt8) : (ofBytes bytes).order = bytes.getD 0 0 :=
  decode_take_one bytes 0

theorem FatLfnEntry.attr_ofBytes (bytes : List UInt8) : (ofBytes bytes).attr = bytes.getD 11 0 := by
  rw [← decode_take_one bytes 11]
  simp only [ofBytes, layout, List.replicate, List.cons_append, List.nil_append, unpack, List.drop_drop]
  rfl

theorem FatDirectoryEntry.attr_ofBytes (bytes : List UInt8) : (ofBytes bytes).attr = bytes.getD 11 0 :=
  decode_take_one bytes 11

theorem FatDirectoryEntry.name_ofBytes (bytes : List UInt8) : (ofBytes bytes).name[0] = bytes.getD 0 0 := by
  simp [ofBytes]

/-! ## `parse_lfn` -/

variable {p : Parse} {buff : Int → UInt8} {offset : Int}

theorem parseChars_full (full : ¬ p.offset < filenameLimit) (chars : List UInt16) : parseChars chars p = (false, p) := by
  cases chars with
  | nil => rfl
  | cons c chars => rw [parseChars, if_neg full]

theorem parseChars_append (l r : List UInt16) (p : Parse) : (parseChars (l ++ r) p).2 =
    if (parseChars l p).1 then (parseChars l p).2 else (parseChars r (parseChars l p).2).2 := by
  induction l generalizing p with
  | nil => rfl
  | cons c l ih =>
      by_cases inside : p.offset < filenameLimit
      · rw [List.cons_append, parseChars, if_pos inside, parseChars, if_pos inside]
        by_cases zero : c = 0
        · simp [zero]
        · simp only [if_neg zero]
          exact ih _
      · rw [parseChars_full inside, parseChars_full inside, parseChars_full inside]
        rfl

def FatLfnEntry.chars (e : FatLfnEntry) : List UInt16 := e.chars1.toList ++ (e.chars2.toList ++ e.chars3.toList)

theorem parseLfn_eq (lfn : FatLfnEntry) (buff : Int → UInt8) (offset : Int) :
    parseLfn lfn buff offset = (parseChars lfn.chars ⟨buff, offset, 0⟩).2 := by
  rw [FatLfnEntry.chars, parseChars_append, parseChars_append]
  rfl

@[simp] theorem putText_nil (buff : Int → UInt8) (offset : Int) : putText buff offset [] = buff := by
  funext i
  rw [putText, if_neg (by simp)]

theorem putText_cons (buff : Int → UInt8) (offset : Int) (b : UInt8) (text : List UInt8) :
    putText buff offset (b :: text) = putText (Function.update buff offset b) (offset + 1) text := by
  funext i
  rw [putText, putText]
  rcases lt_trichotomy i offset with before | rfl | after
  · rw [if_neg (by omega), if_neg (by omega), Function.update_of_ne (by omega)]
  · rw [if_pos (by simp), if_neg (by omega), Function.update_self, Int.sub_self]
    rfl
  · obtain ⟨k, rfl⟩ : ∃ k : Nat, i = offset + 1 + k := ⟨(i - offset - 1).toNat, by omega⟩
    rw [Function.update_of_ne (by omega)]
    have index : (offset + 1 + k - offset).toNat = k + 1 := by omega
    have index' : (offset + 1 + k - (offset + 1)).toNat = k := by omega
    rw [index, index', List.getD_cons_succ]
    refine if_congr ?_ rfl rfl
    rw [List.length_cons]
    omega

theorem parseChars_text {text : List UInt16} (nonzero : ∀ c ∈ text, c ≠ 0)
    (room : p.offset + text.length ≤ filenameLimit) (rest : List UInt16) :
    parseChars (text ++ rest) p =
      parseChars rest ⟨putText p.buff p.offset (text.map (·.toUInt8)), p.offset + text.length, p.cnt + text.length⟩ := by
  induction text generalizing p with
  | nil => simp
  | cons c text ih =>
      rw [List.length_cons] at room
      rw [List.cons_append, parseChars, if_pos (by omega)]
      simp only [if_neg (nonzero c List.mem_cons_self)]
      rw [ih (fun c member => nonzero c (List.mem_cons_of_mem _ member)) (by simp only; omega)]
      rw [List.map_cons, putText_cons, List.length_cons]
      have end₁ : p.offset + 1 + text.length = p.offset + ((text.length + 1 : Nat) : Int) := by omega
      have end₂ : p.cnt + 1 + text.length = p.cnt + (text.length + 1) := by omega
      simp only [end₁, end₂]

end Kerosene.Fat32

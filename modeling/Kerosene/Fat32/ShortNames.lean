import Kerosene.Fat32.DirectoryAdd

/-!
# Short names
-/

namespace Kerosene.Fat32
open Lib
open Ramfs (Name filenameLimit fsNodeTypeMask fsNodeTypeDirectory)
open Ramfs.Heap (dot dotdot dots_bytes)
variable {name text : Name} {old : Bytes} {s : Decoder} {skip : UInt8 → Bool} {room i p : Nat}

/-! ## Strings in a `name` field -/

theorem cString_eq {buff : Bytes} (nonzero : ∀ c ∈ text, c ≠ 0) (short : text.length < filenameLimit)
    (same : ∀ j < text.length, buff j = text.getD j 0) (stop : buff text.length = 0) : cString buff = text := by
  obtain ⟨rest, limit⟩ : ∃ rest, filenameLimit = text.length + (rest + 1) := ⟨filenameLimit - text.length - 1, by omega⟩
  have front : (List.range text.length).map buff = text := by
    apply List.ext_getElem
    · simp
    · intro j _ inside
      rw [List.getElem_map, List.getElem_range, same j inside]
      simp [inside]
  rw [cString, limit, List.range_add, List.map_append, front, List.range_succ_eq_map, List.map_cons, List.map_cons,
    List.takeWhile_append_of_pos (by simpa using nonzero), Nat.add_zero, stop]
  simp

theorem putText_inside {buff : Int → UInt8} {offset : Int} (inside : i < text.length) :
    putText buff offset text (offset + i) = text.getD i 0 := by
  rw [putText, if_pos (by omega)]
  congr 1
  omega

theorem cString_copyName (nonzero : ∀ c ∈ text, c ≠ 0) (short : text.length < filenameLimit)
    (stored : ∀ j < text.length, s.entryName j = text.getD j 0)
    (stops : s.namelen = text.length ∨ s.namelen = text.length + 1 ∧ s.entryName text.length = 0) :
    cString (s.copyName old) = text := by
  have small : text.length < 256 := short
  rcases stops with len | ⟨len, stop⟩
  · have fits : toUnsigned s.namelen = text.length := by
      rw [len, toUnsigned]
      omega
    refine cString_eq nonzero short (fun j inside => ?_) ?_
    · rw [Decoder.copyName, fits, if_pos inside, stored j inside]
    · rw [Decoder.copyName, fits, if_neg (lt_irrefl _), if_pos rfl]
  · have fits : toUnsigned s.namelen = text.length + 1 := by
      rw [len, toUnsigned]
      omega
    refine cString_eq nonzero short (fun j inside => ?_) ?_
    · rw [Decoder.copyName, fits, if_pos (by omega), stored j inside]
    · rw [Decoder.copyName, fits, if_pos (Nat.lt_succ_self _), stop]

/-! ## What the decoder makes of a short name -/

def sfnText (dir : FatDirectoryEntry) : Name :=
  let base := (dir.name.toList.take 8).takeWhile (· ≠ 0x20)
  let ext := (dir.name.toList.drop 8).takeWhile (· ≠ 0x20)
  if ext = [] then base else base ++ 0x2e :: ext

theorem sfnText_length (dir : FatDirectoryEntry) : (sfnText dir).length ≤ 12 := by
  have base := (List.takeWhile_prefix (l := dir.name.toList.take 8) (· ≠ 0x20)).length_le
  have ext := (List.takeWhile_prefix (l := dir.name.toList.drop 8) (· ≠ 0x20)).length_le
  simp only [List.length_take, List.length_drop, Vector.length_toList] at base ext
  rw [sfnText]
  split_ifs
  · omega
  · rw [List.length_append, List.length_cons]
    omega

theorem cString_sfn {dir : FatDirectoryEntry} (nonzero : ∀ c ∈ sfnText dir, c ≠ 0) (s : Decoder) (old : Bytes) :
    cString ((s.processSfnEntry dir).copyName old) = sfnText dir := by
  have short := sfnText_length dir
  have stored : ∀ j < (sfnText dir).length + 1,
      (s.processSfnEntry dir).entryName j = (sfnText dir ++ [0]).getD j 0 := by
    intro j inside
    have here : putText s.entryName 0 (sfnText dir ++ [0]) (0 + j) = _ :=
      putText_inside (by rw [List.length_append, List.length_singleton]; exact inside)
    rw [Int.zero_add] at here
    exact here
  refine cString_copyName nonzero (by rw [filenameLimit]; omega) (fun j inside => ?_) (.inr ⟨?_, ?_⟩)
  · rw [stored j (by omega), List.getD_eq_getElem?_getD, List.getElem?_append_left inside]
    rfl
  · change ((sfnText dir ++ [0]).length : Int) = _
    rw [List.length_append, List.length_singleton]
    rfl
  · rw [stored _ (Nat.lt_succ_self _)]
    simp

/-! ## The names that `is_valid_sfn` accepts -/

/-- Neither a dot nor a character that forces a long name. -/
structure Plain (c : UInt8) : Prop where
  lower : isLower c = false
  special : isSpecial c = false
  dot : c ≠ 0x2e

theorem Plain.notSpace {c : UInt8} (plain : Plain c) : c ≠ 0x20 := by
  rintro rfl
  exact absurd plain.special (by decide)

theorem dotLoop_some {q : Nat} {r : Option Nat} (done : dotLoop i (some q) name = some r) :
    r = some q ∧ ∀ c ∈ name, Plain c := by
  induction name generalizing i with
  | nil =>
      cases done
      exact ⟨rfl, List.forall_mem_nil _⟩
  | cons c name ih =>
      rw [dotLoop] at done
      simp only [Option.isSome_some, if_true] at done
      split_ifs at done with lower special dot
      obtain ⟨same, plain⟩ := ih done
      exact ⟨same, List.forall_mem_cons.mpr ⟨⟨Bool.eq_false_of_not_eq_true lower, Bool.eq_false_of_not_eq_true special, dot⟩, plain⟩⟩

theorem dotLoop_none {r : Option Nat} (done : dotLoop i none name = some r) :
    (r = none ∧ ∀ c ∈ name, Plain c) ∨ ∃ base ext, name = base ++ 0x2e :: ext ∧ r = some (i + base.length) ∧
      (∀ c ∈ base, Plain c) ∧ ∀ c ∈ ext, Plain c := by
  induction name generalizing i with
  | nil =>
      cases done
      exact .inl ⟨rfl, List.forall_mem_nil _⟩
  | cons c name ih =>
      rw [dotLoop] at done
      simp only [Option.isSome_none, Bool.false_eq_true, if_false] at done
      split_ifs at done with lower special isDot
      · obtain ⟨rfl, plain⟩ := dotLoop_some done
        exact .inr ⟨[], name, by rw [isDot]; rfl, by simp, List.forall_mem_nil _, plain⟩
      · have plain : Plain c := ⟨Bool.eq_false_of_not_eq_true lower, Bool.eq_false_of_not_eq_true special, isDot⟩
        rcases ih done with ⟨none, all⟩ | ⟨base, ext, rfl, rfl, first, last⟩
        · exact .inl ⟨none, List.forall_mem_cons.mpr ⟨plain, all⟩⟩
        · refine .inr ⟨c :: base, ext, rfl, ?_, List.forall_mem_cons.mpr ⟨plain, first⟩, last⟩
          rw [List.length_cons, Nat.add_right_comm, Nat.add_assoc]

/-- An 8.3 name, as the code sees it. -/
inductive Sfn : Name → Prop
  | bare {base : Name} (nonempty : base ≠ []) (short : base.length ≤ 8) (plain : ∀ c ∈ base, Plain c) : Sfn base
  | dotted {base ext : Name} (nonempty : base ≠ []) (short : base.length ≤ 8) (plain : ∀ c ∈ base, Plain c)
      (extShort : ext.length ≤ 3) (extPlain : ∀ c ∈ ext, Plain c) : Sfn (base ++ 0x2e :: ext)

theorem sfn_of_isValidSfn (valid : isValidSfn name) : Sfn name := by
  rw [isValidSfn] at valid
  split_ifs at valid with len
  have nonempty : name ≠ [] := fun empty => len (.inl (by rw [empty]; rfl))
  cases done : dotLoop 0 none name with
  | none => simp [done] at valid
  | some r =>
      rcases dotLoop_none done with ⟨rfl, plain⟩ | ⟨base, ext, rfl, rfl, first, last⟩
      · exact .bare nonempty (by simpa [done] using valid) plain
      · simp only [done, List.length_append, List.length_cons, Nat.zero_add, Bool.and_eq_true, decide_eq_true_eq] at valid
        obtain ⟨⟨short, extShort⟩, front⟩ := valid
        refine .dotted (fun empty => front (by rw [empty]; rfl)) short first (by omega) last

/-! ## The pieces of a short name -/

theorem copyKept_of_none (none : ∀ c ∈ text, skip c = false) (fits : text.length ≤ room) : copyKept skip room text = text := by
  induction text generalizing room with
  | nil => cases room <;> rfl
  | cons c text ih =>
      obtain ⟨room, rfl⟩ := Nat.exists_eq_add_one.mpr (Nat.zero_lt_of_lt fits)
      obtain ⟨first, others⟩ := List.forall_mem_cons.mp none
      rw [copyKept, first, if_neg Bool.false_ne_true, ih others (Nat.succ_le_succ_iff.mp fits)]

theorem mem_copyKept {c : UInt8} (member : c ∈ copyKept skip room text) : skip c = false ∧ c ∈ text := by
  induction text generalizing room with
  | nil => cases room <;> cases member
  | cons b text ih =>
      cases room with
      | zero => cases member
      | succ room =>
          rw [copyKept] at member
          split_ifs at member with skipped
          · exact ⟨(ih member).1, List.mem_cons_of_mem _ (ih member).2⟩
          · rcases List.mem_cons.mp member with rfl | later
            · exact ⟨Bool.eq_false_of_not_eq_true skipped, List.mem_cons_self⟩
            · exact ⟨(ih later).1, List.mem_cons_of_mem _ (ih later).2⟩

theorem length_copyKept (skip : UInt8 → Bool) (room : Nat) (text : Name) : (copyKept skip room text).length ≤ room := by
  induction text generalizing room with
  | nil => cases room <;> exact Nat.zero_le _
  | cons c text ih =>
      cases room with
      | zero => exact Nat.zero_le _
      | succ room =>
          rw [copyKept]
          split_ifs
          · exact ih _
          · exact Nat.succ_le_succ (ih _)

theorem length_padded (fits : text.length ≤ i) : (padded i text).length = i := by
  rw [padded, List.length_append, List.length_replicate]
  omega

theorem takeWhile_padded (solid : ∀ c ∈ text, c ≠ 0x20) (n : Nat) : (padded n text).takeWhile (· ≠ 0x20) = text := by
  rw [padded, List.takeWhile_append_of_pos (by simpa using solid)]
  cases n - text.length with
  | zero => simp
  | succ k => simp [List.replicate_succ]

theorem lastDot_zero (none : ∀ c ∈ name, c ≠ 0x2e) (n : Nat) : lastDot name n = 0 := by
  induction n with
  | zero => rfl
  | succ n ih =>
      rw [lastDot, if_neg, ih]
      rcases lt_or_ge (n + 1) name.length with inside | outside
      · rw [List.getD_eq_getElem?_getD, List.getElem?_eq_getElem inside]
        exact none _ (List.getElem_mem inside)
      · rw [List.getD_eq_getElem?_getD, List.getElem?_eq_none outside]
        decide

theorem lastDot_eq {base ext : Name} (nonempty : base ≠ []) (none : ∀ c ∈ ext, c ≠ 0x2e) {k : Nat} (inside : k ≤ ext.length) :
    lastDot (base ++ 0x2e :: ext) (base.length + k) = base.length := by
  obtain ⟨p, length⟩ := Nat.exists_eq_add_one.mpr (List.length_pos_of_ne_nil nonempty)
  induction k with
  | zero =>
      rw [Nat.add_zero, length, lastDot, ← length, if_pos]
      simp
  | succ k ih =>
      have past : (base ++ 0x2e :: ext).getD (base.length + k + 1) 0 = ext[k] := by
        rw [List.getD_eq_getElem?_getD, List.getElem?_append_right (by omega), Nat.add_assoc, Nat.add_sub_cancel_left,
          List.getElem?_cons_succ, List.getElem?_eq_getElem inside]
        rfl
      rw [← Nat.add_assoc, lastDot, past, if_neg (none _ (List.getElem_mem inside)), ih (by omega)]

/-! ## The round trip -/

theorem upper_ne {c b : UInt8} (other : c ≠ b) (notUpper : isLower (b + 0x20) = false) : upper c ≠ b := by
  rw [upper]
  split_ifs with lower
  · intro same
    rw [← same, UInt8.sub_add_cancel, lower] at notUpper
    cases notUpper
  · exact other

theorem upper_of_not_lower {c : UInt8} (notLower : isLower c = false) : upper c = c := by
  rw [upper, notLower, if_neg Bool.false_ne_true]

theorem upper_padded (plain : ∀ c ∈ text, Plain c) (n : Nat) : (padded n text).map upper = padded n text := by
  rw [padded, List.map_append, List.map_replicate, upper_of_not_lower (c := 0x20) (by decide)]
  congr 1
  exact List.map_congr_left (fun c member => upper_of_not_lower (plain c member).lower) |>.trans (List.map_id text)

theorem sfnText_eq {dir : FatDirectoryEntry} {base ext : Name} (name : dir.name.toList = padded 8 base ++ padded 3 ext)
    (fits : base.length ≤ 8) (base' : ∀ c ∈ base, c ≠ 0x20) (ext' : ∀ c ∈ ext, c ≠ 0x20) :
    sfnText dir = if ext = [] then base else base ++ 0x2e :: ext := by
  have front := length_padded fits
  rw [sfnText, name, List.take_left' front, List.drop_left' front, takeWhile_padded base', takeWhile_padded ext']

theorem length_shortName (name : Name) (isDir : Bool) : (shortName name isDir).length = 11 := by
  rw [shortName]
  split_ifs with dots
  · rcases dots with rfl | rfl
    · rw [dots_bytes.1]
      decide
    · rw [dots_bytes.2]
      decide
  · have ext : ∀ (c : Bool) (l : Name), (padded 3 (if c then copyKept isSpecial 3 l else [])).length = 3 := by
      intro c l
      apply length_padded
      cases c
      · exact Nat.zero_le _
      · exact length_copyKept ..
    have base : ∀ l : Name, (padded 8 (copyKept (fun c => isSpecial c || c == 0x2e) 8 l)).length = 8 := fun l =>
      length_padded (length_copyKept ..)
    simp only [List.length_map, List.length_append, ext]
    split_ifs
    all_goals simp [base]

theorem shortEntry_name {dir : FatDirectoryEntry} {startCluster size : UInt32} {attr reserved : UInt8} {clock : Clock}
    (written : shortEntry name startCluster attr size clock reserved = some dir) :
    dir.name.toList = shortName name (attr &&& fatAttrDirectory ≠ 0) ∧ dir.attr = attr ∧ dir.size = size ∧
      dir.firstClusterNumberHigh = (startCluster >>> 16).toUInt16 ∧
      dir.firstClusterNumberLow = (startCluster &&& 0xffff).toUInt16 := by
  rw [shortEntry] at written
  obtain ⟨created, _, written⟩ := Option.bind_eq_some_iff.mp written
  obtain ⟨never, _, written⟩ := Option.bind_eq_some_iff.mp written
  cases written
  refine ⟨?_, rfl, rfl, rfl, rfl⟩
  apply List.ext_getElem
  · rw [Vector.length_toList, length_shortName]
  · intro i _ inside
    rw [Vector.getElem_toList, Vector.getElem_ofFn, List.getD_eq_getElem?_getD, List.getElem?_eq_getElem inside]
    rfl

theorem not_dots (valid : isValidSfn name) : ¬ (name = dot ∨ name = dotdot) := by
  rintro (rfl | rfl)
  · rw [dots_bytes.1] at valid
    exact absurd valid (by decide)
  · rw [dots_bytes.2] at valid
    exact absurd valid (by decide)

theorem shortName_split {base ext : Name} (valid : isValidSfn (base ++ 0x2e :: ext)) (nonempty : base ≠ [])
    (short : base.length ≤ 8) (plain : ∀ c ∈ base, Plain c) (extShort : ext.length ≤ 3) (extPlain : ∀ c ∈ ext, Plain c) :
    shortName (base ++ 0x2e :: ext) false = padded 8 base ++ padded 3 ext := by
  have position : lastDot (base ++ 0x2e :: ext) ((base ++ 0x2e :: ext).length - 1) = base.length := by
    rw [List.length_append, List.length_cons]
    exact lastDot_eq nonempty (fun c member => (extPlain c member).dot) le_rfl
  have split : (decide (base.length > 0) && !false) = true := by
    simpa using List.length_pos_of_ne_nil nonempty
  have behind : (base ++ 0x2e :: ext).drop (base.length + 1) = ext := by
    rw [← List.drop_drop, List.drop_left]
    rfl
  have kept : copyKept isSpecial 3 ext = ext := copyKept_of_none (fun c member => (extPlain c member).special) extShort
  have keptBase : copyKept (fun c => isSpecial c || c == 0x2e) 8 base = base := by
    refine copyKept_of_none (fun c member => ?_) short
    rw [(plain c member).special, Bool.false_or]
    exact beq_false_of_ne (plain c member).dot
  have noTail : ¬ (base.length > 8 ∨ false = true ∧ (base ++ 0x2e :: ext).length > 8) := by
    rintro (long | ⟨dir, _⟩)
    · omega
    · cases dir
  rw [shortName, if_neg (not_dots valid)]
  simp only [position, split, if_true, behind, kept, List.take_left, keptBase, if_neg noTail]
  rw [List.map_append, upper_padded plain, upper_padded extPlain]

theorem shortName_bare (valid : isValidSfn name) (short : name.length ≤ 8) (plain : ∀ c ∈ name, Plain c) (isDir : Bool) :
    shortName name isDir = padded 8 name ++ padded 3 [] := by
  have position : lastDot name (name.length - 1) = 0 := lastDot_zero (fun c member => (plain c member).dot) _
  have kept : copyKept (fun c => isSpecial c || c == 0x2e) 8 name = name := by
    refine copyKept_of_none (fun c member => ?_) short
    rw [(plain c member).special, Bool.false_or]
    exact beq_false_of_ne (plain c member).dot
  have noTail : ¬ (0 > 8 ∨ isDir = true ∧ name.length > 8) := by omega
  rw [shortName, if_neg (not_dots valid)]
  simp only [position, gt_iff_lt, lt_irrefl, decide_false, Bool.false_and, Bool.false_eq_true, if_false, kept]
  rw [if_neg (by simpa using noTail), List.map_append, upper_padded plain, upper_padded (List.forall_mem_nil _)]

theorem shortName_directory (valid : isValidSfn name) (nonzero : ∀ c ∈ name, c ≠ 0) :
    ∃ base, shortName name true = base ++ padded 3 [] ∧ base.length = 8 ∧ ∀ c ∈ base, c ≠ 0x2e ∧ c ≠ 0 := by
  have kept : ∀ c ∈ padded 8 (copyKept (fun c => isSpecial c || c == 0x2e) 8 name), c ≠ 0x2e ∧ c ≠ 0 := by
    intro c member
    rcases List.mem_append.mp member with inside | fill
    · obtain ⟨skip, here⟩ := mem_copyKept inside
      refine ⟨fun isDot => ?_, nonzero c here⟩
      rw [isDot] at skip
      exact absurd skip (by decide)
    · rw [List.eq_of_mem_replicate fill]
      decide
  have length : (padded 8 (copyKept (fun c => isSpecial c || c == 0x2e) 8 name)).length = 8 := length_padded (length_copyKept ..)
  have mapped : ∀ l : Name, (∀ c ∈ l, c ≠ 0x2e ∧ c ≠ 0) → ∀ c ∈ l.map upper, c ≠ 0x2e ∧ c ≠ 0 := by
    intro l all c member
    obtain ⟨b, inside, rfl⟩ := List.mem_map.mp member
    exact ⟨upper_ne (all b inside).1 (by decide), upper_ne (all b inside).2 (by decide)⟩
  have none : (padded 3 []).map upper = padded 3 [] := upper_padded (List.forall_mem_nil _) 3
  rw [shortName, if_neg (not_dots valid)]
  simp only [Bool.not_true, Bool.and_false, Bool.false_eq_true, if_false, List.map_append, none]
  refine ⟨_, rfl, ?_, ?_⟩
  · split_ifs
    · simp [length]
    · rw [List.length_map, length]
  · apply mapped
    split_ifs
    · intro c member
      rcases List.mem_append.mp member with front | tail
      · exact kept c (List.mem_of_mem_take front)
      · rcases List.mem_pair.mp tail with rfl | rfl <;> decide
    · exact kept

theorem sfnText_spelled {dir : FatDirectoryEntry} {isDir : Bool} (nonzero : ∀ c ∈ name, c ≠ 0) (valid : isValidSfn name)
    (stored : dir.name.toList = shortName name isDir) :
    (0x2e ∈ name → isDir = false ∧ name.getLast? ≠ some 0x2e) ∧ sfnText dir = name ∨
      ¬ (0x2e ∈ name → isDir = false ∧ name.getLast? ≠ some 0x2e) ∧ 0x2e ∈ name ∧ ∀ c ∈ sfnText dir, c ≠ 0x2e ∧ c ≠ 0 := by
  cases sfn_of_isValidSfn valid with
  | bare nonempty short plain =>
      rw [shortName_bare valid short plain] at stored
      have text := sfnText_eq stored short (fun c member => (plain c member).notSpace) (List.forall_mem_nil _)
      rw [if_pos rfl] at text
      exact .inl ⟨fun member => absurd rfl (plain _ member).dot, text⟩
  | @dotted base ext nonempty short plain extShort extPlain =>
      have isDot : 0x2e ∈ base ++ 0x2e :: ext := List.mem_append_right _ List.mem_cons_self
      cases isDir with
      | false =>
          rw [shortName_split valid nonempty short plain extShort extPlain] at stored
          have text := sfnText_eq stored short (fun c member => (plain c member).notSpace)
            (fun c member => (extPlain c member).notSpace)
          rcases ext.eq_nil_or_concat with rfl | ⟨front, c, rfl⟩
          · -- the dot at the end is lost
            rw [if_pos rfl] at text
            refine .inr ⟨fun kept => absurd (by simp) (kept isDot).2, isDot, fun c member => ?_⟩
            rw [text] at member
            exact ⟨(plain c member).dot, nonzero c (List.mem_append_left _ member)⟩
          · rw [if_neg (by simp)] at text
            have notDot := (extPlain c (by simp)).dot
            have last : (base ++ 0x2e :: front.concat c).getLast? = some c := by
              rw [List.concat_eq_append, ← List.cons_append, ← List.append_assoc, List.getLast?_concat]
            rw [last]
            exact .inl ⟨fun _ => ⟨rfl, fun same => notDot (Option.some.inj same)⟩, text⟩
      | true =>
          obtain ⟨front, name, length, kept⟩ := shortName_directory valid nonzero
          have text : sfnText dir = front.takeWhile (· ≠ 0x20) := by
            rw [sfnText, stored, name, List.take_left' length, List.drop_left' length,
              takeWhile_padded (List.forall_mem_nil _), if_pos rfl]
          refine .inr ⟨fun kept => absurd (kept isDot).1 (by decide), isDot, fun c member => ?_⟩
          rw [text] at member
          exact kept c ((List.takeWhile_prefix _).subset member)

theorem decodes_iff {dir : FatDirectoryEntry} {isDir : Bool} (nonzero : ∀ c ∈ name, c ≠ 0) (valid : isValidSfn name)
    (stored : dir.name.toList = shortName name isDir) (s : Decoder) (old : Bytes) :
    cString ((s.processSfnEntry dir).copyName old) = name ↔
      (0x2e ∈ name → isDir = false ∧ name.getLast? ≠ some 0x2e) := by
  rcases sfnText_spelled nonzero valid stored with ⟨spelled, text⟩ | ⟨lost, isDot, solid⟩
  · rw [cString_sfn (by rw [text]; exact nonzero), text]
    exact iff_of_true rfl spelled
  · rw [cString_sfn fun c member => (solid c member).2]
    refine iff_of_false (fun same => ?_) lost
    rw [← same] at isDot
    exact (solid _ isDot).1 rfl

theorem toFatAttr_directory (flags : BitVec 32) :
    toFatAttr flags &&& fatAttrDirectory ≠ 0 ↔ flags &&& fsNodeTypeMask = fsNodeTypeDirectory := by
  rw [toFatAttr]
  by_cases directory : flags &&& fsNodeTypeMask = fsNodeTypeDirectory
  · rw [if_pos directory]
    split_ifs
    · exact ⟨fun _ => directory, fun _ => by decide⟩
    · exact ⟨fun _ => directory, fun _ => by decide⟩
  · rw [if_neg directory]
    split_ifs
    · exact ⟨fun other => absurd (by decide) other, fun same => absurd same directory⟩
    · exact ⟨fun other => absurd (by decide) other, fun same => absurd same directory⟩

/-- An 8.3 name comes back from its only entry, unless it is the name of a directory with a dot in it or ends with
a dot. -/
theorem short_name_round_trip {flags : BitVec 32} {dir : FatDirectoryEntry} {startCluster size : UInt32} {reserved : UInt8}
    {clock : Clock} (nonzero : ∀ c ∈ name, c ≠ 0) (valid : isValidSfn name)
    (written : shortEntry name startCluster (toFatAttr flags) size clock reserved = some dir) (entryName : Int → UInt8)
    (old : Bytes) :
    lfnEntryCount name = 0 ∧ (cString (((Decoder.start entryName).processSfnEntry dir).copyName old) = name ↔
      (0x2e ∈ name → flags &&& fsNodeTypeMask ≠ fsNodeTypeDirectory ∧ name.getLast? ≠ some 0x2e)) := by
  refine ⟨if_pos (.inr (.inr valid)), ?_⟩
  rw [decodes_iff nonzero valid (shortEntry_name written).1, decide_eq_false_iff_not, toFatAttr_directory]

-- `FOO.TXT`
def fooTxt : Name := [0x46, 0x4f, 0x4f, 0x2e, 0x54, 0x58, 0x54]

theorem short_name_round_trip_foo_txt : ∃ dir, shortEntry fooTxt 5 (toFatAttr 0#32) 10 ⟨0, 0⟩ 0 = some dir ∧
    cString (((Decoder.start fun _ => 0x41).processSfnEntry dir).copyName fun _ => 0x42) = fooTxt := by
  cases written : shortEntry fooTxt 5 (toFatAttr 0#32) 10 ⟨0, 0⟩ 0 with
  | none =>
      have some : (shortEntry fooTxt 5 (toFatAttr 0#32) 10 ⟨0, 0⟩ 0).isSome := by decide
      rw [written] at some
      cases some
  | some dir =>
      exact ⟨dir, rfl, ((short_name_round_trip (by simp [fooTxt]) (by decide) written _ _).2).mpr (by decide)⟩

/-- A directory `FOO.TXT` is read back as `FOOTXT`. -/
theorem directory_loses_dot : isValidSfn fooTxt ∧
    (shortEntry fooTxt 5 (toFatAttr fsNodeTypeDirectory) 0 ⟨0, 0⟩ 0).map
      (fun dir => cString (((Decoder.start fun _ => 0x41).processSfnEntry dir).copyName fun _ => 0x42)) =
      some [0x46, 0x4f, 0x4f, 0x54, 0x58, 0x54] ∧ fooTxt ≠ [0x46, 0x4f, 0x4f, 0x54, 0x58, 0x54] := by
  decide +kernel

end Kerosene.Fat32

import Kerosene.Elf.Isolation

/-!
# What a load reads of the file

The buffer ends with the file; what the kernel heap has behind it can be read all the same. A load keeps to the file when
it would go the same way if no byte behind the file could be read.
-/

namespace Kerosene.Elf
open Mem AddressSpace Spaces

def upTo (image : Image) (size : Word) : Image := fun offset => if offset < size then image offset else none

variable {image : Image} {size : Word}

theorem upTo_of_lt {offset : Word} (inside : offset.toNat < size.toNat) : upTo image size offset = image offset :=
  if_pos (BitVec.lt_def.mpr inside)

theorem upTo_of_not_lt {offset : Word} (outside : ¬ offset.toNat < size.toNat) : upTo image size offset = none :=
  if_neg fun less => outside (BitVec.lt_def.mp less)

theorem byte_upTo (image : Image) (size offset : Word) :
    upTo image size offset = if offset.toNat + 1 ≤ size.toNat then image offset else none := by
  split_ifs with inside
  · exact upTo_of_lt inside
  · exact upTo_of_not_lt inside

theorem read16_upTo (image : Image) (size offset : Word) :
    read16 (upTo image size) offset = if offset.toNat + 2 ≤ size.toNat then read16 image offset else none := by
  have bound := size.isLt
  have next : (offset + 1#32).toNat = (offset.toNat + 1) % 2 ^ 32 := BitVec.toNat_add ..
  split_ifs with inside
  · rw [read16, upTo_of_lt (by omega), upTo_of_lt (by omega), read16]
  · by_cases first : offset.toNat < size.toNat
    · rw [read16, upTo_of_not_lt (show ¬ (offset + 1#32).toNat < size.toNat by omega)]
      cases upTo image size offset <;> rfl
    · rw [read16, upTo_of_not_lt first]
      rfl

theorem read32_upTo (image : Image) (size offset : Word) :
    read32 (upTo image size) offset = if offset.toNat + 4 ≤ size.toNat then read32 image offset else none := by
  have bound := size.isLt
  have next : (offset + 2#32).toNat = (offset.toNat + 2) % 2 ^ 32 := BitVec.toNat_add ..
  rw [read32, read16_upTo, read16_upTo, read32]
  split_ifs with low high inside inside inside
  · rfl
  · omega
  · omega
  · cases read16 image offset <;> rfl
  · omega
  · rfl
  · omega
  · rfl

-- how far `elf_validate` reads
def checkedBytes (image : Image) : Nat :=
  if read32 image 0#32 ≠ some 0x464c457f#32 then 4
  else if image 4#32 ≠ some 1#8 then 5
  else if image 5#32 ≠ some 1#8 then 6
  else 20

theorem check_upTo {α : Type} [DecidableEq α] (field : Option α) (wanted : α) (err : ElfErr) {n m : Nat} (further : n ≤ m)
    {rest rest' : Option ElfErr} (later : rest' = if m ≤ size.toNat then rest else none) :
    ((if n ≤ size.toNat then field else none).bind fun value => if value ≠ wanted then some err else rest') =
      if (if field ≠ some wanted then n else m) ≤ size.toNat then field.bind fun value => if value ≠ wanted then some err else rest
      else none := by
  cases field with
  | none => simp
  | some value =>
      by_cases same : value = wanted
      · subst same
        by_cases inside : n ≤ size.toNat
        · simp [inside, later]
        · have outside : ¬ m ≤ size.toNat := fun more => inside (Nat.le_trans further more)
          simp [inside, outside]
      · by_cases inside : n ≤ size.toNat <;> simp [inside, same]

theorem elfValidate_upTo (image : Image) (size : Word) :
    elfValidate (upTo image size) = if checkedBytes image ≤ size.toNat then elfValidate image else none := by
  have set : ((if 20 ≤ size.toNat then read16 image 18#32 else none).bind fun value =>
      if value ≠ 3#32 then some ElfErr.notX86 else some .success) =
        if 20 ≤ size.toNat then
          (read16 image 18#32).bind fun value => if value ≠ 3#32 then some .notX86 else some .success
        else none := by
    split_ifs <;> rfl
  have bits := check_upTo (image 5#32) 1#8 .notLittleEndian (n := 6) (by decide) set
  have endian := check_upTo (image 4#32) 1#8 .not32Bits (n := 5) (by split_ifs <;> decide) bits
  have magic := check_upTo (read32 image 0#32) 0x464c457f#32 .notElf (n := 4) (by split_ifs <;> decide) endian
  rw [checkedBytes]
  refine Eq.trans ?_ magic
  rw [elfValidate, read32_upTo, byte_upTo, byte_upTo, read16_upTo]
  rfl

theorem phField_upTo (image : Image) (size phtab : Word) (i : Nat) (field : Word) :
    phField (upTo image size) phtab i field =
      if (phtab + BitVec.ofNat 32 (32 * i) + field).toNat + 4 ≤ size.toNat then phField image phtab i field else none :=
  read32_upTo image size _

/-! ## The program headers -/

/-- What a load reads of header `i` and of the segment it describes ends with the file. -/
structure HeaderInFile (image : Image) (size phtab : Word) (i : Nat) : Prop where
  type : (phtab + BitVec.ofNat 32 (32 * i) + 0#32).toNat + 4 ≤ size.toNat
  fields : phField image phtab i 0#32 = some elfPtLoad → ∀ field ∈ [4#32, 8#32, 16#32, 20#32],
    (phtab + BitVec.ofNat 32 (32 * i) + field).toNat + 4 ≤ size.toNat
  bytes : phField image phtab i 0#32 = some elfPtLoad → ∀ offset fileSize, phField image phtab i 4#32 = some offset →
    phField image phtab i 16#32 = some fileSize → fileSize = 0#32 ∨ offset.toNat + fileSize.toNat ≤ size.toNat

/-- What is read of header `i` before memory is asked for: the size in memory only where no segment before starts higher. -/
structure HeaderScanned (image : Image) (size phtab : Word) (i : Nat) : Prop where
  type : (phtab + BitVec.ofNat 32 (32 * i) + 0#32).toNat + 4 ≤ size.toNat
  vaddr : phField image phtab i 0#32 = some elfPtLoad → (phtab + BitVec.ofNat 32 (32 * i) + 8#32).toNat + 4 ≤ size.toNat
  memSize : phField image phtab i 0#32 = some elfPtLoad → ∀ v, phField image phtab i 8#32 = some v →
    (∀ j < i, phField image phtab j 0#32 = some elfPtLoad → ∀ w, phField image phtab j 8#32 = some w → w ≤ v) →
      (phtab + BitVec.ofNat 32 (32 * i) + 20#32).toNat + 4 ≤ size.toNat

variable {phtab : Word} {n i : Nat} {l : Load} {b : Bounds}

theorem HeaderInFile.scanned (header : HeaderInFile image size phtab i) : HeaderScanned image size phtab i :=
  ⟨header.type, fun load => header.fields load _ (by decide), fun load _ _ _ => header.fields load _ (by decide)⟩

theorem HeaderInFile.type_upTo (header : HeaderInFile image size phtab i) :
    phField (upTo image size) phtab i 0#32 = phField image phtab i 0#32 := by
  rw [phField_upTo, if_pos header.type]

theorem HeaderInFile.field_upTo (header : HeaderInFile image size phtab i) (load : phField image phtab i 0#32 = some elfPtLoad)
    (field : Word) (read : field ∈ [4#32, 8#32, 16#32, 20#32]) :
    phField (upTo image size) phtab i field = phField image phtab i field := by
  rw [phField_upTo, if_pos (header.fields load field read)]

/-- `b` knows where the highest of the segments before `i` starts. -/
def Bounds.Highest (b : Bounds) (image : Image) (phtab : Word) (i : Nat) : Prop :=
  ∀ v, b.maxaddr ≤ v ↔ ∀ j < i, phField image phtab j 0#32 = some elfPtLoad → ∀ w, phField image phtab j 8#32 = some w → w ≤ v

theorem Bounds.Highest.skip (highest : b.Highest image phtab i) (other : phField image phtab i 0#32 ≠ some elfPtLoad) :
    b.Highest image phtab (i + 1) := by
  intro v
  rw [highest v]
  refine ⟨fun all j before load => ?_, fun all j before => all j (by omega)⟩
  rcases Nat.lt_succ_iff_lt_or_eq.mp before with earlier | rfl
  · exact all j earlier load
  · exact absurd load other

theorem Bounds.Highest.next {b' : Bounds} {vaddr : Word} (highest : b.Highest image phtab i)
    (load : phField image phtab i 0#32 = some elfPtLoad) (start : phField image phtab i 8#32 = some vaddr)
    (new : b'.maxaddr = if vaddr ≥ b.maxaddr then vaddr else b.maxaddr) : b'.Highest image phtab (i + 1) := by
  intro v
  have both : b'.maxaddr ≤ v ↔ b.maxaddr ≤ v ∧ vaddr ≤ v := by
    rw [new]
    simp only [ge_iff_le, BitVec.le_def]
    split_ifs <;> omega
  rw [both, highest v]
  constructor
  · rintro ⟨earlier, here⟩ j before load' w start'
    rcases Nat.lt_succ_iff_lt_or_eq.mp before with less | rfl
    · exact earlier j less load' w start'
    · cases start.symm.trans start'
      exact here
  · exact fun all => ⟨fun j before => all j (by omega), all i (Nat.lt_succ_self i) load vaddr start⟩

theorem findBounds_upTo (scanned : ∀ j, i ≤ j → j < i + n → HeaderScanned image size phtab j) (highest : b.Highest image phtab i) :
    findBounds (upTo image size) phtab n i b = findBounds image phtab n i b := by
  induction n generalizing i b with
  | zero => rfl
  | succ n ih =>
      have header := scanned i (Nat.le_refl i) (by omega)
      have later : ∀ b : Bounds, b.Highest image phtab (i + 1) → _ :=
        fun b => ih (i := i + 1) (b := b) fun j after before => scanned j (by omega) (by omega)
      rw [findBounds, findBounds, phField_upTo, if_pos header.type]
      cases isType : phField image phtab i 0#32 with
      | none => rfl
      | some type =>
          by_cases load : type = elfPtLoad
          · subst load
            rw [phField_upTo, if_pos (header.vaddr isType)]
            cases start : phField image phtab i 8#32 with
            | none => rfl
            | some vaddr =>
                have max : (if vaddr ≤ b.minaddr then { b with minaddr := vaddr } else b).maxaddr = b.maxaddr := by
                  split_ifs <;> rfl
                simp only [Option.bind_eq_bind, Option.bind_some, ne_eq, not_true_eq_false, if_false]
                generalize (if vaddr ≤ b.minaddr then { b with minaddr := vaddr } else b) = lowered at max ⊢
                rw [max]
                by_cases higher : vaddr ≥ b.maxaddr
                · have inside := header.memSize isType vaddr start ((highest vaddr).mp higher)
                  rw [if_pos higher, if_pos higher, phField_upTo, if_pos inside]
                  cases phField image phtab i 20#32 with
                  | none => rfl
                  | some size => exact later _ (highest.next isType start (by rw [if_pos higher]))
                · rw [if_neg higher, if_neg higher]
                  exact later _ (highest.next isType start (by rw [if_neg higher, max]))
          · simp only [Option.bind_eq_bind, Option.bind_some, ne_eq, load, not_false_eq_true, if_true]
            exact later b (highest.skip (by rw [isType]; simpa using load))

theorem findBounds_scanned (done : findBounds (upTo image size) phtab n i b ≠ none) (highest : b.Highest image phtab i) :
    ∀ j, i ≤ j → j < i + n → HeaderScanned image size phtab j := by
  induction n generalizing i b with
  | zero => exact fun j after before => absurd before (by omega)
  | succ n ih =>
      have here : HeaderScanned image size phtab i ∧ ∀ j, i + 1 ≤ j → j < i + 1 + n → HeaderScanned image size phtab j := by
        rw [findBounds, phField_upTo] at done
        split_ifs at done with inside
        · cases isType : phField image phtab i 0#32 with
          | none =>
              rw [isType] at done
              exact absurd rfl done
          | some type =>
              rw [isType] at done
              by_cases load : type = elfPtLoad
              · subst load
                rw [phField_upTo] at done
                simp only [Option.bind_eq_bind, Option.bind_some, ne_eq, not_true_eq_false, if_false] at done
                split_ifs at done with first
                · cases start : phField image phtab i 8#32 with
                  | none =>
                      rw [start] at done
                      exact absurd rfl done
                  | some vaddr =>
                      have max : (if vaddr ≤ b.minaddr then { b with minaddr := vaddr } else b).maxaddr = b.maxaddr := by
                        split_ifs <;> rfl
                      rw [start, Option.bind_some] at done
                      generalize (if vaddr ≤ b.minaddr then { b with minaddr := vaddr } else b) = lowered at max done
                      rw [max] at done
                      by_cases higher : vaddr ≥ b.maxaddr
                      · rw [if_pos higher, phField_upTo] at done
                        split_ifs at done with last
                        · cases isSize : phField image phtab i 20#32 with
                          | none =>
                              rw [isSize] at done
                              exact absurd rfl done
                          | some size =>
                              rw [isSize] at done
                              exact ⟨⟨inside, fun _ => first, fun _ _ _ _ => last⟩,
                                ih done (highest.next isType start (by rw [if_pos higher]))⟩
                        · exact absurd rfl done
                      · rw [if_neg higher] at done
                        refine ⟨⟨inside, fun _ => first, fun _ v start' all => ?_⟩,
                          ih done (highest.next isType start (by rw [if_neg higher, max]))⟩
                        cases start.symm.trans start'
                        exact absurd ((highest vaddr).mpr all) higher
                · exact absurd rfl done
              · simp only [Option.bind_eq_bind, Option.bind_some, ne_eq, load, not_false_eq_true, if_true] at done
                have other : phField image phtab i 0#32 ≠ some elfPtLoad := by
                  rw [isType]
                  simpa using load
                exact ⟨⟨inside, fun isLoad => absurd isLoad other, fun isLoad => absurd isLoad other⟩,
                  ih done (highest.skip other)⟩
        · exact absurd rfl done
      intro j after before
      rcases Nat.eq_or_lt_of_le after with rfl | further
      · exact here.1
      · exact here.2 j further (by omega)

theorem segment_inFile_iff (offset fileSize size : Word) :
    (∀ j < fileSize.toNat, (offset + BitVec.ofNat 32 j).toNat < size.toNat) ↔
      fileSize = 0#32 ∨ offset.toNat + fileSize.toNat ≤ size.toNat := by
  have bound := size.isLt
  have address : ∀ j, (offset + BitVec.ofNat 32 j).toNat = (offset.toNat + j) % 2 ^ 32 := fun j => by simp
  constructor
  · intro all
    by_cases empty : fileSize = 0#32
    · exact .inl empty
    · have positive : fileSize.toNat ≠ 0 := fun zero => empty (BitVec.eq_of_toNat_eq zero)
      have last := all (fileSize.toNat - 1) (by omega)
      rw [address] at last
      refine .inr ?_
      by_cases wraps : offset.toNat + fileSize.toNat ≤ 2 ^ 32
      · omega
      · -- then some byte is the last one of the address space
        have top := all (2 ^ 32 - 1 - offset.toNat) (by omega)
        rw [address] at top
        have below := offset.isLt
        omega
  · rintro (rfl | below) j inside
    · exact absurd inside (Nat.not_lt_zero j)
    · rw [address]
      omega

namespace Load

theorem storeBytes_congr {bytes bytes' : Nat → Option Byte} {dst : Word}
    (same : ∀ j, i ≤ j → j < i + n → bytes j = bytes' j) : l.storeBytes bytes dst n i = l.storeBytes bytes' dst n i := by
  induction n generalizing l i with
  | zero => rfl
  | succ n ih =>
      rw [storeBytes, storeBytes, same i (Nat.le_refl i) (by omega)]
      cases (bytes' i).bind fun value => l.storeByte (dst + BitVec.ofNat 32 i) value with
      | none => rfl
      | some stored => exact ih fun j after before => same j (by omega) (by omega)

theorem storeBytes_read {bytes : Nat → Option Byte} {dst : Word} (done : (l.storeBytes bytes dst n i).2 = none) :
    ∀ j, i ≤ j → j < i + n → bytes j ≠ none := by
  induction n generalizing l i with
  | zero => exact fun j after before => absurd before (by omega)
  | succ n ih =>
      rw [storeBytes] at done
      cases here : bytes i with
      | none =>
          rw [here] at done
          cases done
      | some value =>
          rw [here, Option.bind_some] at done
          cases stored : l.storeByte (dst + BitVec.ofNat 32 i) value with
          | none =>
              rw [stored] at done
              cases done
          | some stored' =>
              rw [stored] at done
              intro j after before
              rcases Nat.eq_or_lt_of_le after with rfl | further
              · rw [here]
                exact Option.some_ne_none value
              · exact ih done j further (by omega)

theorem copySegment_upTo (header : HeaderInFile image size phtab i) (load : phField image phtab i 0#32 = some elfPtLoad) :
    l.copySegment (upTo image size) phtab i = l.copySegment image phtab i := by
  rw [copySegment, copySegment, header.field_upTo load 8#32 (by decide),
    header.field_upTo load 4#32 (by decide), header.field_upTo load 16#32 (by decide),
    header.field_upTo load 20#32 (by decide)]
  cases phField image phtab i 8#32 with
  | none => rfl
  | some vaddr =>
      cases isOffset : phField image phtab i 4#32 with
      | none => rfl
      | some offset =>
          cases isSize : phField image phtab i 16#32 with
          | none => rfl
          | some fileSize =>
              have inside := (segment_inFile_iff offset fileSize size).mpr (header.bytes load offset fileSize isOffset isSize)
              have same : l.memcpy (upTo image size) vaddr offset fileSize = l.memcpy image vaddr offset fileSize :=
                storeBytes_congr fun j _ before => upTo_of_lt (inside j (by omega))
              simp only [Option.bind_eq_bind, Option.bind_some, Option.pure_def, same]

theorem copySegments_upTo (inFile : ∀ j, i ≤ j → j < i + n → HeaderInFile image size phtab j) :
    l.copySegments (upTo image size) phtab n i = l.copySegments image phtab n i := by
  induction n generalizing l i with
  | zero => rfl
  | succ n ih =>
      have header := inFile i (Nat.le_refl i) (by omega)
      rw [copySegments, copySegments, header.type_upTo]
      cases isType : phField image phtab i 0#32 with
      | none => rfl
      | some type =>
          have later : ∀ l : Load, _ := fun l => ih (l := l) (i := i + 1) fun j after before => inFile j (by omega) (by omega)
          by_cases load : type = elfPtLoad
          · subst load
            simp only [copySegment_upTo header isType, later]
          · simp only [ne_eq, load, not_false_eq_true, if_true, later]

theorem copySegment_read {l' : Load} (done : l.copySegment image phtab i = (l', none)) :
    (∃ offset fileSize, phField image phtab i 4#32 = some offset ∧ phField image phtab i 16#32 = some fileSize ∧
      ∀ j < fileSize.toNat, image (offset + BitVec.ofNat 32 j) ≠ none) ∧
      ∀ field ∈ [4#32, 8#32, 16#32, 20#32], phField image phtab i field ≠ none := by
  simp only [copySegment] at done
  split at done
  · cases done
  · rename_i header
    simp only [Option.bind_eq_bind, Option.bind_eq_some_iff, Option.pure_def, Option.some.injEq, Prod.mk.injEq] at header
    obtain ⟨vaddr, isVaddr, offset, isOffset, fileSize, isSize, rfl, rfl, rfl⟩ := header
    split at done
    · cases done
    · rename_i copied memcpyDone
      split at done
      · cases done
      · rename_i memSize isMemSize
        have read := storeBytes_read (congrArg Prod.snd memcpyDone)
        exact ⟨⟨offset, fileSize, isOffset, isSize, fun j inside => read j (Nat.zero_le j) (by omega)⟩,
          by simp [isVaddr, isOffset, isSize, isMemSize]⟩

theorem copySegment_inFile {l' : Load} (type : (phtab + BitVec.ofNat 32 (32 * i) + 0#32).toNat + 4 ≤ size.toNat)
    (done : l.copySegment (upTo image size) phtab i = (l', none)) : HeaderInFile image size phtab i := by
  obtain ⟨⟨offset, fileSize, isOffset, isSize, read⟩, fields⟩ := copySegment_read done
  have inside : ∀ field ∈ [4#32, 8#32, 16#32, 20#32], (phtab + BitVec.ofNat 32 (32 * i) + field).toNat + 4 ≤ size.toNat := by
    intro field member
    by_contra outside
    exact fields field member (by rw [phField_upTo, if_neg outside])
  refine ⟨type, fun _ => inside, fun _ offset' fileSize' isOffset' isSize' => ?_⟩
  rw [phField_upTo, if_pos (inside _ (by decide)), isOffset'] at isOffset
  rw [phField_upTo, if_pos (inside _ (by decide)), isSize'] at isSize
  cases isOffset
  cases isSize
  refine (segment_inFile_iff offset fileSize size).mp fun j within => ?_
  by_contra outside
  exact read j within (upTo_of_not_lt outside)

theorem copySegments_inFile {l' : Load} (done : l.copySegments (upTo image size) phtab n i = (l', none)) :
    ∀ j, i ≤ j → j < i + n → HeaderInFile image size phtab j := by
  induction n generalizing l i with
  | zero => exact fun j after before => absurd before (by omega)
  | succ n ih =>
      rw [copySegments, phField_upTo] at done
      split_ifs at done with type
      · cases isType : phField image phtab i 0#32 with
        | none =>
            rw [isType] at done
            cases done
        | some type' =>
            rw [isType] at done
            dsimp only at done
            have here : HeaderInFile image size phtab i ∧ ∀ j, i + 1 ≤ j → j < i + 1 + n → HeaderInFile image size phtab j := by
              split_ifs at done with skipped
              · have other : phField image phtab i 0#32 ≠ some elfPtLoad := fun load => skipped (Option.some.inj (isType.symm.trans load))
                exact ⟨⟨type, fun load => absurd load other, fun load => absurd load other⟩, ih done⟩
              · split at done
                · cases done
                · rename_i mid copied
                  exact ⟨copySegment_inFile type copied, ih done⟩
            intro j after before
            rcases Nat.eq_or_lt_of_le after with rfl | further
            · exact here.1
            · exact here.2 j further (by omega)
      · cases done

end Load

/-! ## The whole load -/

/-- The fields of the file header, the program headers and the segments of a load all lie in the first `size` bytes. -/
structure InFile (image : Image) (size : Word) : Prop where
  checked : checkedBytes image ≤ size.toNat
  header : elfValidate image = some .success → 46 ≤ size.toNat
  headers : elfValidate image = some .success → ∀ phtab count, read32 image 28#32 = some phtab → read16 image 44#32 = some count →
    ∀ i < count.toNat, HeaderInFile image size phtab i

/-- The same for what is read before memory is asked for. -/
structure PlanInFile (image : Image) (size : Word) : Prop where
  checked : checkedBytes image ≤ size.toNat
  header : elfValidate image = some .success → 46 ≤ size.toNat
  headers : elfValidate image = some .success → ∀ phtab count, read32 image 28#32 = some phtab → read16 image 44#32 = some count →
    ∀ i < count.toNat, HeaderScanned image size phtab i

theorem InFile.plan (inFile : InFile image size) : PlanInFile image size :=
  ⟨inFile.checked, inFile.header, fun accepted phtab count isTable isCount i inside =>
    (inFile.headers accepted phtab count isTable isCount i inside).scanned⟩

-- before the first header
theorem highest_start (image : Image) (phtab : Word) (minaddr lastSegmentSize : Word) :
    Bounds.Highest ⟨minaddr, 0#32, lastSegmentSize⟩ image phtab 0 :=
  fun _ => ⟨fun _ j before => absurd before (Nat.not_lt_zero j), fun _ => BitVec.le_def.mpr (Nat.zero_le _)⟩

theorem makePlan_ok {plan : Plan} (made : makePlan image = .ok plan) : elfValidate image = some .success ∧
    read32 image 28#32 = some plan.phtab ∧ (∃ count, read16 image 44#32 = some count ∧ count.toNat = plan.count) ∧
      findBounds image plan.phtab plan.count 0 ⟨0xffffffff#32, 0#32, 0#32⟩ ≠ none := by
  simp only [makePlan] at made
  split at made
  · cases made
  · rename_i accepted
    split at made
    · cases made
    · rename_i found
      cases made
      simp only [Option.bind_eq_bind, Option.bind_eq_some_iff, Option.pure_def, Option.some.injEq] at found
      obtain ⟨phtab, isTable, count, isCount, b, bounds, rfl⟩ := found
      exact ⟨accepted, isTable, ⟨count, isCount, rfl⟩, by rw [Bounds.plan, bounds]; exact Option.some_ne_none b⟩
  · cases made

theorem PlanInFile.makePlan_upTo (inFile : PlanInFile image size) : makePlan (upTo image size) = makePlan image := by
  rw [makePlan, makePlan, elfValidate_upTo, if_pos inFile.checked]
  cases accepted : elfValidate image with
  | none => rfl
  | some err =>
      cases err with
      | success =>
          have header := inFile.header accepted
          have table : read32 (upTo image size) 28#32 = read32 image 28#32 := by
            rw [read32_upTo, if_pos (Nat.le_trans (by decide) header)]
          have entries : read16 (upTo image size) 44#32 = read16 image 44#32 := by
            rw [read16_upTo, if_pos (Nat.le_trans (by decide) header)]
          dsimp only
          rw [table, entries]
          cases isTable : read32 image 28#32 with
          | none => rfl
          | some phtab =>
              cases isCount : read16 image 44#32 with
              | none => rfl
              | some count =>
                  have headers : ∀ j, 0 ≤ j → j < 0 + count.toNat → HeaderScanned image size phtab j := fun j _ before =>
                    inFile.headers accepted phtab count isTable isCount j (by omega)
                  simp only [Option.bind_eq_bind, Option.bind_some, findBounds_upTo headers (highest_start _ _ _ _)]
      | _ => rfl

theorem planInFile_of_makePlan {plan : Plan} (made : makePlan (upTo image size) = .ok plan) : PlanInFile image size := by
  obtain ⟨accepted, isTable, ⟨count, isCount, sameCount⟩, found⟩ := makePlan_ok made
  have checked : checkedBytes image ≤ size.toNat := by
    by_contra outside
    rw [elfValidate_upTo, if_neg outside] at accepted
    cases accepted
  rw [read32_upTo] at isTable
  rw [read16_upTo] at isCount
  split_ifs at isTable isCount with table entries
  · refine ⟨checked, fun _ => entries, fun _ phtab count' isTable' isCount' i inside => ?_⟩
    cases isTable.symm.trans isTable'
    cases isCount.symm.trans isCount'
    exact findBounds_scanned found (highest_start _ _ _ _) i (Nat.zero_le i) (by omega)

namespace Load

theorem fill_upTo {plan : Plan} {pd : Word} (entry : 28 ≤ size.toNat)
    (inFile : ∀ i < plan.count, HeaderInFile image size plan.phtab i) : l.fill (upTo image size) plan pd = l.fill image plan pd := by
  rw [fill, fill, copySegments_upTo fun j _ before => inFile j (by omega), read32_upTo, if_pos (show (24#32).toNat + 4 ≤ _ from entry)]

theorem run_upTo {plan : Plan} {pd kernelPd : Word} (entry : 28 ≤ size.toNat)
    (inFile : ∀ i < plan.count, HeaderInFile image size plan.phtab i) :
    l.run (upTo image size) plan pd kernelPd = l.run image plan pd kernelPd := by
  simp only [run, fill_upTo entry inFile]

theorem mapPages_failed {l' : Load} {pd phys minaddr flags : Word} {err : ElfErr}
    (failed : l.mapPages pd phys minaddr flags n i = (l', some (.failed err))) : err = .oom := by
  induction n generalizing l i with
  | zero => cases failed
  | succ n ih =>
      simp only [mapPages] at failed
      split at failed
      · cases failed
      · cases failed
        rfl
      · exact ih failed

theorem run_failed {l' : Load} {plan : Plan} {pd kernelPd : Word} {err : ElfErr}
    (failed : l.run image plan pd kernelPd = (l', .error (.failed err))) : err = .oom := by
  simp only [run] at failed
  split at failed
  · cases failed
    rfl
  · split at failed
    · rename_i mapped
      cases failed
      exact mapPages_failed mapped
    · simp only [fill] at failed
      split at failed
      · rename_i copied
        cases failed
        cases copySegments_stop copied
      · split at failed <;> cases failed

theorem run_inFile {l' : Load} {plan : Plan} {pd kernelPd entry : Word}
    (loaded : l.run (upTo image size) plan pd kernelPd = (l', .ok entry)) : ∀ i < plan.count, HeaderInFile image size plan.phtab i := by
  simp only [run] at loaded
  split at loaded
  · cases loaded
  split at loaded
  · cases loaded
  · simp only [fill] at loaded
    split at loaded
    · cases loaded
    · rename_i filled copied
      exact fun i inside => copySegments_inFile copied i (Nat.zero_le i) (by omega)

end Load

theorem InFile.elfLoad_upTo (inFile : InFile image size) (vm : Vm) (pd kernelPd : Word) :
    elfLoad vm (.ok (upTo image size)) pd kernelPd = elfLoad vm (.ok image) pd kernelPd := by
  simp only [elfLoad, inFile.plan.makePlan_upTo]
  cases made : makePlan image with
  | error stop => rfl
  | ok plan =>
      obtain ⟨accepted, isTable, ⟨count, isCount, sameCount⟩, -⟩ := makePlan_ok made
      exact Load.run_upTo (Nat.le_trans (by decide) (inFile.header accepted))
        (sameCount ▸ inFile.headers accepted plan.phtab count isTable isCount)

theorem inFile_of_elfLoad {vm : Vm} {pd kernelPd : Word} (noFault : (elfLoad vm (.ok (upTo image size)) pd kernelPd).2 ≠ .error .fault)
    (memory : (elfLoad vm (.ok (upTo image size)) pd kernelPd).2 ≠ .error (.failed .oom)) : InFile image size := by
  simp only [elfLoad] at noFault memory
  have checked : checkedBytes image ≤ size.toNat := by
    by_contra outside
    rw [show makePlan (upTo image size) = .error .fault by rw [makePlan, elfValidate_upTo, if_neg outside]] at noFault
    exact noFault rfl
  have sameCheck : elfValidate (upTo image size) = elfValidate image := by rw [elfValidate_upTo, if_pos checked]
  by_cases accepted : elfValidate image = some .success
  · cases made : makePlan (upTo image size) with
    | error stop =>
        rw [made] at noFault
        simp only [makePlan, sameCheck, accepted] at made
        split at made
        · cases made
          exact absurd rfl noFault
        · cases made
    | ok plan =>
        rw [made] at noFault memory
        dsimp only at noFault memory
        have scanned := planInFile_of_makePlan made
        rw [scanned.makePlan_upTo] at made
        obtain ⟨-, isTable, ⟨count, isCount, sameCount⟩, -⟩ := makePlan_ok made
        have all : ∀ i < plan.count, HeaderInFile image size plan.phtab i := by
          cases loaded : Load.run ⟨vm, []⟩ (upTo image size) plan pd kernelPd with
          | mk l' result =>
              rw [loaded] at noFault memory
              cases result with
              | ok entry => exact Load.run_inFile loaded
              | error stop =>
                  cases stop with
                  | fault => exact absurd rfl noFault
                  | failed err => exact absurd (Load.run_failed loaded ▸ rfl) memory
        refine ⟨checked, scanned.header, fun _ phtab count' isTable' isCount' => ?_⟩
        cases isTable.symm.trans isTable'
        cases isCount.symm.trans isCount'
        exact sameCount ▸ all
  · exact ⟨checked, fun other => absurd other accepted, fun other => absurd other accepted⟩

/-- The pages of the program are not to be had, so that no segment is read. -/
def Refused (vm : Vm) (image : Image) : Prop :=
  ∃ plan, makePlan image = .ok plan ∧ (vm.pmm.allocMultiBlock plan.requiredPages).1 = 0#32

/-- All that a load of `image` reads lies in the first `size` bytes. -/
def KeepsToFile (vm : Vm) (image : Image) (size : Word) : Prop := InFile image size ∨ PlanInFile image size ∧ Refused vm image

theorem elfLoad_refused {vm : Vm} {plan : Plan} (made : makePlan image = .ok plan)
    (none : (vm.pmm.allocMultiBlock plan.requiredPages).1 = 0#32) (pd kernelPd : Word) :
    elfLoad vm (.ok image) pd kernelPd =
      (⟨{ vm with pmm := (vm.pmm.allocMultiBlock plan.requiredPages).2 }, []⟩, .error (.failed .oom)) := by
  simp only [elfLoad, made, Load.run, none, if_true]

theorem KeepsToFile.elfLoad_upTo {vm : Vm} (keeps : KeepsToFile vm image size) (pd kernelPd : Word) :
    elfLoad vm (.ok (upTo image size)) pd kernelPd = elfLoad vm (.ok image) pd kernelPd := by
  rcases keeps with inFile | ⟨scanned, plan, made, none⟩
  · exact inFile.elfLoad_upTo vm pd kernelPd
  · rw [elfLoad_refused made none, elfLoad_refused (scanned.makePlan_upTo.trans made) none]

theorem planInFile_of_refused {vm : Vm} {pd kernelPd : Word} (refused : Refused vm image)
    (same : elfLoad vm (.ok (upTo image size)) pd kernelPd = elfLoad vm (.ok image) pd kernelPd) : PlanInFile image size := by
  obtain ⟨plan, made, none⟩ := refused
  rw [elfLoad_refused made none] at same
  cases scan : makePlan (upTo image size) with
  | ok plan' => exact planInFile_of_makePlan scan
  | error stop =>
      have outcome : stop = .failed .oom := by
        simpa only [elfLoad, scan, Prod.mk.injEq, Except.error.injEq] using (congrArg Prod.snd same)
      subst outcome
      simp only [makePlan, elfValidate_upTo] at scan
      have accepted := (makePlan_ok made).1
      split_ifs at scan
      · rw [accepted] at scan
        dsimp only at scan
        split at scan <;> cases scan
      · cases scan

/-- A load of `size` bytes reads nothing else when what it reads lies in them, and, apart from loads that fault or run out of
memory while they map the pages, only then. -/
theorem loader_reads_file_iff (image : Image) (size : Word) (vm : Vm) (pd kernelPd : Word) :
    (KeepsToFile vm image size → elfLoad vm (.ok (upTo image size)) pd kernelPd = elfLoad vm (.ok image) pd kernelPd) ∧
      ((elfLoad vm (.ok image) pd kernelPd).2 ≠ .error .fault →
        ((elfLoad vm (.ok image) pd kernelPd).2 = .error (.failed .oom) → Refused vm image) →
        (elfLoad vm (.ok (upTo image size)) pd kernelPd = elfLoad vm (.ok image) pd kernelPd ↔ KeepsToFile vm image size)) := by
  refine ⟨fun keeps => keeps.elfLoad_upTo pd kernelPd,
    fun noFault memory => ⟨fun same => ?_, fun keeps => keeps.elfLoad_upTo pd kernelPd⟩⟩
  by_cases oom : (elfLoad vm (.ok image) pd kernelPd).2 = .error (.failed .oom)
  · exact .inr ⟨planInFile_of_refused (memory oom) same, memory oom⟩
  · rw [← same] at noFault oom
    exact .inl (inFile_of_elfLoad noFault oom)

theorem oneSegment_inFile : InFile oneSegment 84#32 := by
  have table : read32 oneSegment 28#32 = some 52#32 := rfl
  have entries : read16 oneSegment 44#32 = some 1#32 := rfl
  have start : phField oneSegment 52#32 0 4#32 = some 0#32 := rfl
  have length : phField oneSegment 52#32 0 16#32 = some 4#32 := rfl
  have checked : checkedBytes oneSegment ≤ 20 := by
    rw [checkedBytes]
    split_ifs <;> decide
  refine ⟨Nat.le_trans checked (show 20 ≤ 84 by decide), fun _ => show 46 ≤ 84 by decide,
    fun _ phtab count isTable isCount i inside => ?_⟩
  cases table.symm.trans isTable
  cases entries.symm.trans isCount
  obtain rfl : i = 0 := Nat.lt_one_iff.mp inside
  have fields : ∀ field ∈ [4#32, 8#32, 16#32, 20#32], (52#32 + BitVec.ofNat 32 (32 * 0) + field).toNat + 4 ≤ 84 := by
    intro field member
    simp only [List.mem_cons, List.not_mem_nil, or_false] at member
    rcases member with rfl | rfl | rfl | rfl <;> decide
  refine ⟨by decide, fun _ => fields, fun _ offset fileSize isOffset isSize => .inr ?_⟩
  cases start.symm.trans isOffset
  cases length.symm.trans isSize
  decide

-- a process with an empty table for the first pages of its program
def readyProcess : Vm where
  word frame idx :=
    if frame = 0x3000#32 then
      if idx = 1 then 0x4007#32 else if idx = 768 then 0x2003#32 else if idx = 1023 then 0x3003#32 else 0#32
    else bareDirectory.word frame idx
  cr3 := 0x1000#32
  pmm := Pmm.boot 0x8000#32 [⟨0x5000#32, 0x3000#32, true, by decide⟩]

-- a file of 84 bytes whose segment lies behind it and takes no memory
def nothingMapped : Image :=
  fileOf (elfHeader ++ [(28, 52#8), (44, 1#8), (52, 1#8), (56, 84#8), (62, 0x40#8), (68, 4#8), (84, 0x2a#8)])

theorem nothingMapped_plan : makePlan nothingMapped = .ok ⟨52#32, 1, 0x400000#32, 0#32⟩ ∧
    makePlan (upTo nothingMapped 84#32) = .ok ⟨52#32, 1, 0x400000#32, 0#32⟩ := ⟨rfl, rfl⟩

theorem loader_reads_file_iff_one_segment :
    elfLoad readyProcess (.ok (upTo oneSegment 84#32)) 0x3000#32 0x1000#32 =
        elfLoad readyProcess (.ok oneSegment) 0x3000#32 0x1000#32 ∧
      elfLoad readyProcess (.ok (upTo nothingMapped 84#32)) 0x3000#32 0x1000#32 =
        elfLoad readyProcess (.ok nothingMapped) 0x3000#32 0x1000#32 := by
  have loads : (elfLoad readyProcess (.ok oneSegment) 0x3000#32 0x1000#32).2 ≠ .error (.failed .oom) := by decide +kernel
  have refused : Refused readyProcess nothingMapped := ⟨_, nothingMapped_plan.1, Pmm.allocMultiBlock_zero _⟩
  exact ⟨((loader_reads_file_iff oneSegment 84#32 readyProcess 0x3000#32 0x1000#32).2 (by decide +kernel)
      fun oom => absurd oom loads).mpr (.inl oneSegment_inFile),
    (loader_reads_file_iff nothingMapped 84#32 readyProcess 0x3000#32 0x1000#32).1
      (.inr ⟨planInFile_of_makePlan nothingMapped_plan.2, refused⟩)⟩

-- a file of 84 bytes whose segment is what the heap has behind it
def behindFile : Image :=
  fileOf (elfHeader ++ [(28, 52#8), (44, 1#8), (52, 1#8), (56, 84#8), (62, 0x40#8), (68, 4#8), (72, 4#8), (84, 0x2a#8)])

/-- The byte behind the file is the first one of the process. -/
theorem loader_copies_heap : elfLoad readyProcess (.ok (upTo behindFile 84#32)) 0x3000#32 0x1000#32 ≠
    elfLoad readyProcess (.ok behindFile) 0x3000#32 0x1000#32 := by
  have copied : (elfLoad readyProcess (.ok behindFile) 0x3000#32 0x1000#32).1.vm.word 0x5000#32 0 = 0x2a#32 := by
    decide +kernel
  have cut : (elfLoad readyProcess (.ok (upTo behindFile 84#32)) 0x3000#32 0x1000#32).1.vm.word 0x5000#32 0 = 0#32 := by
    decide +kernel
  intro same
  rw [same, copied] at cut
  cases cut

end Kerosene.Elf

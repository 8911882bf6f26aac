import Mathlib.Data.List.TakeWhile
import Mathlib.Logic.Function.Basic

/-!
# The arguments of a new process

`process_new` copies the caller's strings into two buffers that all processes share, switches to the
new page directory and builds `argv` and `envp` on the new stack from the buffers.
-/

namespace Kerosene.Process

abbrev Text := Nat → UInt8

def argsMaxLen : Nat := 1024
def envsMaxLen : Nat := 4096
def userStackTop : Nat := 0xc0000000

/-! ## Copying -/

def copyFrom (src : Text) : Nat → Nat → Text → Text
  | 0, _, dest => dest
  | n + 1, i, dest =>
      let dest := Function.update dest i (src i)
      if 0 < i ∧ src i = 0 ∧ src (i - 1) = 0 then dest else copyFrom src n (i + 1) dest

def copyDoubleNull (dest src : Text) (max : Nat) : Text := copyFrom src max 0 dest

/-! ## Parsing -/

def stringEnd (strings : Text) : Nat → Nat → Nat
  | 0, i => i
  | n + 1, i => if strings i ≠ 0 then stringEnd strings n (i + 1) else i

-- The length of the strings and their number. Every round takes at least the string's zero, so
-- the rounds end with the bytes.
def scanStrings (strings : Text) (max : Nat) : Nat → Nat → Nat → Nat × Nat
  | 0, len, count => (len, count)
  | n + 1, len, count =>
      if len < max then
        let last := stringEnd strings (max - len) len
        if last < max - 1 then
          if strings (last + 1) = 0 then (last + 2, count + 1)
          else scanStrings strings max n (last + 1) (count + 1)
        else (last, count)
      else (len, count)

-- `none` when the walk leaves the copied strings.
def fillMap : Nat → List UInt8 → Nat → Option (List Nat)
  | _, _, 0 => some []
  | current, bytes, n + 1 =>
      match bytes.dropWhile (· ≠ 0) with
      | [] => none
      | _ :: rest => do
          let entries ← fillMap (current + (bytes.takeWhile (· ≠ 0)).length + 1) rest n
          return current :: entries

structure StringMap where
  address : Nat
  entries : List Nat
  truncStrings : Nat
  bytes : List UInt8
deriving DecidableEq

-- What a process reads at an entry of the map.
def StringMap.stringAt (map : StringMap) (entry : Nat) : List UInt8 :=
  (map.bytes.drop (entry - map.truncStrings)).takeWhile (· ≠ 0)

def StringMap.strings (map : StringMap) : List (List UInt8) := map.entries.map map.stringAt

structure Parsed where
  useresp : Nat
  count : Nat
  ptrMap : Option StringMap
deriving DecidableEq

def parseNullSeparatedStrings (useresp max : Nat) (strings : Text) : Option Parsed :=
  if strings 0 = 0 then some ⟨useresp, 0, none⟩
  else
    let found := scanStrings strings max max 0 0
    if found.2 = 0 then some ⟨useresp, 0, none⟩
    else do
      let truncStrings := useresp - found.1
      let bytes := (List.range found.1).map strings
      let address := truncStrings - 4 * (found.2 + 1)
      let entries ← fillMap truncStrings bytes found.2
      return ⟨address, found.2, some ⟨address, entries, truncStrings, bytes⟩⟩

/-! ## `process_new` -/

structure Buffers where
  args : Text
  envs : Text

-- `argsBuffer` and `envsBuffer` are zeroed with the rest of the kernel's static data.
def Buffers.boot : Buffers := ⟨fun _ => 0, fun _ => 0⟩

-- A `NULL` argument is `none`. `allocated` is the answer of the first `kmalloc`; `setUp` tells
-- whether everything else `process_new` asks for was there.
structure Call where
  isUser : Bool
  args : Option Text
  envs : Option Text
  allocated : Bool
  setUp : Bool

structure Arguments where
  argc : Nat
  argv : Option StringMap
  envc : Nat
  envp : Option StringMap
deriving DecidableEq

def Arguments.argvStrings (a : Arguments) : List (List UInt8) := (a.argv.map StringMap.strings).getD []

def Arguments.envpStrings (a : Arguments) : List (List UInt8) := (a.envp.map StringMap.strings).getD []

def Buffers.copied (b : Buffers) (args envs : Option Text) : Buffers where
  args := match args with
    | some args => copyDoubleNull b.args args argsMaxLen
    | none => b.args
  envs := match envs with
    | some envs => copyDoubleNull b.envs envs envsMaxLen
    | none => b.envs

def Buffers.parsed (b : Buffers) : Option Arguments := do
  let args ← parseNullSeparatedStrings (userStackTop - 4) argsMaxLen b.args
  let envs ← parseNullSeparatedStrings args.useresp envsMaxLen b.envs
  return ⟨args.count, args.ptrMap, envs.count, envs.ptrMap⟩

def processNew (b : Buffers) (c : Call) : Buffers × Option Arguments :=
  if c.allocated then
    let b := if c.isUser then b.copied c.args c.envs else b
    if c.setUp then (b, if c.isUser then b.parsed else some ⟨0, none, 0, none⟩)
    else (b, none)
  else (b, none)

-- The buffers after all the processes made since boot.
def after (history : List Call) : Buffers := history.foldl (fun b c => (processNew b c).1) .boot

def received (history : List Call) (args envs : Option Text) : Option Arguments :=
  (processNew (after history) ⟨true, args, envs, true, true⟩).2

/-! ## The strings a buffer holds -/

-- No double null ends before `i`.
def Clean (src : Text) (i : Nat) : Prop := ∀ j, 0 < j → j < i → ¬(src j = 0 ∧ src (j - 1) = 0)

-- The places before and in the closing double null; nothing but the first byte of an empty text.
def InStrings (src : Text) (i : Nat) : Prop := i = 0 ∨ src 0 ≠ 0 ∧ Clean src i

def SameStrings (src src' : Text) : Prop := ∀ i, InStrings src i → src i = src' i

def SameArgument : Option Text → Option Text → Prop
  | some src, some src' => SameStrings src src'
  | none, none => True
  | _, _ => False

-- Two kernels with any past, the same last call: the new processes find the same arguments.
def Noninterferent (args envs : Option Text) : Prop :=
  ∀ history history' args' envs', SameArgument args args' → SameArgument envs envs' →
    ∃ r r', received history args envs = some r ∧ received history' args' envs' = some r' ∧
      r.argc = r'.argc ∧ r.argvStrings = r'.argvStrings ∧
      r.envc = r'.envc ∧ r.envpStrings = r'.envpStrings

variable {src src' dest : Text} {i k n max len count useresp : Nat} {bytes : List UInt8}

theorem Clean.mono (clean : Clean src i) (below : k ≤ i) : Clean src k :=
  fun j positive before => clean j positive (by omega)

theorem clean_zero : Clean src 0 := fun j _ before => absurd before (by omega)

theorem Clean.succ (clean : Clean src i) (text : src i ≠ 0 ∨ src (i - 1) ≠ 0) : Clean src (i + 1) := by
  intro j positive before
  by_cases last : j = i
  · rintro ⟨zero, zero'⟩
    subst last
    exact text.elim (absurd zero) (absurd zero')
  · exact clean j positive (by omega)

theorem SameStrings.inStrings (same : SameStrings src src') (inside : InStrings src' i) : InStrings src i := by
  obtain rfl | ⟨text, clean⟩ := inside
  · exact .inl rfl
  have first : src 0 ≠ 0 := by rw [same 0 (.inl rfl)]; exact text
  refine .inr ⟨first, ?_⟩
  induction i with
  | zero => exact clean_zero
  | succ i ih =>
      -- up to `i` the texts agree, so a double null that ends at `i` would end there in both
      have before := ih (clean.mono (by omega))
      intro j positive below
      have agree := same j (.inr ⟨first, before.mono (by omega)⟩)
      have agree' := same (j - 1) (.inr ⟨first, before.mono (by omega)⟩)
      rw [agree, agree']
      exact clean j positive below

theorem SameStrings.symm (same : SameStrings src src') : SameStrings src' src :=
  fun i inside => (same i (same.inStrings inside)).symm

/-! ## The copy holds the strings -/

theorem copyFrom_before (before : k < i) : copyFrom src n i dest k = dest k := by
  induction n generalizing i dest with
  | zero => rfl
  | succ n ih =>
      rw [copyFrom]
      split_ifs with double
      · exact Function.update_of_ne (by omega) _ _
      · rw [ih (by omega), Function.update_of_ne (by omega)]

theorem copyFrom_clean (clean : Clean src k) (least : i ≤ k) (below : k < i + n) :
    copyFrom src n i dest k = src k := by
  induction n generalizing i dest with
  | zero => omega
  | succ n ih =>
      rw [copyFrom]
      by_cases here : k = i
      · subst here
        split_ifs with double
        · exact Function.update_self _ _ _
        · rw [copyFrom_before (by omega), Function.update_self]
      · rw [if_neg fun double => clean i double.1 (by omega) double.2]
        exact ih (by omega) (by omega)

theorem copyDoubleNull_clean (clean : Clean src k) (below : k < max) : copyDoubleNull dest src max k = src k :=
  copyFrom_clean clean (by omega) (by omega)

/-! ## Parsing reads the strings only -/

-- What one text shows of another: its strings, as far as the buffer holds them.
def Shows (max : Nat) (buffer src : Text) : Prop :=
  buffer 0 = src 0 ∧ (src 0 ≠ 0 → ∀ i, i < max → Clean src i → buffer i = src i)

theorem shows_copy (room : 0 < max) : Shows max (copyDoubleNull dest src max) src :=
  ⟨copyDoubleNull_clean clean_zero room, fun _ _ below clean => copyDoubleNull_clean clean below⟩

theorem SameStrings.shows (same : SameStrings src src') : Shows max src src' := by
  refine ⟨same 0 (.inl rfl), fun text i _ clean => ?_⟩
  exact same i (same.inStrings (.inr ⟨text, clean⟩))

theorem stringEnd_succ (s : Text) (n i : Nat) :
    stringEnd s (n + 1) i = if s i ≠ 0 then stringEnd s n (i + 1) else i := rfl

theorem stringEnd_bounds {s : Text} : i ≤ stringEnd s n i ∧ stringEnd s n i ≤ i + n := by
  induction n generalizing i with
  | zero => exact ⟨le_rfl, le_rfl⟩
  | succ n ih =>
      rw [stringEnd_succ]
      split_ifs with text
      · have := ih (i := i + 1)
        omega
      · omega

theorem stringEnd_text {s : Text} (least : i ≤ k) (before : k < stringEnd s n i) : s k ≠ 0 := by
  induction n generalizing i with
  | zero =>
      have before : k < i := before
      omega
  | succ n ih =>
      rw [stringEnd_succ] at before
      split_ifs at before with text
      · by_cases here : k = i
        · exact here ▸ text
        · exact ih (by omega) before
      · omega

theorem stringEnd_null {s : Text} (before : stringEnd s n i < i + n) : s (stringEnd s n i) = 0 := by
  induction n generalizing i with
  | zero =>
      have before : i < i + 0 := before
      omega
  | succ n ih =>
      rw [stringEnd_succ] at before ⊢
      split_ifs at before ⊢ with text
      · exact ih (by omega)
      · exact not_not.mp text

theorem Clean.stringEnd (clean : Clean src i) : Clean src (stringEnd src n i) := by
  induction n generalizing i with
  | zero => exact clean
  | succ n ih =>
      rw [stringEnd_succ]
      split_ifs with text
      · exact ih (clean.succ (.inl text))
      · exact clean

theorem stringEnd_congr (same : ∀ k, k < i + n → Clean src k → dest k = src k) (clean : Clean src i) :
    stringEnd dest n i = stringEnd src n i := by
  induction n generalizing i with
  | zero => rfl
  | succ n ih =>
      rw [stringEnd_succ, stringEnd_succ, same i (by omega) clean]
      split_ifs with text
      · exact ih (fun k below => same k (by omega)) (clean.succ (.inl text))
      · rfl

-- One round of the outer loop starts on a string, so it passes at least one byte of it.
theorem Clean.round (clean : Clean src len) (text : src len ≠ 0) (inside : len < max) :
    ∃ last, Process.stringEnd src (max - len) len = last ∧ len < last ∧ last ≤ max ∧ Clean src last ∧
      (last < max - 1 → src last = 0 ∧ Clean src (last + 1)) := by
  have bounds := stringEnd_bounds (s := src) (i := len) (n := max - len)
  have cleanLast := clean.stringEnd (n := max - len)
  have null := stringEnd_null (s := src) (i := len) (n := max - len)
  have before := fun k => stringEnd_text (s := src) (i := len) (n := max - len) (k := k)
  generalize Process.stringEnd src (max - len) len = last at *
  have ahead : len < last := by
    by_contra stays
    have here : last = len := by omega
    exact text (here ▸ null (by omega))
  refine ⟨last, rfl, ahead, by omega, cleanLast, fun short => ⟨null (by omega), ?_⟩⟩
  exact cleanLast.succ (.inr (before (last - 1) (by omega) (by omega)))

theorem scanStrings_clean (clean : Clean src len) (text : src len ≠ 0) (inside : len < max)
    (before : i < (scanStrings src max n len count).1) : i < max ∧ Clean src i := by
  induction n generalizing len count with
  | zero =>
      have before : i < len := before
      exact ⟨by omega, clean.mono (by omega)⟩
  | succ n ih =>
      obtain ⟨last, found, ahead, least, cleanLast, short⟩ := clean.round text inside
      rw [scanStrings, if_pos inside] at before
      simp only [found] at before
      by_cases room : last < max - 1
      · obtain ⟨-, cleanNext⟩ := short room
        rw [if_pos room] at before
        by_cases double : src (last + 1) = 0
        · rw [if_pos double] at before
          have before : i < last + 2 := before
          exact ⟨by omega, cleanNext.mono (by omega)⟩
        · rw [if_neg double] at before
          exact ih cleanNext double (by omega) before
      · rw [if_neg room] at before
        have before : i < last := before
        exact ⟨by omega, cleanLast.mono (by omega)⟩

theorem scanStrings_congr (same : ∀ k, k < max → Clean src k → dest k = src k) (clean : Clean src len)
    (text : src len ≠ 0) : scanStrings dest max n len count = scanStrings src max n len count := by
  induction n generalizing len count with
  | zero => rfl
  | succ n ih =>
      rw [scanStrings, scanStrings]
      by_cases inside : len < max
      · have agree : stringEnd dest (max - len) len = stringEnd src (max - len) len :=
          stringEnd_congr (fun k below => same k (by omega)) clean
        obtain ⟨last, found, -, -, -, short⟩ := clean.round text inside
        rw [if_pos inside, if_pos inside, agree, found]
        dsimp only
        by_cases room : last < max - 1
        · obtain ⟨-, cleanNext⟩ := short room
          rw [if_pos room, if_pos room, same (last + 1) (by omega) cleanNext]
          by_cases double : src (last + 1) = 0
          · rw [if_pos double, if_pos double]
          · rw [if_neg double, if_neg double]
            exact ih cleanNext double
        · rw [if_neg room, if_neg room]
      · rw [if_neg inside, if_neg inside]

theorem parse_congr (shown : Shows max dest src) (room : 0 < max) :
    parseNullSeparatedStrings useresp max dest = parseNullSeparatedStrings useresp max src := by
  rw [parseNullSeparatedStrings, parseNullSeparatedStrings, shown.1]
  by_cases empty : src 0 = 0
  · rw [if_pos empty, if_pos empty]
  · have agree := shown.2 empty
    have bytes : (List.range (scanStrings src max max 0 0).1).map dest =
        (List.range (scanStrings src max max 0 0).1).map src := by
      apply List.map_congr_left
      intro i member
      obtain ⟨below, clean⟩ := scanStrings_clean clean_zero empty room (List.mem_range.mp member)
      exact agree i below clean
    rw [if_neg empty, if_neg empty, scanStrings_congr agree clean_zero empty]
    dsimp only
    rw [bytes]

/-! ## The map is always filled -/

def nulls (src : Text) (i : Nat) : Nat := ((List.range i).map src).count 0

theorem nulls_succ (null : src i = 0) : nulls src (i + 1) = nulls src i + 1 := by
  simp [nulls, List.range_succ, null]

theorem nulls_mono (below : i ≤ k) : nulls src i ≤ nulls src k := by
  apply List.Sublist.count_le
  exact (List.range_sublist.mpr below).map src

theorem scanStrings_nulls (clean : Clean src len) (text : src len ≠ 0) (counted : count ≤ nulls src len) :
    (scanStrings src max n len count).2 ≤ nulls src (scanStrings src max n len count).1 := by
  induction n generalizing len count with
  | zero => exact counted
  | succ n ih =>
      rw [scanStrings]
      by_cases inside : len < max
      · obtain ⟨last, found, ahead, -, -, short⟩ := clean.round text inside
        have passed : nulls src len ≤ nulls src last := nulls_mono (by omega)
        rw [if_pos inside, found]
        dsimp only
        by_cases room : last < max - 1
        · obtain ⟨null, cleanNext⟩ := short room
          have one := nulls_succ null
          rw [if_pos room]
          by_cases double : src (last + 1) = 0
          · have two : nulls src (last + 2) = _ := nulls_succ double
            rw [if_pos double]
            dsimp only
            omega
          · rw [if_neg double]
            exact ih cleanNext double (by omega)
        · rw [if_neg room]
          dsimp only
          omega
      · rw [if_neg inside]
        exact counted

theorem fillMap_isSome (enough : n ≤ bytes.count 0) : ∃ entries, fillMap k bytes n = some entries := by
  induction n generalizing bytes k with
  | zero => exact ⟨[], rfl⟩
  | succ n ih =>
      have none : (bytes.takeWhile (· ≠ 0)).count 0 = 0 := by
        rw [List.count_eq_zero]
        intro member
        simpa using List.mem_takeWhile_imp member
      have split := congrArg (List.count 0) (List.takeWhile_append_dropWhile (p := (· ≠ (0 : UInt8))) (l := bytes))
      rw [List.count_append, none] at split
      rw [fillMap]
      cases found : bytes.dropWhile (· ≠ 0) with
      | nil =>
          rw [found] at split
          simp only [List.count_nil] at split
          omega
      | cons null rest =>
          rw [found] at split
          have enough : n ≤ rest.count 0 := by
            rw [List.count_cons] at split
            split_ifs at split <;> omega
          obtain ⟨entries, filled⟩ := ih (k := k + (bytes.takeWhile (· ≠ 0)).length + 1) enough
          exact ⟨k :: entries, by dsimp only; rw [filled]; rfl⟩

theorem parse_isSome {s : Text} {m : Nat} {u : Nat} : ∃ parsed, parseNullSeparatedStrings u m s = some parsed := by
  rw [parseNullSeparatedStrings]
  by_cases empty : s 0 = 0
  · exact ⟨_, by rw [if_pos empty]⟩
  · rw [if_neg empty]
    dsimp only
    split_ifs with nothing
    · exact ⟨_, rfl⟩
    · obtain ⟨entries, filled⟩ := fillMap_isSome (k := u - (scanStrings s m m 0 0).1)
        (scanStrings_nulls (n := m) clean_zero empty (Nat.zero_le _))
      exact ⟨_, by rw [filled]; rfl⟩

/-! ## Two histories -/

theorem SameArgument.refl (args : Option Text) : SameArgument args args := by
  cases args with
  | none => trivial
  | some src => exact fun i _ => rfl

theorem parsed_isSome (b : Buffers) : ∃ r, b.parsed = some r := by
  obtain ⟨args, first⟩ := parse_isSome (u := userStackTop - 4) (m := argsMaxLen) (s := b.args)
  obtain ⟨envs, second⟩ := parse_isSome (u := args.useresp) (m := envsMaxLen) (s := b.envs)
  exact ⟨⟨args.count, args.ptrMap, envs.count, envs.ptrMap⟩, by simp [Buffers.parsed, first, second]⟩

theorem parsed_congr {b c : Buffers} {args envs : Text} (first : Shows argsMaxLen b.args args)
    (first' : Shows argsMaxLen c.args args) (second : Shows envsMaxLen b.envs envs)
    (second' : Shows envsMaxLen c.envs envs) : b.parsed = c.parsed := by
  rw [Buffers.parsed, Buffers.parsed, parse_congr first (by decide), parse_congr first' (by decide)]
  congr 1
  funext parsed
  rw [parse_congr second (by decide), parse_congr second' (by decide)]

theorem shows_copies (same : SameStrings src src') (room : 0 < max) :
    Shows max (copyDoubleNull dest src' max) src := by
  obtain ⟨first, rest⟩ := shows_copy room
  obtain ⟨first', rest'⟩ := same.symm.shows
  refine ⟨first.trans first', fun text i below clean => ?_⟩
  have clean' : Clean src' i := by
    obtain rfl | ⟨-, clean'⟩ := same.symm.inStrings (.inr ⟨text, clean⟩)
    · exact clean_zero
    · exact clean'
  rw [rest (by rw [first']; exact text) i below clean', rest' text i below clean]

theorem parsed_argc {b : Buffers} {r : Arguments} {parsed : Parsed} (done : b.parsed = some r)
    (first : parseNullSeparatedStrings (userStackTop - 4) argsMaxLen b.args = some parsed) :
    r.argc = parsed.count := by
  simp only [Buffers.parsed, first, Option.bind_eq_bind, Option.bind_some, Option.bind_eq_some_iff] at done
  obtain ⟨envs, -, built⟩ := done
  exact (congrArg Arguments.argc (Option.some.inj built)).symm

theorem parsed_envc {b : Buffers} {r : Arguments} (done : b.parsed = some r) :
    ∃ useresp parsed, parseNullSeparatedStrings useresp envsMaxLen b.envs = some parsed ∧
      r.envc = parsed.count := by
  simp only [Buffers.parsed, Option.bind_eq_bind, Option.bind_eq_some_iff] at done
  obtain ⟨args, -, envs, second, built⟩ := done
  exact ⟨args.useresp, envs, second, (congrArg Arguments.envc (Option.some.inj built)).symm⟩

-- One string of one letter.
def letter : Text := fun i => if i = 0 then 'a'.toUInt8 else 0

-- The two buffers after a process was given the letter for both.
def spawned : Call := ⟨true, some letter, some letter, true, true⟩

theorem parse_letter {parsed : Parsed} (scan : scanStrings letter max max 0 0 = (3, 1)) (room : 0 < max)
    (done : parseNullSeparatedStrings useresp max (copyDoubleNull dest letter max) = some parsed) :
    parsed.count = 1 := by
  rw [parse_congr (shows_copy room) room, parseNullSeparatedStrings, if_neg (by decide), scan] at done
  simp only [Nat.one_ne_zero, if_false, Option.bind_eq_bind, Option.bind_eq_some_iff] at done
  obtain ⟨entries, -, built⟩ := done
  exact (congrArg Parsed.count (Option.some.inj built)).symm

theorem parse_blank : parseNullSeparatedStrings useresp max (fun _ => 0) = some ⟨useresp, 0, none⟩ := rfl

theorem args_leak (envs : Option Text) : ¬Noninterferent none envs := by
  intro claim
  obtain ⟨r, r', fresh, later, same, -⟩ := claim [] [spawned] none envs trivial (.refl envs)
  have zero : r.argc = 0 := parsed_argc fresh parse_blank
  obtain ⟨parsed, first⟩ := parse_isSome
  have one : r'.argc = 1 := (parsed_argc later first).trans (parse_letter (by decide) (by decide) first)
  omega

theorem envs_leak (args : Option Text) : ¬Noninterferent args none := by
  intro claim
  obtain ⟨r, r', fresh, later, -, -, same, -⟩ := claim [] [spawned] args none (.refl args) trivial
  obtain ⟨useresp, parsed, second, counted⟩ := parsed_envc fresh
  obtain ⟨useresp', parsed', second', counted'⟩ := parsed_envc later
  have zero : parsed.count = 0 := (congrArg Parsed.count (Option.some.inj (second.symm.trans parse_blank)))
  have one : parsed'.count = 1 := parse_letter (by decide) (by decide) second'
  omega

theorem noninterferent_some {args envs : Text} : Noninterferent (some args) (some envs) := by
  intro history history' args' envs' first second
  cases args' with
  | none => exact absurd first id
  | some args' =>
      cases envs' with
      | none => exact absurd second id
      | some envs' =>
          obtain ⟨r, done⟩ := parsed_isSome ((after history).copied (some args) (some envs))
          have same := parsed_congr (b := (after history).copied (some args) (some envs))
            (c := (after history').copied (some args') (some envs')) (shows_copy (by decide))
            (shows_copies first (by decide)) (shows_copy (by decide)) (shows_copies second (by decide))
          exact ⟨r, r, done, same.symm.trans done, rfl, rfl, rfl, rfl⟩

theorem noninterferent_iff (args envs : Option Text) :
    Noninterferent args envs ↔ args.isSome = true ∧ envs.isSome = true := by
  cases args with
  | none => simpa using args_leak envs
  | some args =>
      cases envs with
      | none => simpa using envs_leak (some args)
      | some envs => simpa using noninterferent_some

-- `process_new(eip, true, pagedir, cwd, NULL, NULL)` after a process that was given one argument.
theorem null_args_inherited :
    (received [spawned] none none).any (fun r => r.argc == 1 && r.argvStrings == [['a'.toUInt8]]) = true ∧
      ¬Noninterferent none none :=
  ⟨by decide, args_leak none⟩

end Kerosene.Process

import Mathlib.Data.List.Infix

/-!
# Printing on a screen that scrolls

The lines may be scrolled as they fill up, or all at once before the text is printed.
-/

namespace Kerosene.Lib

/-- `down n` is the position `n` rows further down, `up n` scrolls the cells by `n` rows. -/
structure Terminal (Pos Cells Key : Type*) where
  row : Pos → Nat
  down : Nat → Pos → Pos
  raise : Pos → Pos
  next : Key → Pos → Pos
  put : Key → Pos → Cells → Cells
  up : Nat → Cells → Cells

namespace Terminal
variable {Pos Cells Key : Type*}

-- at a `blocked` position a key does something else than further down
structure Lawful (t : Terminal Pos Cells Key) (rows : Nat) (blocked : Key → Pos → Prop) : Prop where
  row_down : ∀ n p, t.row (t.down n p) = t.row p + n
  down_zero : ∀ p, t.down 0 p = p
  raise_down : ∀ n p, t.raise (t.down (n + 1) p) = t.down n p
  next_down : ∀ n p key, ¬ blocked key p → t.next key (t.down n p) = t.down n (t.next key p)
  row_next : ∀ p key, t.row (t.next key p) ≤ t.row p + 1
  up_zero : ∀ cells, t.up 0 cells = cells
  up_up : ∀ m n cells, m + n < rows → t.up m (t.up n cells) = t.up (m + n) cells
  put_up : ∀ n p key cells, ¬ blocked key p → t.row p + n < rows →
    t.up n (t.put key (t.down n p) cells) = t.put key p (t.up n cells)

def walk (t : Terminal Pos Cells Key) (p : Pos) (keys : List Key) : Pos := keys.foldl (fun p key => t.next key p) p

def write (t : Terminal Pos Cells Key) (s : Pos × Cells) (keys : List Key) : Pos × Cells :=
  keys.foldl (fun s key => (t.next key s.1, t.put key s.1 s.2)) s

/-- One key, and the scroll when it leaves the last row. -/
def type (t : Terminal Pos Cells Key) (rows : Nat) (s : Pos × Cells) (key : Key) : Pos × Cells :=
  let p := t.next key s.1
  let cells := t.put key s.1 s.2
  if rows ≤ t.row p then (t.raise p, t.up 1 cells) else (p, cells)

variable {t : Terminal Pos Cells Key} {rows n : Nat} {blocked : Key → Pos → Prop} {p : Pos} {cells : Cells} {keys : List Key}

theorem walk_nil : t.walk p [] = p := rfl

theorem walk_cons {key : Key} : t.walk p (key :: keys) = t.walk (t.next key p) keys := rfl

theorem walk_append {rest : List Key} : t.walk p (keys ++ rest) = t.walk (t.walk p keys) rest := List.foldl_append

theorem write_append {s : Pos × Cells} {rest : List Key} : t.write s (keys ++ rest) = t.write (t.write s keys) rest :=
  List.foldl_append

theorem write_fst : (t.write (p, cells) keys).1 = t.walk p keys := by
  induction keys generalizing p cells with
  | nil => rfl
  | cons key keys ih => exact ih

/-- Before the text gets to the last row nothing has to stand still at the top. -/
def Free (t : Terminal Pos Cells Key) (rows : Nat) (blocked : Key → Pos → Prop) (n : Nat) (p : Pos) (keys : List Key) : Prop :=
  ∀ q key, q ++ [key] <+: keys → blocked key (t.walk p q) → n = 0 ∨ ∃ r, r <+: q ∧ rows ≤ t.row (t.walk p r) + 1

def Inside (t : Terminal Pos Cells Key) (rows : Nat) (p : Pos) (keys : List Key) : Prop :=
  ∀ q, q <+: keys → t.row (t.walk p q) < rows

theorem Inside.tail {key : Key} (inside : t.Inside rows p (key :: keys)) : t.Inside rows (t.next key p) keys :=
  fun q before => inside (key :: q) (List.cons_prefix_cons.mpr ⟨rfl, before⟩)

theorem Inside.drop {rest : List Key} (inside : t.Inside rows p (keys ++ rest)) : t.Inside rows (t.walk p keys) rest := by
  intro q before
  rw [← walk_append]
  exact inside (keys ++ q) ((List.prefix_append_right_inj keys).mpr before)

theorem Inside.within {q : List Key} (inside : t.Inside rows p keys) (before : q <+: keys) : t.Inside rows p q :=
  fun r shorter => inside r (shorter.trans before)

theorem Free.within {q : List Key} (free : t.Free rows blocked n p keys) (before : q <+: keys) :
    t.Free rows blocked n p q :=
  fun r key shorter => free r key (shorter.trans before)

theorem Free.tail {key : Key} {m : Nat} (free : t.Free rows blocked n p (key :: keys)) (less : m ≤ n)
    (fits : t.row p + n < rows) : t.Free rows blocked m (t.next key p) keys := by
  intro q key' before block
  rcases free (key :: q) key' (List.cons_prefix_cons.mpr ⟨rfl, before⟩) block with zero | ⟨r, shorter, last⟩
  · exact .inl (by omega)
  cases r with
  | nil =>
      rw [walk_nil] at last
      exact .inl (by omega)
  | cons key'' r =>
      obtain ⟨rfl, rest⟩ := List.cons_prefix_cons.mp shorter
      exact .inr ⟨r, rest, last⟩

theorem Free.head {key : Key} (free : t.Free rows blocked n p (key :: keys)) (fits : t.row p + n < rows) :
    n = 0 ∨ ¬ blocked key p := by
  by_cases block : blocked key p
  · rcases free [] key (List.prefix_append [key] keys) block with zero | ⟨r, before, last⟩
    · exact .inl zero
    · obtain rfl := List.prefix_nil.mp before
      rw [walk_nil] at last
      exact .inl (by omega)
  · exact .inr block

namespace Lawful
variable (lawful : t.Lawful rows blocked)
include lawful

theorem walk_down (free : ∀ q key, q ++ [key] <+: keys → ¬ blocked key (t.walk p q)) :
    t.walk (t.down n p) keys = t.down n (t.walk p keys) := by
  induction keys generalizing p with
  | nil => rfl
  | cons key keys ih =>
      have here : ¬ blocked key p := free [] key (List.prefix_append [key] keys)
      rw [walk_cons, walk_cons, lawful.next_down n p key here]
      exact ih fun q key' before => free (key :: q) key' (List.cons_prefix_cons.mpr ⟨rfl, before⟩)

theorem type_down {key : Key} (cells : Cells) (fits : t.row p + n < rows) (unblocked : n = 0 ∨ ¬ blocked key p)
    (below : t.row (t.next key p) < rows) : ∃ m ≤ n, ∃ cells',
      t.type rows (t.down n p, cells) key = (t.down m (t.next key p), cells') ∧
      t.up m cells' = t.put key p (t.up n cells) ∧ t.row (t.next key p) + m < rows := by
  have moved : t.next key (t.down n p) = t.down n (t.next key p) := by
    rcases unblocked with rfl | free
    · rw [lawful.down_zero, lawful.down_zero]
    · exact lawful.next_down n p key free
  have drawn : t.up n (t.put key (t.down n p) cells) = t.put key p (t.up n cells) := by
    rcases unblocked with rfl | free
    · rw [lawful.down_zero, lawful.up_zero, lawful.up_zero]
    · exact lawful.put_up n p key cells free fits
  have atMost := lawful.row_next (t.down n p) key
  rw [moved, lawful.row_down, lawful.row_down] at atMost
  rw [type]
  dsimp only
  rw [moved, lawful.row_down]
  split_ifs with full
  · obtain ⟨m, rfl⟩ : ∃ m, n = m + 1 := ⟨n - 1, by omega⟩
    refine ⟨m, by omega, _, by rw [lawful.raise_down], ?_, by omega⟩
    rw [lawful.up_up m 1 _ (by omega), drawn]
  · exact ⟨n, le_rfl, _, rfl, drawn, by omega⟩

theorem foldl_type_down (cells : Cells) (fits : t.row p + n < rows) (inside : t.Inside rows p keys)
    (free : t.Free rows blocked n p keys) :
    ∃ m ≤ n, ∃ cells', keys.foldl (t.type rows) (t.down n p, cells) = (t.down m (t.walk p keys), cells') ∧
      t.write (p, t.up n cells) keys = (t.walk p keys, t.up m cells') ∧ t.row (t.walk p keys) + m < rows := by
  induction keys generalizing n p cells with
  | nil => exact ⟨n, le_rfl, cells, rfl, rfl, fits⟩
  | cons key keys ih =>
      have below : t.row (t.next key p) < rows := inside [key] (List.prefix_append [key] keys)
      obtain ⟨m, less, cells', typed, drawn, room⟩ := lawful.type_down cells fits (free.head fits) below
      obtain ⟨m', less', cells'', rest, written, last⟩ := ih cells' room inside.tail (free.tail less fits)
      refine ⟨m', by omega, cells'', ?_, ?_, last⟩
      · rw [List.foldl_cons, typed, rest, walk_cons]
      · rw [drawn] at written
        exact written

theorem foldl_type (fits : t.row p + n < rows) (inside : t.Inside rows p keys) (free : t.Free rows blocked n p keys)
    (reaches : n = 0 ∨ ∃ r, r <+: keys ∧ rows ≤ t.row (t.walk p r) + 1) :
    keys.foldl (t.type rows) (t.down n p, cells) = t.write (p, t.up n cells) keys := by
  have plain {p : Pos} {cells : Cells} {keys : List Key} (fits : t.row p < rows) (inside : t.Inside rows p keys) :
      keys.foldl (t.type rows) (t.down 0 p, cells) = t.write (p, t.up 0 cells) keys := by
    obtain ⟨m, zero, cells', typed, written, -⟩ :=
      lawful.foldl_type_down (n := 0) cells fits inside fun _ _ _ _ => .inl rfl
    obtain rfl := Nat.le_zero.mp zero
    rw [typed, written, lawful.down_zero, lawful.up_zero]
  rcases reaches with rfl | ⟨r, ⟨rest, rfl⟩, last⟩
  · exact plain fits inside
  · have first := List.prefix_append r rest
    obtain ⟨m, -, cells', typed, written, room⟩ :=
      lawful.foldl_type_down cells fits (inside.within first) (free.within first)
    obtain rfl : m = 0 := by omega
    rw [List.foldl_append, typed, plain room inside.drop, write_append, written]

end Lawful
end Terminal
end Kerosene.Lib

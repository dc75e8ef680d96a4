import ChartParser.Chart.Span
import ChartParser.Chart.Cell

/-!
# Tables

The table of an input of `size` tokens has one cell for each non-empty span
inside the input and none for any other span. The cells of the spans with one
start form a row, in which the shortest span comes first. No span begins at
the end of the input, and each row is shorter by one than the row before it.
-/
namespace ChartParser

structure Table where
  size : Nat
  rows : Array (Array Cell)
  size_rows : rows.size = size
  size_row : ∀ (i : Nat) (h : i < rows.size), rows[i].size = size - i

namespace Table

/-- The table of empty cells for an input of `n` tokens. -/
def empty (n : Nat) : Table where
  size := n
  rows := Array.ofFn fun i : Fin n => Array.replicate (n - i) {}
  size_rows := Array.size_ofFn
  size_row i h := by simp

instance : Inhabited Table := ⟨empty 0⟩

/-- The span is non-empty and lies inside the input. -/
def Covers (T : Table) (s : Span) : Prop := s.start < s.stop ∧ s.stop ≤ T.size

instance (T : Table) (s : Span) : Decidable (T.Covers s) :=
  inferInstanceAs (Decidable (_ ∧ _))

/-- The row and the column of a span. Spans of length zero have none. -/
def index? (s : Span) : Option (Nat × Nat) :=
  if s.stop ≤ s.start then none else some (s.start, s.length - 1)

def cell? (T : Table) (s : Span) : Option Cell :=
  (index? s).bind fun (row, column) => T.rows[row]?.bind (·[column]?)

/-- The trees of a cell, none where the table has no cell. -/
def treesAt (T : Table) (s : Span) : List Tree :=
  match T.cell? s with
  | some c => c.toList
  | none => []

/-- Replaces a cell, if the table has it. -/
def put (T : Table) (s : Span) (c : Cell) : Table :=
  match index? s with
  | none => T
  | some (row, column) =>
    { T with
      rows := T.rows.modify row (·.setIfInBounds column c)
      size_rows := by rw [Array.size_modify, T.size_rows]
      size_row := by
        intro i h
        rw [Array.size_modify] at h
        rw [Array.getElem_modify, ← T.size_row i h]
        split
        · exact Array.size_setIfInBounds
        · rfl }

/-- Adds a tree to a cell; false where there is no such cell or it has the tree already. -/
def insert (T : Table) (s : Span) (t : Tree) : Table × Bool :=
  match T.cell? s with
  | none => (T, false)
  | some c =>
    match c.insert t with
    | (_, false) => (T, false)
    | (c, true) => (T.put s c, true)

/-- Adds trees to a cell and counts those that were new to it. -/
def insertAll (T : Table) (s : Span) (ts : List Tree) : Table × Nat :=
  match T.cell? s with
  | none => (T, 0)
  | some c =>
    match c.insertAll ts with
    | (_, 0) => (T, 0)
    | (c, count) => (T.put s c, count)

/-- The cell of the whole input, missing for the empty one. -/
def top? (T : Table) : Option Cell := T.cell? ⟨0, T.size⟩

/-- The spans that have a cell, by start and then by stop. -/
def spans (T : Table) : List Span :=
  (List.range T.size).flatMap fun i =>
    (List.range' (i + 1) (T.size - i)).map fun j => ⟨i, j⟩

def render (T : Table) : String :=
  String.join <| T.spans.map fun s =>
    match T.cell? s with
    | some c => s.render ++ ": " ++ c.render ++ "\n"
    | none => ""

/-- Tables agree when they have the same size and agree cell by cell. -/
instance : BEq Table where
  beq T U := T.size == U.size && T.rows == U.rows

@[simp] theorem size_put (T : Table) (s : Span) (c : Cell) : (T.put s c).size = T.size := by
  unfold put
  split
  · rfl
  · rfl

theorem index?_of_lt {s : Span} (h : s.start < s.stop) :
    index? s = some (s.start, s.length - 1) := by
  rw [index?, if_neg (by omega)]

/-- A span has a column in the row of its start when it ends inside the input. -/
theorem cell?_eq_none_iff {T : Table} {s : Span} : T.cell? s = none ↔ ¬T.Covers s := by
  unfold cell? Covers
  by_cases hlt : s.start < s.stop
  · rw [index?_of_lt hlt, Option.bind_some]
    by_cases hrow : s.start < T.rows.size
    · have hsize := T.size_row s.start hrow
      simp only [Array.getElem?_eq_getElem hrow, Option.bind_some, Array.getElem?_eq_none_iff,
        hsize, Span.length]
      omega
    · have hnone : T.rows[s.start]? = none := Array.getElem?_eq_none_iff.mpr (by omega)
      have hsize := T.size_rows
      simp only [hnone, Option.bind_none, true_iff]
      omega
  · rw [index?, if_pos (by omega)]
    simp [hlt]

/-- No two spans share a place. -/
theorem index?_inj {s u : Span} (hs : s.start < s.stop) (h : index? s = index? u) : s = u := by
  obtain ⟨i, j⟩ := s
  obtain ⟨i', j'⟩ := u
  rw [index?_of_lt hs, index?] at h
  split at h
  · cases h
  · next hu =>
    simp only [Span.length, Option.some.injEq, Prod.mk.injEq] at hs hu h
    rw [Span.mk.injEq]
    omega

theorem rows_put {T : Table} {s : Span} (hs : s.start < s.stop) (c : Cell) :
    (T.put s c).rows = T.rows.modify s.start (·.setIfInBounds (s.length - 1) c) := by
  unfold put
  split
  · next h =>
    rw [index?_of_lt hs] at h
    cases h
  · next h =>
    rw [index?_of_lt hs] at h
    cases h
    rfl

theorem cell?_put_self {T : Table} {s : Span} {c : Cell} (hs : T.Covers s) :
    (T.put s c).cell? s = some c := by
  obtain ⟨hlt, hstop⟩ := hs
  have hrow : s.start < T.rows.size := by
    rw [T.size_rows]
    omega
  have hcolumn : s.length - 1 < T.rows[s.start].size := by
    rw [T.size_row s.start hrow, Span.length]
    omega
  simp only [cell?, index?_of_lt hlt, Option.bind_some, rows_put hlt, Array.getElem?_modify,
    if_pos, Array.getElem?_eq_getElem hrow, Option.map_some,
    Array.getElem?_setIfInBounds_self_of_lt hcolumn]

theorem cell?_put_of_ne {T : Table} {s u : Span} {c : Cell} (hs : s.start < s.stop) (h : s ≠ u) :
    (T.put s c).cell? u = T.cell? u := by
  unfold cell?
  cases hu : index? u with
  | none => rfl
  | some place =>
    obtain ⟨row, column⟩ := place
    rw [Option.bind_some, Option.bind_some, rows_put hs]
    dsimp only
    rw [Array.getElem?_modify]
    split
    · next hrow =>
      -- The row is written to, but not in this column.
      have hcolumn : s.length - 1 ≠ column := by
        intro hcolumn
        apply h
        apply index?_inj hs
        rw [hu, index?_of_lt hs, hrow, hcolumn]
      rw [Option.bind_map]
      refine congrArg _ (funext fun cells => ?_)
      exact Array.getElem?_setIfInBounds_ne hcolumn
    · rfl

theorem cell?_put {T : Table} {s u : Span} {c : Cell} (hs : T.Covers s) :
    (T.put s c).cell? u = if s = u then some c else T.cell? u := by
  split
  · next h => rw [← h, cell?_put_self hs]
  · next h => rw [cell?_put_of_ne hs.1 h]

theorem mem_spans {T : Table} {s : Span} : s ∈ T.spans ↔ T.Covers s := by
  simp only [spans, List.mem_flatMap, List.mem_range, List.mem_map, List.mem_range'_1, Covers]
  constructor
  · rintro ⟨i, hi, j, hj, rfl⟩
    dsimp only
    omega
  · intro h
    exact ⟨s.start, by omega, s.stop, by omega, rfl⟩

end Table

end ChartParser

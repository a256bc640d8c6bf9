import Talpf.IBVerbs.CachedPrograms
import Talpf.Library.Loops

/-!
# The heat solver

The solver cuts a surface into bands of rows, one for each process.  A process has
two matrices with its band and a halo row above and below it: it computes one from
the other, puts its first and its last row into the halos of its neighbours, and
ends its superstep with a cached sync.  The tasks of a process are carried out one
after the other in the order of the program, up to the default sync at its end, and
the arithmetic of the stencil is a parameter.
-/

namespace Talpf

open Relaxed IBVerbs

namespace Jacobi

variable {n : ℕ}

/-- A `double` as its bytes -/
abbrev Double := Fin 8 → UInt8

abbrev Program (n : ℕ) := Code (Fin n) ℕ UInt8

structure HeatConfiguration where
  timesteps : ℕ
  rows : ℕ
  cols : ℕ
  rbs : ℕ
  cbs : ℕ
deriving DecidableEq, Repr

def round (a b : ℕ) : ℕ := (a + b - 1) / b * b

def refineConfiguration (conf : HeatConfiguration) (rowValue colValue : ℕ) : HeatConfiguration :=
  { conf with
    rows := if conf.rows % rowValue ≠ 0 then round conf.rows rowValue else conf.rows
    cols := if conf.cols % colValue ≠ 0 then round conf.cols colValue else conf.cols }

/-- The address of `matrix[r][c]` -/
def cell (cols matrix r c : ℕ) : ℕ := matrix + 8 * (r * cols + c)

def load (cols matrix r c : ℕ) (next : Double → Program n) : Program n :=
  Code.reads 8 (fun i => cell cols matrix r c + i) next

def bytes (cols matrix r c : ℕ) (value : Double) : List (ℕ × UInt8) :=
  (List.finRange 8).map fun i : Fin 8 => (cell cols matrix r c + i, value i)

/-- The indices of a loop from the first to the last -/
def span (first last : ℕ) : List ℕ := List.range' first (last + 1 - first)

section Solver

-- `0.25*(up + down + left + right)`
variable (stencil : Double → Double → Double → Double → Double)

def computeCell (cols srcM dstM r c : ℕ) (next : Program n) : Program n :=
  load cols srcM (r - 1) c fun up =>
    load cols srcM (r + 1) c fun down =>
      load cols srcM r (c - 1) fun left =>
        load cols srcM r (c + 1) fun right =>
          Code.writes (bytes cols dstM r c (stencil up down left right)) next

def computeBlock (cols rstart rend cstart cend srcM dstM : ℕ) : Program n → Program n :=
  Code.forEach (span rstart rend) fun r =>
    Code.forEach (span cstart cend) fun c => computeCell stencil cols srcM dstM r c

variable (tables : Fin n → CombinedMemoryRegister (MemorySlot n)) (rank : Fin n)

def put (lslot loffset : ℕ) (dst : Fin n) (rslot roffset nelems : ℕ) : Program n → Program n :=
  .send dst
    ((IBVerbs.Operation.put lslot (loffset * 8) dst rslot (roffset * 8) (nelems * 8)).places rank
      (tables rank))

theorem pred_lt (rank : Fin n) : rank.val - 1 < n :=
  Nat.lt_of_le_of_lt (Nat.sub_le ..) rank.isLt

theorem succ_lt {rank : Fin n} (inside : rank.val ≠ n - 1) : rank.val + 1 < n := by
  omega

/-- The first row goes to the process above. -/
def putUpper (cols cbs upper lower C : ℕ) (next : Program n) : Program n :=
  if rank.val ≠ 0 then
    put tables rank upper (cols + (C - 1) * cbs + 1)
      ⟨rank.val - 1, pred_lt rank⟩
      lower (cols + (C - 1) * cbs + 1) cbs next
  else next

/-- The last row goes to the process below. -/
def putLower (cbs upper lower C : ℕ) (next : Program n) : Program n :=
  if inside : rank.val ≠ n - 1 then
    put tables rank lower ((C - 1) * cbs + 1) ⟨rank.val + 1, succ_lt inside⟩
      upper ((C - 1) * cbs + 1) cbs next
  else next

def jacobiSolver (cols rbs cbs nrb ncb srcM dstM upper lower : ℕ) (next : Program n) :
    Program n :=
  Code.forEach (span 1 (nrb - 2)) (fun R =>
    Code.forEach (span 1 (ncb - 2)) fun C =>
      computeBlock stencil cols ((R - 1) * rbs + 1) (R * rbs) ((C - 1) * cbs + 1) (C * cbs)
        srcM dstM) <|
    Code.forEach (span 1 (ncb - 2)) (fun C next =>
      putUpper tables rank cols cbs upper lower C (putLower tables rank cbs upper lower C next)) <|
      .sync next

def solve (rows cols rbs cbs : ℕ) :
    (timesteps matrix1 matrix2 upper1 upper2 lower1 lower2 : ℕ) → Program n
  | 0, _, _, _, _, _, _ => .done
  | timesteps + 1, matrix1, matrix2, upper1, upper2, lower1, lower2 =>
      jacobiSolver stencil tables rank cols rbs cbs ((rows - 2) / rbs + 2) ((cols - 2) / cbs + 2)
        matrix1 matrix2 upper2 lower2
        (solve rows cols rbs cbs timesteps matrix2 matrix1 upper2 upper1 lower2 lower1)

end Solver

/-- What the heat sources add up to at the edges of the surface -/
structure Edges where
  top : ℕ → Double
  bottom : ℕ → Double
  left : ℕ → Double
  right : ℕ → Double

def initializeMatrix (edges : Edges) (totalRows rows cols rowOffset r c : ℕ) : Double :=
  if r = 0 then
    if rowOffset = 0 then edges.top c else fun _ => 0
  else if r + 1 = rows then
    if rowOffset + rows = totalRows then edges.bottom c else fun _ => 0
  else if c = 0 then edges.left (rowOffset + r)
  else if c + 1 = cols then edges.right (rowOffset + r)
  else fun _ => 0

/-- The whole surface after `k` iterations, computed by one process -/
def heat (stencil : Double → Double → Double → Double → Double) (rows cols : ℕ)
    (initial : ℕ → ℕ → Double) : ℕ → ℕ → ℕ → Double
  | 0, r, c => initial r c
  | k + 1, r, c =>
      if 0 < r ∧ r + 1 < rows ∧ 0 < c ∧ c + 1 < cols then
        stencil (heat stencil rows cols initial k (r - 1) c)
          (heat stencil rows cols initial k (r + 1) c)
          (heat stencil rows cols initial k r (c - 1))
          (heat stencil rows cols initial k r (c + 1))
      else initial r c

namespace HeatConfiguration

/-- The rows of a process without its halos -/
def band (conf : HeatConfiguration) (n : ℕ) : ℕ := conf.rows / n

def rowsPerRank (conf : HeatConfiguration) (n : ℕ) : ℕ := conf.rows / n + 2

/-- The columns of a matrix -/
def width (conf : HeatConfiguration) : ℕ := conf.cols + 2

/-- What process 0 makes of the configuration that it has read -/
def refined (conf : HeatConfiguration) (nranks : ℕ) : HeatConfiguration :=
  refineConfiguration conf (nranks * conf.rbs) conf.cbs

end HeatConfiguration

/-- `MPI_Gather`: the blocks of all processes, one after the other -/
def gather {Element : Type} (count : ℕ) (send : Fin n → ℕ → Element) (recv : ℕ → Element)
    (index : ℕ) : Element :=
  if within : index / count < n then send ⟨index / count, within⟩ (index % count) else recv index

/-- The image, element by element -/
def generateImage (edges : Edges) (conf : HeatConfiguration) (matrix : Fin n → ℕ → Double)
    (index : ℕ) : Double :=
  let auxMatrix index := initializeMatrix edges (conf.rows + 2) (conf.rows + 2) conf.width 0
    (index / conf.width) (index % conf.width)
  if index < conf.width then auxMatrix index
  else
    gather ((conf.rowsPerRank n - 2) * conf.width) (fun rank i => matrix rank (conf.width + i))
      (fun i => auxMatrix (conf.width + i)) (index - conf.width)

/-- A configuration with the matrices of all processes and the slots of their halos.  Its numbers
fit `int`, and so do those of the cells of its surface. -/
structure Surface (tables : Fin n → CombinedMemoryRegister (MemorySlot n)) where
  given : HeatConfiguration
  given_rows : 0 < given.rows
  given_cols : 0 < given.cols
  rbs_pos : 0 < given.rbs
  cbs_pos : 0 < given.cbs
  nranks_pos : 0 < n
  timesteps_lt : given.timesteps < 2 ^ 31
  cells_lt : ((given.refined n).rows + 2) * (given.refined n).width < 2 ^ 31
  /-- `conf->matrix` and `conf->matrixAux` of each process -/
  matrix : Bool → Fin n → ℕ
  distinct : ∀ p, matrix false p + 8 * ((given.refined n).rowsPerRank n * (given.refined n).width) ≤
      matrix true p ∨
    matrix true p + 8 * ((given.refined n).rowsPerRank n * (given.refined n).width) ≤ matrix false p
  upperHalo : Bool → ℕ
  lowerHalo : Bool → ℕ
  upperSlot : ∀ i p, ∃ slot, (tables p).lookup (upperHalo i) = some slot ∧
    ∀ q, (slot.glob q).addr = cell (given.refined n).width (matrix i q) 0 0
  lowerSlot : ∀ i p, ∃ slot, (tables p).lookup (lowerHalo i) = some slot ∧
    ∀ q, (slot.glob q).addr =
      cell (given.refined n).width (matrix i q) ((given.refined n).rowsPerRank n - 2) 0

theorem dvd_round (a b : ℕ) : b ∣ round a b := Dvd.intro_left _ rfl

theorem le_round {b : ℕ} (positive : 0 < b) (a : ℕ) : a ≤ round a b := by
  have below := Nat.lt_div_mul_add positive (a := a + b - 1)
  rw [← round] at below
  omega

theorem round_lt {b : ℕ} (positive : 0 < b) (a : ℕ) : round a b < a + b := by
  have above := Nat.div_mul_le_self (a + b - 1) b
  rw [← round] at above
  omega

theorem refineConfiguration_dvd (conf : HeatConfiguration) (rowValue colValue : ℕ) :
    rowValue ∣ (refineConfiguration conf rowValue colValue).rows ∧
      colValue ∣ (refineConfiguration conf rowValue colValue).cols := by
  constructor
  · simp only [refineConfiguration]
    split
    next => exact dvd_round _ _
    next divisible => exact Nat.dvd_of_mod_eq_zero (not_not.mp divisible)
  · simp only [refineConfiguration]
    split
    next => exact dvd_round _ _
    next divisible => exact Nat.dvd_of_mod_eq_zero (not_not.mp divisible)

theorem refineConfiguration_rows (conf : HeatConfiguration) {rowValue : ℕ}
    (positive : 0 < rowValue) (colValue : ℕ) :
    conf.rows ≤ (refineConfiguration conf rowValue colValue).rows ∧
      (refineConfiguration conf rowValue colValue).rows < conf.rows + rowValue := by
  simp only [refineConfiguration]
  split
  next => exact ⟨le_round positive _, round_lt positive _⟩
  next => exact ⟨Nat.le_refl _, Nat.lt_add_of_pos_right positive⟩

theorem refineConfiguration_cols (conf : HeatConfiguration) (rowValue : ℕ) {colValue : ℕ}
    (positive : 0 < colValue) :
    conf.cols ≤ (refineConfiguration conf rowValue colValue).cols ∧
      (refineConfiguration conf rowValue colValue).cols < conf.cols + colValue := by
  simp only [refineConfiguration]
  split
  next => exact ⟨le_round positive _, round_lt positive _⟩
  next => exact ⟨Nat.le_refl _, Nat.lt_add_of_pos_right positive⟩

namespace Surface

variable {tables : Fin n → CombinedMemoryRegister (MemorySlot n)} (surface : Surface tables)

def conf : HeatConfiguration := surface.given.refined n

theorem rows_pos : 0 < surface.conf.rows :=
  Nat.lt_of_lt_of_le surface.given_rows (refineConfiguration_rows surface.given
    (Nat.mul_pos surface.nranks_pos surface.rbs_pos) surface.given.cbs).1

theorem cols_pos : 0 < surface.conf.cols :=
  Nat.lt_of_lt_of_le surface.given_cols
    (refineConfiguration_cols surface.given (n * surface.given.rbs) surface.cbs_pos).1

theorem rows_dvd : n * surface.conf.rbs ∣ surface.conf.rows :=
  (refineConfiguration_dvd surface.given _ _).1

theorem cols_dvd : surface.conf.cbs ∣ surface.conf.cols :=
  (refineConfiguration_dvd surface.given _ _).2

theorem apart (p : Fin n) :
    surface.matrix false p + 8 * (surface.conf.rowsPerRank n * surface.conf.width) ≤
        surface.matrix true p ∨
      surface.matrix true p + 8 * (surface.conf.rowsPerRank n * surface.conf.width) ≤
        surface.matrix false p :=
  surface.distinct p

theorem upper (i : Bool) (p : Fin n) : ∃ slot,
    (tables p).lookup (surface.upperHalo i) = some slot ∧
      ∀ q, (slot.glob q).addr = cell surface.conf.width (surface.matrix i q) 0 0 :=
  surface.upperSlot i p

theorem lower (i : Bool) (p : Fin n) : ∃ slot,
    (tables p).lookup (surface.lowerHalo i) = some slot ∧ ∀ q, (slot.glob q).addr =
      cell surface.conf.width (surface.matrix i q) (surface.conf.rowsPerRank n - 2) 0 :=
  surface.lowerSlot i p

def band : ℕ := surface.conf.band n

theorem all_bands : n * surface.band = surface.conf.rows :=
  Nat.mul_div_cancel' (Nat.dvd_trans (Nat.dvd_mul_right ..) surface.rows_dvd)

theorem band_pos : 0 < surface.band := by
  apply Nat.pos_of_ne_zero
  intro isZero
  have rows := surface.all_bands
  rw [isZero, Nat.mul_zero] at rows
  exact Nat.ne_of_lt surface.rows_pos rows

theorem rbs_dvd_band : surface.conf.rbs ∣ surface.band :=
  Nat.dvd_div_of_mul_dvd surface.rows_dvd

theorem band_le (p : Fin n) : p.val * surface.band + surface.band ≤ surface.conf.rows := by
  rw [← surface.all_bands, ← Nat.succ_mul]
  exact Nat.mul_le_mul_right _ p.isLt

/-- Rows, columns and the blocks of rows and of cells that processes have are numbers of `int`. -/
theorem fits_int : surface.conf.rows + 2 < 2 ^ 31 ∧ surface.conf.width < 2 ^ 31 ∧
    n * surface.conf.rbs < 2 ^ 31 ∧
    (surface.conf.rowsPerRank n - 2) * surface.conf.width < 2 ^ 31 := by
  have cells : (surface.conf.rows + 2) * surface.conf.width < 2 ^ 31 := surface.cells_lt
  have rows : surface.conf.rows + 2 ≤ (surface.conf.rows + 2) * surface.conf.width :=
    Nat.le_mul_of_pos_right _ (Nat.succ_pos _)
  have cols : surface.conf.width ≤ (surface.conf.rows + 2) * surface.conf.width :=
    Nat.le_mul_of_pos_left _ (Nat.succ_pos _)
  have blocks := Nat.le_of_dvd surface.rows_pos surface.rows_dvd
  have band : surface.conf.rowsPerRank n - 2 ≤ surface.conf.rows + 2 :=
    Nat.le_trans (Nat.div_le_self ..) (Nat.le_add_right ..)
  have count := Nat.mul_le_mul_right surface.conf.width band
  omega

def program (stencil : Double → Double → Double → Double → Double) (rank : Fin n) : Program n :=
  solve stencil tables rank (surface.conf.rowsPerRank n) surface.conf.width surface.conf.rbs
    surface.conf.cbs surface.conf.timesteps (surface.matrix false rank) (surface.matrix true rank)
    (surface.upperHalo false) (surface.upperHalo true)
    (surface.lowerHalo false) (surface.lowerHalo true)

end Surface

theorem mem_span {first last i : ℕ} : i ∈ span first last ↔ first ≤ i ∧ i ≤ last := by
  rw [span, List.mem_range'_1]
  omega

/-- Blocks cover what they divide. -/
theorem exists_block {size whole : ℕ} (positive : 0 < size) (dvd : size ∣ whole) {i : ℕ} :
    (∃ block ∈ span 1 (whole / size), i ∈ span ((block - 1) * size + 1) (block * size)) ↔
      i ∈ span 1 whole := by
  rcases dvd with ⟨count, rfl⟩
  rw [Nat.mul_div_cancel_left _ positive]
  simp only [mem_span]
  constructor
  · rintro ⟨block, ⟨first, last⟩, from_, to_⟩
    have within := Nat.mul_le_mul_right size last
    rw [Nat.mul_comm size count]
    omega
  · rintro ⟨first, last⟩
    refine ⟨(i - 1) / size + 1, ⟨Nat.le_add_left .., ?_⟩, ?_, ?_⟩
    · apply Nat.div_lt_of_lt_mul
      omega
    · have below := Nat.div_mul_le_self (i - 1) size
      rw [Nat.add_sub_cancel]
      omega
    · have above := Nat.lt_div_mul_add positive (a := i - 1)
      rw [Nat.succ_mul]
      omega

/-- No two cells share a byte. -/
theorem cell_inj {cols matrix r c i itsR itsC itsI : ℕ} (isCol : c < cols) (isByte : i < 8)
    (itsCol : itsC < cols) (itsByte : itsI < 8)
    (same : cell cols matrix r c + i = cell cols matrix itsR itsC + itsI) :
    r = itsR ∧ c = itsC ∧ i = itsI := by
  simp only [cell] at same
  have index : r * cols + c = itsR * cols + itsC := by omega
  have positive : 0 < cols := Nat.lt_of_le_of_lt (Nat.zero_le _) isCol
  have rows := congrArg (· / cols) index
  simp only [Nat.mul_comm _ cols, Nat.mul_add_div positive, Nat.div_eq_of_lt isCol,
    Nat.div_eq_of_lt itsCol, Nat.add_zero] at rows
  subst rows
  omega

theorem cell_lt {cols matrix rows r c i : ℕ} (isRow : r < rows) (isCol : c < cols)
    (isByte : i < 8) : cell cols matrix r c + i < matrix + 8 * (rows * cols) := by
  have below := Nat.mul_le_mul_right cols isRow
  rw [Nat.succ_mul] at below
  rw [cell]
  omega

theorem le_cell {cols matrix r c i : ℕ} : matrix ≤ cell cols matrix r c + i := by
  rw [cell]
  omega

section Rows

variable {cols matrix r c i first last place : ℕ}

/-- Between two cells of a row are the bytes of cells of this row. -/
theorem exists_cell (lower : cell cols matrix r first ≤ place)
    (upper : place < cell cols matrix r last) :
    ∃ c i, first ≤ c ∧ c < last ∧ i < 8 ∧ place = cell cols matrix r c + i := by
  simp only [cell] at lower upper ⊢
  refine ⟨(place - (matrix + 8 * (r * cols))) / 8, (place - (matrix + 8 * (r * cols))) % 8, ?_⟩
  omega

theorem between_cells (lower : first ≤ c) (upper : c < last) (isByte : i < 8) :
    cell cols matrix r first ≤ cell cols matrix r c + i ∧
      cell cols matrix r c + i < cell cols matrix r last := by
  simp only [cell]
  omega

/-- Later rows do not come before the end of the first one. -/
theorem not_lt_cell (later : 0 < r) (within : last ≤ cols) :
    ¬cell cols matrix r c + i < cell cols matrix 0 last := by
  have further := Nat.le_mul_of_pos_left cols later
  simp only [cell]
  omega

/-- The cells of a column are as far from the start of their rows. -/
theorem cell_shift {itsMatrix itsR : ℕ} :
    cell cols itsMatrix itsR 0 + (cell cols matrix r c + i - cell cols matrix r 0) =
      cell cols itsMatrix itsR c + i := by
  simp only [cell]
  omega

end Rows

end Jacobi

end Talpf

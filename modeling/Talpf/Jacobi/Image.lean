import Talpf.Jacobi.Iterations

/-!
# The image

On the library every process ends with its rows of the surface that one process
would have computed, and the image that is gathered from them is that surface.
-/

namespace Talpf

open Relaxed IBVerbs

namespace Jacobi

variable {n : ℕ}

section Indices

variable {cols r c : ℕ} (isCol : c < cols)

include isCol

theorem row_of_index : (r * cols + c) / cols = r := by
  rw [Nat.mul_comm, Nat.mul_add_div (Nat.lt_of_le_of_lt (Nat.zero_le _) isCol),
    Nat.div_eq_of_lt isCol, Nat.add_zero]

theorem column_of_index : (r * cols + c) % cols = c := by
  rw [Nat.mul_comm, Nat.mul_add_mod, Nat.mod_eq_of_lt isCol]

theorem index_lt {rows : ℕ} (isRow : r < rows) : r * cols + c < rows * cols := by
  have below := Nat.mul_le_mul_right cols isRow
  rw [Nat.succ_mul] at below
  omega

end Indices

section Gathers

variable {Element : Type} {count : ℕ} {send : Fin n → ℕ → Element} {recv : ℕ → Element}

theorem gather_eq (rank : Fin n) {i : ℕ} (within : i < count) :
    gather count send recv (rank.val * count + i) = send rank i := by
  rw [gather]
  simp only [row_of_index within, column_of_index within, rank.isLt, dif_pos]

theorem gather_of_le (positive : 0 < count) {index : ℕ} (beyond : n * count ≤ index) :
    gather count send recv index = recv index :=
  dif_neg (Nat.not_lt.mpr ((Nat.le_div_iff_mul_le positive).mpr beyond))

end Gathers

namespace Surface

variable {tables : Fin n → CombinedMemoryRegister (MemorySlot n)} {surface : Surface tables}
  {stencil : Double → Double → Double → Double → Double} {p : Fin n} {r c : ℕ}
  {edges : Edges}

instance (which : Bool) (place : ℕ) : Decidable (surface.Inside which p place) :=
  inferInstanceAs (Decidable (_ ∧ _))

variable (surface) in
/-- A memory with the initialised matrices -/
def initialMemory (edges : Edges) : Address n → UInt8 := fun address =>
  let which := !decide (surface.Inside false address.1 address.2)
  let offset := address.2 - surface.matrix which address.1
  initializeMatrix edges (surface.conf.rows + 2) (surface.conf.rowsPerRank n) surface.conf.width
    ((surface.conf.rowsPerRank n - 2) * address.1.val) (offset / 8 / surface.conf.width)
    (offset / 8 % surface.conf.width) ⟨offset % 8, Nat.mod_lt _ (Nat.succ_pos 7)⟩

theorem initialised_initialMemory (edges : Edges) :
    surface.Initialised edges (surface.initialMemory edges) := by
  intro which p r c isRow isCol
  funext i
  have inside : surface.Inside which p
      (cell surface.conf.width (surface.matrix which p) r c + i) :=
    inside_cell isRow isCol i.isLt
  have isWhich : (!decide (surface.Inside false p
      (cell surface.conf.width (surface.matrix which p) r c + i))) = which := by
    cases which
    · simp [inside]
    · have notFirst : ¬surface.Inside false p
          (cell surface.conf.width (surface.matrix true p) r c + i) :=
        fun first => @not_inside_both _ _ _ _ _ false first inside
      simp [notFirst]
  have offset : cell surface.conf.width (surface.matrix which p) r c + i -
      surface.matrix which p = 8 * (r * surface.conf.width + c) + i := by
    rw [cell]
    omega
  have index : (8 * (r * surface.conf.width + c) + i.val) / 8 = r * surface.conf.width + c := by
    omega
  have byte : (8 * (r * surface.conf.width + c) + i.val) % 8 = i := by
    omega
  simp only [value, initialMemory, isWhich, offset, index, byte, row_of_index isCol,
    column_of_index isCol]

section Runs

variable {maxMsgSize : ℕ} {devices : Fin n → Device n} {memory : Address n → UInt8}
  {labels : List (Relaxed.Call (Fin n) ℕ UInt8)} {fabric : Fabric n}
  {codes : Fin n → Program n} {edges : Edges}

/-- What a process that has ended finds in the rows of its matrices -/
theorem memory_row (positive : 0 < maxMsgSize) (device : maxMsgSize < 2 ^ 32)
    (run : (Fabric.coded maxMsgSize tables devices memory).Runs labels fabric)
    (executes : Executes (surface.program stencil) labels codes)
    (computing : (fabric.world.parties p).Computing) (ended : codes p = .done) (which : Bool)
    (first : 0 < r) (last : r < surface.band + 1) (isCol : c < surface.conf.width) :
    value surface.conf.width (surface.matrix which p) (fun place => fabric.memory (p, place)) r c =
      value surface.conf.width (surface.matrix which p)
        (surface.after stencil memory surface.conf.timesteps p).memory r c := by
  rcases Fabric.meant_run pattern_symmetric positive device buffered_plan follows_program run
    executes computing with ⟨view, finds, means, _, rest⟩
  rw [ended] at means rest
  funext i
  apply (finds _ (plan_own which first last isCol i) (plan_own which first last isCol i)).trans
  rw [← memory_of_ended p rest.symm]
  exact congrFun means _

/-- Whenever a process has ended it has its rows of the whole surface after all iterations, bit for
bit, and no counter of a process leaves its range. -/
theorem bands_heat (positive : 0 < maxMsgSize) (device : maxMsgSize < 2 ^ 32)
    (initialised : surface.Initialised edges memory)
    (run : (Fabric.coded maxMsgSize tables devices memory).Runs labels fabric)
    (executes : Executes (surface.program stencil) labels codes) :
    (∀ p, (fabric.world.parties p).Computing → codes p = .done → ∀ r c, 0 < r →
      r < surface.band + 1 → c < surface.conf.width →
        value surface.conf.width (surface.matrix surface.conf.timesteps.bodd p)
            (fun place => fabric.memory (p, place)) r c =
          surface.whole stencil edges surface.conf.timesteps (p.val * surface.band + r) c) ∧
    fabric.world.Ints := by
  constructor
  · intro p computing ended r c first last isCol
    rw [memory_row positive device run executes computing ended _ first last isCol]
    exact (holds_after initialised (Nat.le_refl _) p).read r c
      ⟨Nat.lt_succ_of_lt last, isCol, Or.inl ⟨first, last⟩⟩
  · have runs := (Fabric.overlapping_of_plan pattern_symmetric positive device buffered_plan
      follows_program run executes).1
    exact World.Reachable.ints_of_pattern fits_pattern pattern_symmetric
      (Fabric.neighbourly_reachable runs.reachable).1

/-- If the halos can be put, all processes can always come to their ends. -/
theorem exists_ended (positive : 0 < maxMsgSize) (device : maxMsgSize < 2 ^ 32)
    (puttable : surface.Puttable maxMsgSize) (devices : Fin n → Device n)
    (memory : Address n → UInt8) (stencil : Double → Double → Double → Double → Double) :
    ∃ labels codes fabric, (Fabric.coded maxMsgSize tables devices memory).Runs labels fabric ∧
      Executes (surface.program stencil) labels codes ∧ (∀ p, codes p = .done) ∧
      ∀ p, (fabric.world.parties p).Computing ∧
        (fabric.world.parties p).superstep = surface.conf.timesteps :=
  Fabric.exists_ended pattern_symmetric positive device buffered_plan follows_program devices memory
    (Nat.le_of_lt surface.timesteps_lt) (ends_remaining puttable 0 _)

variable (surface) in
/-- `conf->matrix` of the processes when they have ended -/
def solved (memory : Address n → UInt8) (p : Fin n) (index : ℕ) : Double := fun i =>
  memory (p, surface.matrix surface.conf.timesteps.bodd p + 8 * index + i)

theorem solved_eq (row column : ℕ) : surface.solved fabric.memory p
    (surface.conf.width + (row * surface.conf.width + column)) =
      value surface.conf.width (surface.matrix surface.conf.timesteps.bodd p)
        (fun place => fabric.memory (p, place)) (row + 1) column := by
  funext i
  simp only [solved, value, cell, Nat.succ_mul]
  congr 2
  omega

theorem generateImage_eq (positive : 0 < maxMsgSize) (device : maxMsgSize < 2 ^ 32)
    (initialised : surface.Initialised edges memory)
    (run : (Fabric.coded maxMsgSize tables devices memory).Runs labels fabric)
    (executes : Executes (surface.program stencil) labels codes)
    (computing : ∀ p, (fabric.world.parties p).Computing) (ended : ∀ p, codes p = .done)
    (isRow : r < surface.conf.rows + 2) (isCol : c < surface.conf.width) :
    generateImage edges surface.conf (surface.solved fabric.memory) (r * surface.conf.width + c) =
      surface.whole stencil edges surface.conf.timesteps r c := by
  have atEdge : ∀ {r}, ¬surface.Interior r c →
      initializeMatrix edges (surface.conf.rows + 2) (surface.conf.rows + 2) surface.conf.width 0
        ((r * surface.conf.width + c) / surface.conf.width)
        ((r * surface.conf.width + c) % surface.conf.width) =
          surface.whole stencil edges surface.conf.timesteps r c := by
    intro r edge
    rw [row_of_index isCol, column_of_index isCol, whole_edge edge]
    rfl
  rw [generateImage]
  simp only
  cases r with
  | zero =>
      rw [if_pos (by omega)]
      exact atEdge fun interior => Nat.lt_irrefl 0 interior.1
  | succ row =>
      have index : (row + 1) * surface.conf.width + c =
          surface.conf.width + (row * surface.conf.width + c) := by
        rw [Nat.succ_mul]
        omega
      rw [if_neg (by omega), index, Nat.add_sub_cancel_left]
      by_cases last : row = surface.conf.rows
      · rw [gather_of_le, ← index]
        · exact atEdge fun interior => Nat.lt_irrefl _ (last ▸ Nat.lt_of_succ_lt_succ interior.2.1)
        · exact Nat.mul_pos surface.band_pos (Nat.lt_of_le_of_lt (Nat.zero_le _) isCol)
        · rw [last, ← surface.all_bands, Nat.mul_assoc]
          exact Nat.le_add_right ..
      · -- the row is the one below `row % band` of its process
        have inBand : row / surface.band < n := by
          apply Nat.div_lt_of_lt_mul
          rw [Nat.mul_comm, surface.all_bands]
          omega
        have below : row % surface.band < surface.band := Nat.mod_lt _ surface.band_pos
        have split := Nat.div_add_mod' row surface.band
        have inBlock : row * surface.conf.width + c =
            row / surface.band * (surface.band * surface.conf.width) +
              (row % surface.band * surface.conf.width + c) := by
          rw [← Nat.mul_assoc, ← Nat.add_assoc, ← Nat.add_mul, split]
        rw [inBlock]
        apply (gather_eq ⟨row / surface.band, inBand⟩ (index_lt isCol below)).trans
        rw [solved_eq, memory_row positive device run executes (computing _) (ended _) _
          (Nat.succ_pos _) (Nat.succ_lt_succ below) isCol]
        apply ((holds_after initialised (Nat.le_refl _) _).read _ c
          ⟨Nat.succ_lt_succ (Nat.lt_succ_of_lt below), isCol,
            Or.inl ⟨Nat.succ_pos _, Nat.succ_lt_succ below⟩⟩).trans
        exact congrArg (fun row => surface.whole stencil edges _ (row + 1) c) split

/-- The image is the whole surface after all iterations, and an `int` holds the number of elements
that a process sends. -/
theorem image_heat (positive : 0 < maxMsgSize) (device : maxMsgSize < 2 ^ 32)
    (initialised : surface.Initialised edges memory)
    (run : (Fabric.coded maxMsgSize tables devices memory).Runs labels fabric)
    (executes : Executes (surface.program stencil) labels codes)
    (computing : ∀ p, (fabric.world.parties p).Computing) (ended : ∀ p, codes p = .done) :
    (∀ r c, r < surface.conf.rows + 2 → c < surface.conf.width →
      generateImage edges surface.conf (surface.solved fabric.memory)
          (r * surface.conf.width + c) =
        surface.whole stencil edges surface.conf.timesteps r c) ∧
    (surface.conf.rowsPerRank n - 2) * surface.conf.width < 2 ^ 31 := by
  constructor
  · intro r c isRow isCol
    exact generateImage_eq positive device initialised run executes computing ended isRow isCol
  · exact surface.fits_int.2.2.2

end Runs

end Surface

/-- The register of a process whose matrices of three rows and columns are at 1000 and 2000 -/
def tileMemreg : CombinedMemoryRegister (MemorySlot 2) :=
  let halo (addr : ℕ) : MemorySlot 2 := ⟨some ⟨3, 3⟩, fun _ => ⟨addr, 48, 3, 3⟩⟩
  ⟨.empty, ⟨[halo 1000, halo 2000, halo 1024, halo 2024], [], 4, 4⟩⟩

/-- One row is rounded up to two cells with their edges, one for each process. -/
def tiles : Surface fun _ : Fin 2 => tileMemreg where
  given := ⟨2, 1, 1, 1, 1⟩
  given_rows := Nat.one_pos
  given_cols := Nat.one_pos
  rbs_pos := Nat.one_pos
  cbs_pos := Nat.one_pos
  nranks_pos := Nat.two_pos
  timesteps_lt := by decide
  cells_lt := by decide
  matrix := fun which _ => cond which 2000 1000
  distinct := fun _ => Or.inl (by decide)
  upperHalo := fun which => cond which 2 0
  lowerHalo := fun which => cond which 6 4
  upperSlot := by
    intro which p
    cases which <;> exact ⟨_, rfl, fun _ => rfl⟩
  lowerSlot := by
    intro which p
    cases which <;> exact ⟨_, rfl, fun _ => rfl⟩

theorem puttable_tiles : tiles.Puttable 4 where
  upper := by
    intro which p slot found
    cases which <;> cases found <;> rfl
  lower := by
    intro which p slot found
    cases which <;> cases found <;> rfl
  few := by decide

def tileEdges : Edges where
  top _ _ := 1
  bottom _ _ := 2
  left _ _ := 3
  right _ _ := 4

def sum (up down left right : Double) : Double := fun i => up i + down i + left i + right i

/-- Two iterations add up the edges, and each process has what the other one has computed. -/
theorem bands_heat_tiles : ∃ labels fabric,
    (Fabric.coded 4 (fun _ => tileMemreg) (fun _ => .generous 2)
      (tiles.initialMemory tileEdges)).Runs labels fabric ∧
    (value 3 1000 (fun place => fabric.memory (0, place)) 1 1 = fun _ => 17) ∧
    value 3 1000 (fun place => fabric.memory (1, place)) 1 1 = fun _ => 17 := by
  rcases Surface.exists_ended (by decide) (by decide) puttable_tiles (fun _ => .generous 2)
    (tiles.initialMemory tileEdges) sum with
    ⟨labels, codes, fabric, run, executes, ended, computing⟩
  have bands := (Surface.bands_heat (by decide) (by decide) (Surface.initialised_initialMemory _)
    run executes).1
  refine ⟨labels, fabric, run, ?_, ?_⟩
  · exact (bands 0 (computing 0).1 (ended 0) 1 1 (by decide) (by decide) (by decide)).trans rfl
  · exact (bands 1 (computing 1).1 (ended 1) 1 1 (by decide) (by decide) (by decide)).trans rfl

/-- The middle of the image -/
theorem image_heat_tiles : ∃ labels fabric,
    (Fabric.coded 4 (fun _ => tileMemreg) (fun _ => .generous 2)
      (tiles.initialMemory tileEdges)).Runs labels fabric ∧
    (generateImage tileEdges tiles.conf (tiles.solved fabric.memory) 4 = fun _ => 17) ∧
    generateImage tileEdges tiles.conf (tiles.solved fabric.memory) 7 = fun _ => 17 := by
  rcases Surface.exists_ended (by decide) (by decide) puttable_tiles (fun _ => .generous 2)
    (tiles.initialMemory tileEdges) sum with
    ⟨labels, codes, fabric, run, executes, ended, computing⟩
  have image := (Surface.image_heat (by decide) (by decide)
    (Surface.initialised_initialMemory _) run executes (fun p => (computing p).1) ended).1
  refine ⟨labels, fabric, run, ?_, ?_⟩
  · exact (image 1 1 (by decide) (by decide)).trans rfl
  · exact (image 2 1 (by decide) (by decide)).trans rfl

end Jacobi

end Talpf

import Talpf.Jacobi.Halos

/-!
# The iterations

The programs mean what one process computes that has the whole surface: after each
iteration every process has its band of it, and its halos have the rows next to
the band.  On the library the processes get this without any barrier.
-/

namespace Talpf

open Relaxed IBVerbs

namespace Jacobi

variable {n : ℕ}

def value (cols matrix : ℕ) (memory : ℕ → UInt8) (r c : ℕ) : Double := fun i =>
  memory (cell cols matrix r c + i)

namespace Surface

variable {tables : Fin n → CombinedMemoryRegister (MemorySlot n)} {surface : Surface tables}
  {stencil : Double → Double → Double → Double → Double} {k : ℕ} {p : Fin n}
  {memory : ℕ → UInt8} {r c : ℕ}

variable (surface stencil) in
/-- The new value of a cell -/
def renewed (k : ℕ) (p : Fin n) (memory : ℕ → UInt8) (r c : ℕ) : Double :=
  let old := value surface.conf.width (surface.matrix k.bodd p) memory
  stencil (old (r - 1) c) (old (r + 1) c) (old r (c - 1)) (old r (c + 1))

variable (surface) in
/-- The rows of the process in the matrix that is being computed -/
def Renewed (k : ℕ) (p : Fin n) : Set ℕ :=
  {place | ∃ r ∈ span 1 surface.band, ∃ c ∈ span 1 surface.conf.cols, ∃ i < 8,
    place = cell surface.conf.width (surface.matrix (!k.bodd) p) r c + i}

variable (surface stencil) in
def news (k : ℕ) (p : Fin n) (memory : ℕ → UInt8) : List (ℕ × UInt8) :=
  (span 1 (surface.band / surface.conf.rbs)).flatMap fun R =>
    (span 1 (surface.conf.cols / surface.conf.cbs)).flatMap fun C =>
      (span ((R - 1) * surface.conf.rbs + 1) (R * surface.conf.rbs)).flatMap fun r =>
        (span ((C - 1) * surface.conf.cbs + 1) (C * surface.conf.cbs)).flatMap fun c =>
          bytes surface.conf.width (surface.matrix (!k.bodd) p) r c
            (surface.renewed stencil k p memory r c)

theorem not_renewed {place : ℕ} (inside : surface.Inside k.bodd p place) :
    place ∉ surface.Renewed k p := by
  rintro ⟨r, isRow, c, isCol, i, isByte, rfl⟩
  rw [mem_span] at isRow isCol
  have rows : surface.conf.rowsPerRank n = surface.band + 2 := rfl
  have cols : surface.conf.width = surface.conf.cols + 2 := rfl
  exact not_inside_both inside (inside_cell (by omega) (by omega) isByte)

theorem load_run (isRow : r < surface.conf.rowsPerRank n) (isCol : c < surface.conf.width)
    {other : ℕ → UInt8} (same : ∀ place ∉ surface.Renewed k p, other place = memory place)
    (next : Double → Program n) :
    (load surface.conf.width (surface.matrix k.bodd p) r c next).run other =
      (next (value surface.conf.width (surface.matrix k.bodd p) memory r c)).run other := by
  rw [load, Code.run_reads]
  congr
  funext i
  exact same _ (not_renewed (inside_cell isRow isCol i.isLt))

theorem stores_computeCell (isRow : r ∈ span 1 surface.band)
    (isCol : c ∈ span 1 surface.conf.cols) : Stores memory (surface.Renewed k p)
      (computeCell (n := n) stencil surface.conf.width (surface.matrix k.bodd p)
        (surface.matrix (!k.bodd) p) r c)
      (bytes surface.conf.width (surface.matrix (!k.bodd) p) r c
        (surface.renewed stencil k p memory r c)) where
  within := by
    intro byte member
    rcases List.mem_map.mp member with ⟨i, _, rfl⟩
    exact ⟨r, isRow, c, isCol, i, i.isLt, rfl⟩
  run := by
    intro next other same
    rw [mem_span] at isRow isCol
    have rows : surface.conf.rowsPerRank n = surface.band + 2 := rfl
    have cols : surface.conf.width = surface.conf.cols + 2 := rfl
    rw [computeCell, load_run (by omega) (by omega) same, load_run (by omega) (by omega) same,
      load_run (by omega) (by omega) same, load_run (by omega) (by omega) same, Code.run_writes]
    rfl

theorem mem_news {place : ℕ} {byte : UInt8} : (place, byte) ∈ surface.news stencil k p memory ↔
    ∃ r ∈ span 1 surface.band, ∃ c ∈ span 1 surface.conf.cols, ∃ i : Fin 8,
      place = cell surface.conf.width (surface.matrix (!k.bodd) p) r c + i ∧
      byte = surface.renewed stencil k p memory r c i := by
  have rows : ∀ {r}, _ := @exists_block _ _ surface.rbs_pos surface.rbs_dvd_band
  have cols : ∀ {c}, _ := @exists_block _ _ surface.cbs_pos surface.cols_dvd
  simp only [news, bytes, List.mem_flatMap, List.mem_map, List.mem_finRange, true_and,
    Prod.mk.injEq]
  constructor
  · rintro ⟨R, isR, C, isC, r, isRow, c, isCol, i, rfl, rfl⟩
    exact ⟨r, rows.mp ⟨R, isR, isRow⟩, c, cols.mp ⟨C, isC, isCol⟩, i, rfl, rfl⟩
  · rintro ⟨r, isRow, c, isCol, i, rfl, rfl⟩
    rcases rows.mpr isRow with ⟨R, isR, isRow⟩
    rcases cols.mpr isCol with ⟨C, isC, isCol⟩
    exact ⟨R, isR, C, isC, r, isRow, c, isCol, i, rfl, rfl⟩

/-- An iteration renews the rows of the process. -/
theorem value_news (isRow : r ∈ span 1 surface.band) (isCol : c ∈ span 1 surface.conf.cols) :
    value surface.conf.width (surface.matrix (!k.bodd) p)
      (Relaxed.store (surface.news stencil k p memory) memory) r c =
        surface.renewed stencil k p memory r c := by
  have cols : surface.conf.width = surface.conf.cols + 2 := rfl
  have last := mem_span.mp isCol
  funext i
  apply store_of_mem (mem_news.mpr ⟨r, isRow, c, isCol, i, rfl, rfl⟩)
  intro other member
  rcases mem_news.mp member with ⟨itsR, _, itsC, itsCol, itsI, same, rfl⟩
  have itsLast := mem_span.mp itsCol
  rcases cell_inj (by omega) i.isLt (by omega) itsI.isLt same with ⟨rfl, rfl, byte⟩
  rw [Fin.ext byte]

theorem store_news {place : ℕ} (other : place ∉ surface.Renewed k p) :
    Relaxed.store (surface.news stencil k p memory) memory place = memory place := by
  apply store_of_notMem
  intro byte member
  rcases mem_news.mp member with ⟨r, isRow, c, isCol, i, isPlace, _⟩
  exact other ⟨r, isRow, c, isCol, i, i.isLt, isPlace⟩

theorem stores_blocks : Stores memory (surface.Renewed k p)
    (Code.forEach (span 1 (surface.band / surface.conf.rbs)) fun R =>
      Code.forEach (span 1 (surface.conf.cols / surface.conf.cbs)) fun C =>
        computeBlock (n := n) stencil surface.conf.width ((R - 1) * surface.conf.rbs + 1)
          (R * surface.conf.rbs) ((C - 1) * surface.conf.cbs + 1) (C * surface.conf.cbs)
          (surface.matrix k.bodd p) (surface.matrix (!k.bodd) p))
    (surface.news stencil k p memory) := by
  apply stores_forEach
  intro R isR
  apply stores_forEach
  intro C isC
  apply stores_forEach
  intro r isRow
  apply stores_forEach
  intro c isCol
  exact stores_computeCell
    ((exists_block surface.rbs_pos surface.rbs_dvd_band).mp ⟨R, isR, isRow⟩)
    ((exists_block surface.cbs_pos surface.cols_dvd).mp ⟨C, isC, isCol⟩)

/-- What an iteration does: it renews the rows and sends the first and the last of them. -/
theorem run_remaining (k left : ℕ) (p : Fin n) (memory : ℕ → UInt8) :
    (surface.remaining stencil k (left + 1) p).run memory =
      ⟨Relaxed.store (surface.news stencil k p memory) memory,
        (surface.messages k p).map
          (valued (Relaxed.store (surface.news stencil k p memory) memory)),
        some (surface.remaining stencil (k + 1) left p)⟩ := by
  rw [remaining_succ, jacobiSolver, Nat.add_sub_cancel, Nat.add_sub_cancel, puts_eq]
  rw [(@stores_blocks _ _ surface stencil k p memory).run _ memory fun _ _ => rfl, Code.run_sends]
  simp only [Code.run, List.append_nil]

/-- Both matrices of every process are initialised. -/
def Initialised (surface : Surface tables) (edges : Edges) (memory : Address n → UInt8) : Prop :=
  ∀ which p r c, r < surface.conf.rowsPerRank n → c < surface.conf.width →
    value surface.conf.width (surface.matrix which p) (fun place => memory (p, place)) r c =
      initializeMatrix edges (surface.conf.rows + 2) (surface.conf.rowsPerRank n)
        surface.conf.width ((surface.conf.rowsPerRank n - 2) * p.val) r c

variable (surface stencil) in
/-- The whole surface after `k` iterations -/
def whole (edges : Edges) : ℕ → ℕ → ℕ → Double :=
  heat stencil (surface.conf.rows + 2) surface.conf.width
    (initializeMatrix edges (surface.conf.rows + 2) (surface.conf.rows + 2) surface.conf.width 0)

variable (surface) in
/-- Cells that an iteration uses: not the corners of the halos -/
def Used (r c : ℕ) : Prop :=
  r < surface.conf.rowsPerRank n ∧ c < surface.conf.width ∧
    (0 < r ∧ r < surface.band + 1 ∨ 0 < c ∧ c < surface.conf.cols + 1)

/-- The matrices of the processes are cut out of the whole surface. -/
theorem initialised_whole (edges : Edges) (used : surface.Used r c) :
    initializeMatrix edges (surface.conf.rows + 2) (surface.conf.rowsPerRank n)
        surface.conf.width ((surface.conf.rowsPerRank n - 2) * p.val) r c =
      surface.whole stencil edges 0 (p.val * surface.band + r) c := by
  have rows : surface.conf.rowsPerRank n = surface.band + 2 := rfl
  have cols : surface.conf.width = surface.conf.cols + 2 := rfl
  have positive := surface.band_pos
  have offset : (surface.conf.rowsPerRank n - 2) * p.val = p.val * surface.band :=
    Nat.mul_comm ..
  rcases used with ⟨isRow, isCol, inside⟩
  have mine := surface.band_le p
  rw [whole, heat, offset]
  simp only [initializeMatrix]
  split_ifs <;> first | rfl | omega | (congr 1; omega)

variable (surface stencil) in
/-- What the programs mean after `k` supersteps -/
def after (memory : Address n → UInt8) (k : ℕ) (p : Fin n) : Position (Fin n) ℕ UInt8 :=
  meaning (List.finRange n) (Fabric.positions (surface.program stencil) memory) k p

variable (surface stencil) in
/-- A process has its band of the whole surface, with its halos. -/
structure Holds (edges : Edges) (k : ℕ) (p : Fin n) (memory : ℕ → UInt8) : Prop where
  read : ∀ r c, surface.Used r c →
    value surface.conf.width (surface.matrix k.bodd p) memory r c =
      surface.whole stencil edges k (p.val * surface.band + r) c
  edges : ∀ r c, surface.Used r c → ¬surface.Interior (p.val * surface.band + r) c →
    value surface.conf.width (surface.matrix (!k.bodd) p) memory r c =
      surface.whole stencil edges 0 (p.val * surface.band + r) c

theorem whole_edge {edges : Edges} (edge : ¬surface.Interior r c) :
    surface.whole stencil edges k r c = surface.whole stencil edges 0 r c := by
  cases k with
  | zero => rfl
  | succ k =>
      simp only [whole, heat]
      rw [if_neg]
      · rintro ⟨first, last, left, right⟩
        exact edge ⟨first, Nat.lt_of_succ_lt_succ last, left, Nat.lt_of_succ_lt_succ right⟩

theorem whole_interior {edges : Edges} (interior : surface.Interior r c) :
    surface.whole stencil edges (k + 1) r c =
      stencil (surface.whole stencil edges k (r - 1) c) (surface.whole stencil edges k (r + 1) c)
        (surface.whole stencil edges k r (c - 1)) (surface.whole stencil edges k r (c + 1)) := by
  rcases interior with ⟨first, last, left, right⟩
  rw [whole, heat, if_pos ⟨first, Nat.succ_lt_succ last, left, Nat.succ_lt_succ right⟩]

section Supersteps

variable {memory : Address n → UInt8} {edges : Edges}

theorem follows_program (p : Fin n) :
    (surface.program stencil p).Follows surface.plan surface.pattern p 0 [] :=
  follows_remaining 0 surface.conf.timesteps p

theorem after_code (within : k ≤ surface.conf.timesteps) (p : Fin n) :
    (surface.after stencil memory k p).code =
      surface.remaining stencil k (surface.conf.timesteps - k) p := by
  induction k with
  | zero => rfl
  | succ k ih =>
      have before := ih (Nat.le_of_succ_le within)
      have one : surface.conf.timesteps - k = surface.conf.timesteps - (k + 1) + 1 := by omega
      rw [one] at before
      show ((surface.after stencil memory k p).outcome.rest).getD .done = _
      rw [Position.outcome, before, run_remaining]
      rfl

theorem outcome_after (within : k < surface.conf.timesteps) (p : Fin n) :
    meant (List.finRange n) (Fabric.positions (surface.program stencil) memory) k p =
      ⟨Relaxed.store (surface.news stencil k p (surface.after stencil memory k p).memory)
          (surface.after stencil memory k p).memory,
        (surface.messages k p).map (valued (Relaxed.store
          (surface.news stencil k p (surface.after stencil memory k p).memory)
          (surface.after stencil memory k p).memory)),
        some (surface.remaining stencil (k + 1) (surface.conf.timesteps - (k + 1)) p)⟩ := by
  have code := @after_code _ _ surface stencil k memory (Nat.le_of_lt within) p
  have one : surface.conf.timesteps - k = surface.conf.timesteps - (k + 1) + 1 := by omega
  rw [one] at code
  show (surface.after stencil memory k p).outcome = _
  rw [Position.outcome, code, run_remaining]

/-- A halo has what its neighbour has computed. -/
theorem after_planned (within : k < surface.conf.timesteps) {peer : Fin n} {place source : ℕ}
    (planned : surface.plan k p place = some (peer, source)) :
    (surface.after stencil memory (k + 1) p).memory place =
      (meant (List.finRange n) (Fabric.positions (surface.program stencil) memory) k peer).memory
        source := by
  rcases sent_of_planned planned with ⟨copies, puts, among⟩
  apply meaning_of_planned follows_program (List.mem_finRange peer) planned _ among
  rw [outcome_after within]
  exact List.mem_map.mpr ⟨_, puts, rfl⟩

theorem after_unplanned {place : ℕ} (unplanned : surface.plan k p place = none) :
    (surface.after stencil memory (k + 1) p).memory place =
      (meant (List.finRange n) (Fabric.positions (surface.program stencil) memory) k p).memory
        place :=
  meaning_of_unplanned follows_program unplanned

/-- What no iteration computes and no neighbour puts stays. -/
theorem after_kept (within : k < surface.conf.timesteps) {place : ℕ}
    (unplanned : surface.plan k p place = none) (kept : place ∉ surface.Renewed k p) :
    (surface.after stencil memory (k + 1) p).memory place =
      (surface.after stencil memory k p).memory place := by
  rw [after_unplanned unplanned, outcome_after within]
  exact store_news kept

theorem Holds.start (initialised : surface.Initialised edges memory) (p : Fin n) :
    surface.Holds stencil edges 0 p (surface.after stencil memory 0 p).memory where
  read := by
    intro r c used
    rw [← initialised_whole edges used]
    exact initialised false p r c used.1 used.2.1
  edges := by
    intro r c used _
    rw [← initialised_whole edges used]
    exact initialised true p r c used.1 used.2.1

/-- A process computes its band of the next surface. -/
theorem Holds.renewed (holds : surface.Holds stencil edges k p
      (surface.after stencil memory k p).memory) (within : k < surface.conf.timesteps)
    (isRow : r ∈ span 1 surface.band) (isCol : c ∈ span 1 surface.conf.cols) :
    value surface.conf.width (surface.matrix (!k.bodd) p)
        (meant (List.finRange n) (Fabric.positions (surface.program stencil) memory) k p).memory
        r c = surface.whole stencil edges (k + 1) (p.val * surface.band + r) c := by
  rw [outcome_after within, value_news isRow isCol, Surface.renewed]
  rw [mem_span] at isRow isCol
  have rows : surface.conf.rowsPerRank n = surface.band + 2 := rfl
  have cols : surface.conf.width = surface.conf.cols + 2 := rfl
  have mine := surface.band_le p
  rw [whole_interior ⟨by omega, by omega, by omega, by omega⟩]
  have up : p.val * surface.band + r - 1 = p.val * surface.band + (r - 1) := by omega
  rw [up, Nat.add_assoc, holds.read _ _ ⟨by omega, by omega, by omega⟩,
    holds.read _ _ ⟨by omega, by omega, by omega⟩, holds.read _ _ ⟨by omega, by omega, by omega⟩,
    holds.read _ _ ⟨by omega, by omega, by omega⟩]

theorem edge_kept (isCol : c < surface.conf.width)
    (edge : ¬surface.Interior (p.val * surface.band + r) c) (i : Fin 8) :
    cell surface.conf.width (surface.matrix (!k.bodd) p) r c + i ∉ surface.Renewed k p := by
  rintro ⟨itsR, isRow, itsC, isItsCol, itsI, isByte, same⟩
  have cols : surface.conf.width = surface.conf.cols + 2 := rfl
  have mine := surface.band_le p
  rw [mem_span] at isRow isItsCol
  rcases cell_inj isCol i.isLt (by omega) isByte same with ⟨rfl, rfl, _⟩
  exact edge ⟨by omega, by omega, by omega, by omega⟩

/-- The rows of a process next to its neighbours -/
theorem exists_neighbour (used : surface.Used r c)
    (interior : surface.Interior (p.val * surface.band + r) c) :
    r ∈ span 1 surface.band ∨
      ∃ (peer : Fin n) (itsR : ℕ), itsR ∈ span 1 surface.band ∧
        peer.val * surface.band + itsR = p.val * surface.band + r ∧
        ∀ i < 8, surface.plan k p (cell surface.conf.width (surface.matrix (!k.bodd) p) r c + i) =
          some (peer, cell surface.conf.width (surface.matrix (!k.bodd) peer) itsR c + i) := by
  have band := surface.band_pos
  rcases interior with ⟨first, last, left, right⟩
  have isRow : r < surface.band + 2 := used.1
  rcases Nat.eq_zero_or_pos r with rfl | positive
  · right
    have inner : p.val ≠ 0 := by
      intro isZero
      rw [isZero, Nat.zero_mul] at first
      exact Nat.lt_irrefl 0 first
    refine ⟨⟨p.val - 1, pred_lt p⟩, surface.band, mem_span.mpr ⟨band, Nat.le_refl _⟩, ?_, ?_⟩
    · show (p.val - 1) * surface.band + surface.band = _
      rw [← Nat.succ_mul, Nat.succ_eq_add_one, Nat.sub_add_cancel (Nat.pos_of_ne_zero inner),
        Nat.add_zero]
    · intro i isByte
      exact plan_eq_some_iff.mpr ⟨c, i, left, right, isByte,
        Or.inl ⟨Nat.sub_add_cancel (Nat.pos_of_ne_zero inner), rfl, rfl⟩⟩
  · by_cases own : r ≤ surface.band
    · exact Or.inl (mem_span.mpr ⟨positive, own⟩)
    · right
      obtain rfl : r = surface.band + 1 := by omega
      have inside : p.val + 1 < n := by
        by_contra isLast
        have all := Nat.mul_le_mul_right surface.band (Nat.not_lt.mp isLast)
        rw [surface.all_bands, Nat.succ_mul] at all
        omega
      refine ⟨⟨p.val + 1, inside⟩, 1, mem_span.mpr ⟨Nat.le_refl _, band⟩, ?_, ?_⟩
      · show (p.val + 1) * surface.band + 1 = _
        rw [Nat.succ_mul, Nat.add_assoc]
      · intro i isByte
        exact plan_eq_some_iff.mpr ⟨c, i, left, right, isByte, Or.inr ⟨rfl, rfl, rfl⟩⟩

/-- After an iteration all processes have their bands of the next surface. -/
theorem Holds.step (holds : ∀ p, surface.Holds stencil edges k p
      (surface.after stencil memory k p).memory) (within : k < surface.conf.timesteps)
    (p : Fin n) : surface.Holds stencil edges (k + 1) p
      (surface.after stencil memory (k + 1) p).memory where
  read := by
    intro r c used
    rw [Nat.bodd_succ]
    by_cases edge : surface.Interior (p.val * surface.band + r) c
    · have isCol : c ∈ span 1 surface.conf.cols :=
        mem_span.mpr ⟨edge.2.2.1, Nat.le_of_lt_succ edge.2.2.2⟩
      rcases exists_neighbour (k := k) used edge with own | ⟨peer, itsR, isRow, same, planned⟩
      · rw [← (holds p).renewed within own isCol]
        funext i
        have bounds := mem_span.mp own
        exact after_unplanned (plan_band bounds.1 (Nat.lt_succ_of_le bounds.2) used.2.1 i.isLt)
      · rw [← same, ← (holds peer).renewed within isRow isCol]
        funext i
        exact after_planned within (planned i i.isLt)
    · rw [whole_edge edge, ← (holds p).edges r c used edge]
      funext i
      exact after_kept within (plan_edge used.2.1 edge i.isLt) (edge_kept used.2.1 edge i)
  edges := by
    intro r c used edge
    rw [Nat.bodd_succ, Bool.not_not, ← whole_edge (k := k) edge, ← (holds p).read r c used]
    funext i
    have inside := @inside_cell _ _ surface p _ _ _ k.bodd used.1 used.2.1 i.isLt
    exact after_kept within (plan_read inside) (not_renewed inside)

/-- The programs mean what one process computes that has the whole surface. -/
theorem holds_after (initialised : surface.Initialised edges memory)
    (within : k ≤ surface.conf.timesteps) (p : Fin n) :
    surface.Holds stencil edges k p (surface.after stencil memory k p).memory := by
  induction k generalizing p with
  | zero => exact .start initialised p
  | succ k ih => exact .step (fun p => ih (Nat.le_of_succ_le within) p) within p

theorem after_ended (more : ℕ) :
    surface.after stencil memory (surface.conf.timesteps + more) =
      surface.after stencil memory surface.conf.timesteps := by
  apply meaning_of_ended
  intro p
  apply (after_code (Nat.le_refl _) p).trans
  rw [Nat.sub_self]
  rfl

/-- A process that goes no further has done all iterations. -/
theorem memory_of_ended (p : Fin n)
    (ended : (meant (List.finRange n) (Fabric.positions (surface.program stencil) memory) k
      p).rest = none) :
    (meant (List.finRange n) (Fabric.positions (surface.program stencil) memory) k p).memory =
      (surface.after stencil memory surface.conf.timesteps p).memory := by
  by_cases within : k < surface.conf.timesteps
  · rw [outcome_after within] at ended
    cases ended
  · rcases Nat.exists_eq_add_of_le (Nat.not_lt.mp within) with ⟨more, rfl⟩
    have code := @after_code _ _ surface stencil _ memory (Nat.le_refl _) p
    rw [Nat.sub_self] at code
    show (surface.after stencil memory (surface.conf.timesteps + more) p).outcome.memory = _
    rw [after_ended, Position.outcome, code]
    rfl

end Supersteps

/-- No message reaches a row of the process itself, in either matrix. -/
theorem plan_own (which : Bool) (first : 0 < r) (last : r < surface.band + 1)
    (isCol : c < surface.conf.width) (i : Fin 8) :
    surface.plan k p (cell surface.conf.width (surface.matrix which p) r c + i) = none := by
  by_cases isRead : which = k.bodd
  · rw [isRead]
    exact plan_read (inside_cell (Nat.lt_succ_of_lt last) isCol i.isLt)
  · rw [Bool.eq_not.mpr isRead]
    exact plan_band first last isCol i.isLt

end Surface

end Jacobi

end Talpf

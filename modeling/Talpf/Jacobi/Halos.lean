import Talpf.Jacobi
import Mathlib.Data.Nat.Bits

/-!
# The halos

An iteration puts the inner columns of the first and of the last row of its new
matrix into the halos of the neighbours.  As the next iteration computes the other
matrix, the puts are buffered, and a neighbour that is ahead reaches only halos
whose old values are not used any more.
-/

namespace Talpf

open Relaxed IBVerbs

namespace Jacobi

variable {n : ℕ}

namespace Surface

variable {tables : Fin n → CombinedMemoryRegister (MemorySlot n)} (surface : Surface tables)

/-- Neighbours put one message for each block of columns. -/
def pattern (p q : Fin n) : ℕ :=
  if p.val + 1 = q.val ∨ q.val + 1 = p.val then surface.conf.cols / surface.conf.cbs else 0

/-- Halos are filled from the last row above and the first row below. -/
def plan : Plan (Fin n) ℕ := fun k p place =>
  let address q r := cell surface.conf.width (surface.matrix (!k.bodd) q) r
  if p.val ≠ 0 ∧ address p 0 1 ≤ place ∧ place < address p 0 (surface.conf.cols + 1) then
    let peer : Fin n := ⟨p.val - 1, pred_lt p⟩
    some (peer, address peer surface.band 0 + (place - address p 0 0))
  else if below : p.val ≠ n - 1 ∧ address p (surface.band + 1) 1 ≤ place ∧
      place < address p (surface.band + 1) (surface.conf.cols + 1) then
    let peer : Fin n := ⟨p.val + 1, succ_lt below.1⟩
    some (peer, address peer 1 0 + (place - address p (surface.band + 1) 0))
  else none

variable {surface} {k : ℕ} {p peer : Fin n} {place source r c i : ℕ}

/-- Halo cells get the cells of the same column. -/
theorem plan_eq_some_iff : surface.plan k p place = some (peer, source) ↔
    ∃ c i, 0 < c ∧ c < surface.conf.cols + 1 ∧ i < 8 ∧
      ((peer.val + 1 = p.val ∧
          place = cell surface.conf.width (surface.matrix (!k.bodd) p) 0 c + i ∧
          source = cell surface.conf.width (surface.matrix (!k.bodd) peer) surface.band c + i) ∨
        (p.val + 1 = peer.val ∧
          place = cell surface.conf.width (surface.matrix (!k.bodd) p) (surface.band + 1) c + i ∧
          source = cell surface.conf.width (surface.matrix (!k.bodd) peer) 1 c + i)) := by
  simp only [plan]
  constructor
  · intro planned
    split at planned
    next above =>
      rcases exists_cell above.2.1 above.2.2 with ⟨c, i, first, last, isByte, rfl⟩
      rw [cell_shift] at planned
      cases planned
      exact ⟨c, i, first, last, isByte,
        Or.inl ⟨Nat.sub_add_cancel (Nat.pos_of_ne_zero above.1), rfl, rfl⟩⟩
    next =>
      split at planned
      next below =>
        rcases exists_cell below.2.1 below.2.2 with ⟨c, i, first, last, isByte, rfl⟩
        rw [cell_shift] at planned
        cases planned
        exact ⟨c, i, first, last, isByte, Or.inr ⟨rfl, rfl, rfl⟩⟩
      next => cases planned
  · rintro ⟨c, i, first, last, isByte, ⟨above, rfl, rfl⟩ | ⟨below, rfl, rfl⟩⟩
    · have inner : p.val ≠ 0 := by omega
      obtain rfl : peer = ⟨p.val - 1, pred_lt p⟩ := Fin.ext (Nat.eq_sub_of_add_eq above)
      rw [if_pos ⟨inner, between_cells first last isByte⟩, cell_shift]
    · have inside : p.val ≠ n - 1 := by
        have further := peer.isLt
        omega
      obtain rfl : peer = ⟨p.val + 1, succ_lt inside⟩ := Fin.ext below.symm
      rw [if_neg, dif_pos ⟨inside, between_cells first last isByte⟩, cell_shift]
      exact fun above => not_lt_cell (Nat.succ_pos _) (Nat.le_succ _) above.2.2

variable (surface) in
/-- A block of a row, byte by byte, with its places in a row of a peer -/
def copies (k : ℕ) (p peer : Fin n) (near far C : ℕ) : List (ℕ × ℕ) :=
  (List.range (surface.conf.cbs * 8)).map fun i =>
    (cell surface.conf.width (surface.matrix (!k.bodd) p) near
        ((C - 1) * surface.conf.cbs + 1) + i,
      cell surface.conf.width (surface.matrix (!k.bodd) peer) far
        ((C - 1) * surface.conf.cbs + 1) + i)

variable (surface) in
def above (k : ℕ) (p : Fin n) (C : ℕ) : Posted (Fin n) ℕ :=
  if p.val ≠ 0 then
    let peer : Fin n := ⟨p.val - 1, pred_lt p⟩
    [(peer, surface.copies k p peer 1 (surface.band + 1) C)]
  else []

variable (surface) in
def below (k : ℕ) (p : Fin n) (C : ℕ) : Posted (Fin n) ℕ :=
  if inside : p.val ≠ n - 1 then
    let peer : Fin n := ⟨p.val + 1, succ_lt inside⟩
    [(peer, surface.copies k p peer surface.band 0 C)]
  else []

variable (surface) in
def messages (k : ℕ) (p : Fin n) : Posted (Fin n) ℕ :=
  (span 1 (surface.conf.cols / surface.conf.cbs)).flatMap fun C =>
    surface.above k p C ++ surface.below k p C

theorem mem_copies {near far C : ℕ} (first : 0 < C) :
    (source, place) ∈ surface.copies k p peer near far C ↔
      ∃ c ∈ span ((C - 1) * surface.conf.cbs + 1) (C * surface.conf.cbs), ∃ i < 8,
        source = cell surface.conf.width (surface.matrix (!k.bodd) p) near c + i ∧
        place = cell surface.conf.width (surface.matrix (!k.bodd) peer) far c + i := by
  have whole : C * surface.conf.cbs = (C - 1) * surface.conf.cbs + surface.conf.cbs := by
    rw [← Nat.succ_mul, Nat.succ_eq_add_one, Nat.sub_add_cancel first]
  simp only [copies, List.mem_map, List.mem_range, Prod.mk.injEq, mem_span, cell]
  constructor
  · rintro ⟨i, within, rfl, rfl⟩
    refine ⟨(C - 1) * surface.conf.cbs + 1 + i / 8, ?_, i % 8, Nat.mod_lt _ (by decide), ?_, ?_⟩
      <;> omega
  · rintro ⟨c, inBlock, i, isByte, rfl, rfl⟩
    refine ⟨8 * (c - ((C - 1) * surface.conf.cbs + 1)) + i, ?_, ?_, ?_⟩ <;> omega

theorem addresses_put {lslot loffset dst rslot roffset nelems}
    {near far : MemorySlot n} (isNear : (tables p).lookup lslot = some near)
    (isFar : (tables p).lookup rslot = some far) (next : Program n) :
    put tables p lslot loffset dst rslot roffset nelems next =
      .send dst ((List.range (nelems * 8)).map fun i =>
        ((near.glob p).addr + loffset * 8 + i, (far.glob dst).addr + roffset * 8 + i)) next := by
  simp only [put, IBVerbs.Operation.places, IBVerbs.Operation.addresses, IBVerbs.Operation.near,
    IBVerbs.Operation.far, isNear, isFar, IBVerbs.Operation.size, IBVerbs.Operation.peer]

theorem putUpper_sends (k : ℕ) (p : Fin n) (C : ℕ) (next : Program n) :
    putUpper tables p surface.conf.width surface.conf.cbs (surface.upperHalo (!k.bodd))
      (surface.lowerHalo (!k.bodd)) C next = Code.sends (surface.above k p C) next := by
  rw [putUpper, above]
  split
  next =>
    rcases surface.upper (!k.bodd) p with ⟨near, isNear, nearAt⟩
    rcases surface.lower (!k.bodd) p with ⟨far, isFar, farAt⟩
    rw [addresses_put isNear isFar, nearAt, farAt]
    simp only [Code.sends, List.foldr_cons, List.foldr_nil]
    congr
    funext i
    have rows : surface.conf.rowsPerRank n - 2 = surface.band := rfl
    have further : (surface.band + 1) * surface.conf.width =
        surface.band * surface.conf.width + surface.conf.width := Nat.succ_mul ..
    simp only [cell, Prod.mk.injEq, rows]
    omega
  next => rfl

theorem putLower_sends (k : ℕ) (p : Fin n) (C : ℕ) (next : Program n) :
    putLower tables p surface.conf.cbs (surface.upperHalo (!k.bodd))
      (surface.lowerHalo (!k.bodd)) C next = Code.sends (surface.below k p C) next := by
  rw [putLower, below]
  split
  next inside =>
    rcases surface.upper (!k.bodd) p with ⟨far, isFar, farAt⟩
    rcases surface.lower (!k.bodd) p with ⟨near, isNear, nearAt⟩
    rw [addresses_put isNear isFar, nearAt, farAt]
    simp only [Code.sends, List.foldr_cons, List.foldr_nil]
    congr
    funext i
    have rows : surface.conf.rowsPerRank n - 2 = surface.band := rfl
    simp only [cell, Prod.mk.injEq, rows]
    omega
  next => rfl

theorem puts_eq (k : ℕ) (p : Fin n) (next : Program n) :
    Code.forEach (span 1 (surface.conf.cols / surface.conf.cbs)) (fun C next =>
      putUpper tables p surface.conf.width surface.conf.cbs (surface.upperHalo (!k.bodd))
        (surface.lowerHalo (!k.bodd)) C
        (putLower tables p surface.conf.cbs (surface.upperHalo (!k.bodd))
          (surface.lowerHalo (!k.bodd)) C next)) next =
      Code.sends (surface.messages k p) next := by
  apply Code.forEach_sends
  intro C next
  rw [putUpper_sends, putLower_sends, Code.sends_append]

theorem count_above (k : ℕ) (p peer : Fin n) (C : ℕ) :
    (surface.above k p C).count peer = if peer.val + 1 = p.val then 1 else 0 := by
  rw [above]
  split
  next inner =>
    simp only [Posted.count, List.countP_singleton, decide_eq_true_eq, Fin.ext_iff]
    congr 1
    apply propext
    omega
  next first =>
    rw [if_neg (by omega)]
    rfl

theorem count_below (k : ℕ) (p peer : Fin n) (C : ℕ) :
    (surface.below k p C).count peer = if p.val + 1 = peer.val then 1 else 0 := by
  rw [below]
  split
  next inner => simp only [Posted.count, List.countP_singleton, decide_eq_true_eq, Fin.ext_iff]
  next last =>
    have within := peer.isLt
    rw [if_neg (by omega)]
    rfl

/-- The puts of an iteration are those of the pattern. -/
theorem count_messages (k : ℕ) (p peer : Fin n) :
    (surface.messages k p).count peer = surface.pattern p peer := by
  have each : ∀ C, List.countP (fun message : Fin n × List (ℕ × ℕ) => message.1 = peer)
      (surface.above k p C ++ surface.below k p C) =
        if p.val + 1 = peer.val ∨ peer.val + 1 = p.val then 1 else 0 := by
    intro C
    have up := @count_above _ _ surface k p peer C
    have down := @count_below _ _ surface k p peer C
    rw [Posted.count] at up down
    rw [List.countP_append, up, down]
    split_ifs <;> omega
  rw [Posted.count, messages, List.countP_flatMap]
  simp only [Function.comp_def, each, List.map_const', List.sum_replicate, pattern, span,
    List.length_range']
  split_ifs <;> simp

/-- The puts of an iteration are those of the plan. -/
theorem planned_messages {message : Fin n × List (ℕ × ℕ)}
    (member : message ∈ surface.messages k p) {copy : ℕ × ℕ} (among : copy ∈ message.2) :
    surface.plan k message.1 copy.2 = some (p, copy.1) := by
  rcases List.mem_flatMap.mp member with ⟨C, isBlock, either⟩
  have isFirst := (mem_span.mp isBlock).1
  have column : ∀ c ∈ span ((C - 1) * surface.conf.cbs + 1) (C * surface.conf.cbs),
      0 < c ∧ c < surface.conf.cols + 1 := by
    intro c inBlock
    have inside := mem_span.mp ((exists_block surface.cbs_pos surface.cols_dvd).mp
      ⟨C, isBlock, inBlock⟩)
    exact ⟨inside.1, Nat.lt_succ_of_le inside.2⟩
  apply plan_eq_some_iff.mpr
  rcases List.mem_append.mp either with up | down
  · rw [above] at up
    split at up
    next inner =>
      cases List.mem_singleton.mp up
      rcases (mem_copies isFirst).mp among with ⟨c, inBlock, i, isByte, isSource, isPlace⟩
      exact ⟨c, i, (column c inBlock).1, (column c inBlock).2, isByte,
        Or.inr ⟨Nat.sub_add_cancel (Nat.pos_of_ne_zero inner), isPlace, isSource⟩⟩
    next => exact absurd up List.not_mem_nil
  · rw [below] at down
    split at down
    next =>
      cases List.mem_singleton.mp down
      rcases (mem_copies isFirst).mp among with ⟨c, inBlock, i, isByte, isSource, isPlace⟩
      exact ⟨c, i, (column c inBlock).1, (column c inBlock).2, isByte,
        Or.inl ⟨rfl, isPlace, isSource⟩⟩
    next => exact absurd down List.not_mem_nil

/-- Whatever is planned is put. -/
theorem sent_of_planned (planned : surface.plan k p place = some (peer, source)) :
    ∃ copies, (p, copies) ∈ surface.messages k peer ∧ (source, place) ∈ copies := by
  rcases plan_eq_some_iff.mp planned with ⟨c, i, first, last, isByte, either⟩
  rcases (exists_block surface.cbs_pos surface.cols_dvd).mpr
    (mem_span.mpr ⟨first, Nat.le_of_lt_succ last⟩) with ⟨C, isBlock, inBlock⟩
  have isFirst := (mem_span.mp isBlock).1
  rcases either with ⟨isAbove, rfl, rfl⟩ | ⟨isBelow, rfl, rfl⟩
  · have inside : peer.val ≠ n - 1 := by
      have further := p.isLt
      omega
    have isPeer : (⟨peer.val + 1, succ_lt inside⟩ : Fin n) = p := Fin.ext isAbove
    refine ⟨surface.copies k peer p surface.band 0 C,
      List.mem_flatMap.mpr ⟨C, isBlock, List.mem_append_right _ ?_⟩,
      (mem_copies isFirst).mpr ⟨c, inBlock, i, isByte, rfl, rfl⟩⟩
    rw [below, dif_pos inside, isPeer]
    exact List.mem_singleton_self _
  · have inner : peer.val ≠ 0 := by
      omega
    have isPeer : (⟨peer.val - 1, pred_lt peer⟩ : Fin n) = p := by
      apply Fin.ext
      show peer.val - 1 = p.val
      omega
    refine ⟨surface.copies k peer p 1 (surface.band + 1) C,
      List.mem_flatMap.mpr ⟨C, isBlock, List.mem_append_left _ ?_⟩,
      (mem_copies isFirst).mpr ⟨c, inBlock, i, isByte, rfl, rfl⟩⟩
    rw [above, if_pos inner, isPeer]
    exact List.mem_singleton_self _

variable (surface) in
def Inside (which : Bool) (p : Fin n) (place : ℕ) : Prop :=
  surface.matrix which p ≤ place ∧ place <
    surface.matrix which p + 8 * (surface.conf.rowsPerRank n * surface.conf.width)

theorem inside_cell {which : Bool} (isRow : r < surface.conf.rowsPerRank n)
    (isCol : c < surface.conf.width) (isByte : i < 8) :
    surface.Inside which p (cell surface.conf.width (surface.matrix which p) r c + i) :=
  ⟨le_cell, cell_lt isRow isCol isByte⟩

/-- The two matrices of a process share nothing. -/
theorem not_inside_both {which : Bool} (one : surface.Inside which p place)
    (other : surface.Inside (!which) p place) : False := by
  have apart := surface.apart p
  rcases one with ⟨oneFrom, oneTo⟩
  rcases other with ⟨otherFrom, otherTo⟩
  cases which
  · simp only [Bool.not_false] at otherFrom otherTo
    omega
  · simp only [Bool.not_true] at otherFrom otherTo
    omega

/-- Messages reach and leave the matrix that is being computed. -/
theorem inside_of_planned (planned : surface.plan k p place = some (peer, source)) :
    surface.Inside (!k.bodd) p place ∧ surface.Inside (!k.bodd) peer source := by
  have band := surface.band_pos
  have rows : surface.conf.rowsPerRank n = surface.band + 2 := rfl
  have cols : surface.conf.width = surface.conf.cols + 2 := rfl
  rcases plan_eq_some_iff.mp planned with
    ⟨c, i, _, last, isByte, ⟨_, rfl, rfl⟩ | ⟨_, rfl, rfl⟩⟩
  · exact ⟨inside_cell (by omega) (by omega) isByte, inside_cell (by omega) (by omega) isByte⟩
  · exact ⟨inside_cell (by omega) (by omega) isByte, inside_cell (by omega) (by omega) isByte⟩

/-- No message reaches the matrix that is being read. -/
theorem plan_read (inside : surface.Inside k.bodd p place) : surface.plan k p place = none := by
  apply Option.eq_none_iff_forall_ne_some.mpr
  rintro ⟨peer, source⟩ planned
  exact not_inside_both inside (inside_of_planned planned).1

theorem plan_band (first : 0 < r) (last : r < surface.band + 1) (isCol : c < surface.conf.width)
    (isByte : i < 8) : surface.plan k p
      (cell surface.conf.width (surface.matrix (!k.bodd) p) r c + i) = none := by
  have cols : surface.conf.width = surface.conf.cols + 2 := rfl
  apply Option.eq_none_iff_forall_ne_some.mpr
  rintro ⟨peer, source⟩ planned
  rcases plan_eq_some_iff.mp planned with
    ⟨itsC, itsI, _, itsLast, itsByte, ⟨_, same, _⟩ | ⟨_, same, _⟩⟩
  · have rows := (cell_inj isCol isByte (by omega) itsByte same).1
    omega
  · have rows := (cell_inj isCol isByte (by omega) itsByte same).1
    omega

variable (surface) in
/-- Cells of the whole surface that an iteration computes -/
def Interior (r c : ℕ) : Prop :=
  0 < r ∧ r < surface.conf.rows + 1 ∧ 0 < c ∧ c < surface.conf.cols + 1

/-- No message reaches the edges of the whole surface. -/
theorem plan_edge (isCol : c < surface.conf.width)
    (edge : ¬surface.Interior (p.val * surface.band + r) c) (isByte : i < 8) :
    surface.plan k p (cell surface.conf.width (surface.matrix (!k.bodd) p) r c + i) = none := by
  have cols : surface.conf.width = surface.conf.cols + 2 := rfl
  have band := surface.band_pos
  apply Option.eq_none_iff_forall_ne_some.mpr
  rintro ⟨peer, source⟩ planned
  apply edge
  rcases plan_eq_some_iff.mp planned with
    ⟨itsC, itsI, itsFirst, itsLast, itsByte, ⟨above, same, _⟩ | ⟨below, same, _⟩⟩
  · rcases cell_inj isCol isByte (by omega) itsByte same with ⟨rfl, rfl, _⟩
    have further := Nat.mul_le_mul_right surface.band (Nat.le_of_eq above)
    have mine := surface.band_le p
    rw [Nat.succ_mul] at further
    exact ⟨by omega, by omega, itsFirst, itsLast⟩
  · rcases cell_inj isCol isByte (by omega) itsByte same with ⟨rfl, rfl, _⟩
    have further := surface.band_le peer
    rw [← below, Nat.succ_mul] at further
    exact ⟨by omega, by omega, itsFirst, itsLast⟩

theorem buffered_plan : (surface.plan).Buffered := by
  have next : ∀ k : ℕ, (!k.bodd) = (k + 1).bodd := fun k => (Nat.bodd_succ k).symm
  constructor
  · intro k p place peer source planned
    have cols : surface.conf.width = surface.conf.cols + 2 := rfl
    have band := surface.band_pos
    rcases plan_eq_some_iff.mp planned with
      ⟨c, i, _, last, isByte, ⟨_, _, rfl⟩ | ⟨_, _, rfl⟩⟩
    · exact plan_band band (by omega) (by omega) isByte
    · exact plan_band (by omega) (by omega) (by omega) isByte
  · intro k p place peer source planned
    exact plan_read (next k ▸ (inside_of_planned planned).2)
  · intro k p place peer source planned
    exact plan_read (next k ▸ (inside_of_planned planned).1)

theorem blocks_pos : 0 < surface.conf.cols / surface.conf.cbs :=
  Nat.div_pos (Nat.le_of_dvd surface.cols_pos surface.cols_dvd) surface.cbs_pos

theorem pattern_comm (p q : Fin n) : surface.pattern p q = surface.pattern q p := by
  simp only [pattern, or_comm]

theorem pattern_symmetric (p q : Fin n) : 0 < surface.pattern p q ↔ 0 < surface.pattern q p := by
  rw [pattern_comm]

theorem sum_one_le {count : ℕ} {chosen : Fin n → Prop} [DecidablePred chosen]
    (one : ∀ q, chosen q → ∀ r, chosen r → q = r) :
    ∑ q, (if chosen q then count else 0) ≤ count := by
  have few : (Finset.univ.filter chosen).card ≤ 1 := by
    apply Finset.card_le_one.mpr
    intro q isChosen r alsoChosen
    exact one q (Finset.mem_filter.mp isChosen).2 r (Finset.mem_filter.mp alsoChosen).2
  rw [← Finset.sum_filter, Finset.sum_const, smul_eq_mul]
  exact (Nat.mul_le_mul_right count few).trans_eq (Nat.one_mul count)

/-- Processes have two neighbours. -/
theorem sum_pattern_le (p : Fin n) :
    ∑ q, surface.pattern p q ≤ 2 * (surface.conf.cols / surface.conf.cbs) := by
  have both : ∀ q, surface.pattern p q ≤
      (if p.val + 1 = q.val then surface.conf.cols / surface.conf.cbs else 0) +
        if q.val + 1 = p.val then surface.conf.cols / surface.conf.cbs else 0 := by
    intro q
    rw [pattern]
    split_ifs <;> omega
  apply (Finset.sum_le_sum fun q _ => both q).trans
  rw [Finset.sum_add_distrib, Nat.two_mul]
  apply Nat.add_le_add
  · exact sum_one_le fun q isNext r alsoNext => Fin.ext (isNext.symm.trans alsoNext)
  · exact sum_one_le fun q isLast r alsoLast =>
      Fin.ext (Nat.succ.inj (isLast.trans alsoLast.symm))

/-- The messages of an iteration can be counted. -/
theorem fits_pattern : World.Fits surface.pattern := by
  have few : ∀ p : Fin n, ∑ q, surface.pattern p q < 2 ^ 31 := by
    intro p
    have neighbours := @sum_pattern_le _ _ surface p
    have blocks := Nat.div_le_self surface.conf.cols surface.conf.cbs
    have cells : (surface.conf.rows + 2) * (surface.conf.cols + 2) < 2 ^ 31 := surface.cells_lt
    have rows : 2 * (surface.conf.cols + 2) ≤ (surface.conf.rows + 2) * (surface.conf.cols + 2) :=
      Nat.mul_le_mul_right _ (Nat.le_add_left ..)
    omega
  intro p
  refine ⟨few p, ?_⟩
  simp only [pattern_comm _ p]
  exact few p

/-- Old values are used before a neighbour can have all messages that it waits for. -/
theorem clear_read (inside : surface.Inside k.bodd p place) :
    Clear surface.plan surface.pattern p k [] place := by
  refine ⟨plan_read inside, fun peer source planned => ?_⟩
  rcases plan_eq_some_iff.mp planned with ⟨_, _, _, _, _, ⟨near, _⟩ | ⟨near, _⟩⟩
  · show 0 < surface.pattern p peer
    rw [pattern, if_pos (Or.inr near)]
    exact blocks_pos
  · show 0 < surface.pattern p peer
    rw [pattern, if_pos (Or.inl near)]
    exact blocks_pos

/-- Nobody puts into the rows of a process. -/
theorem clear_band (first : 0 < r) (last : r < surface.band + 1) (isCol : c < surface.conf.width)
    (isByte : i < 8) : Clear surface.plan surface.pattern p k []
      (cell surface.conf.width (surface.matrix (!k.bodd) p) r c + i) := by
  refine ⟨plan_band first last isCol isByte, fun peer source planned => ?_⟩
  have isRow : r < surface.conf.rowsPerRank n := Nat.lt_succ_of_lt last
  rw [← Nat.bodd_succ, plan_read (inside_cell isRow isCol isByte)] at planned
  cases planned

variable {stencil : Double → Double → Double → Double → Double} {next : Program n}

theorem follows_load (isRow : r < surface.conf.rowsPerRank n) (isCol : c < surface.conf.width)
    {next : Double → Program n}
    (follows : ∀ value, (next value).Follows surface.plan surface.pattern p k []) :
    (load surface.conf.width (surface.matrix k.bodd p) r c next).Follows surface.plan
      surface.pattern p k [] := by
  apply Code.follows_reads _ follows
  intro i
  exact clear_read (inside_cell isRow isCol i.isLt)

theorem follows_computeCell (isRow : r ∈ span 1 surface.band) (isCol : c ∈ span 1 surface.conf.cols)
    (follows : next.Follows surface.plan surface.pattern p k []) :
    (computeCell stencil surface.conf.width (surface.matrix k.bodd p) (surface.matrix (!k.bodd) p)
      r c next).Follows surface.plan surface.pattern p k [] := by
  rw [mem_span] at isRow isCol
  have rows : surface.conf.rowsPerRank n = surface.band + 2 := rfl
  have cols : surface.conf.width = surface.conf.cols + 2 := rfl
  apply follows_load (by omega) (by omega)
  intro up
  apply follows_load (by omega) (by omega)
  intro down
  apply follows_load (by omega) (by omega)
  intro left
  apply follows_load (by omega) (by omega)
  intro right
  apply Code.follows_writes _ _ follows
  · intro value member
    rcases List.mem_map.mp member with ⟨i, _, rfl⟩
    exact clear_band (by omega) (by omega) (by omega) i.isLt
  · rintro value member ⟨message, none, _⟩
    exact List.not_mem_nil none

theorem follows_jacobiSolver
    (follows : next.Follows surface.plan surface.pattern p (k + 1) []) :
    (jacobiSolver stencil tables p surface.conf.width surface.conf.rbs surface.conf.cbs
      (surface.band / surface.conf.rbs + 2) (surface.conf.cols / surface.conf.cbs + 2)
      (surface.matrix k.bodd p) (surface.matrix (!k.bodd) p) (surface.upperHalo (!k.bodd))
      (surface.lowerHalo (!k.bodd)) next).Follows surface.plan surface.pattern p k [] := by
  rw [jacobiSolver, Nat.add_sub_cancel, Nat.add_sub_cancel, puts_eq]
  apply Code.follows_forEach
  · intro R isR next follows
    apply Code.follows_forEach _ follows
    intro C isC next follows
    apply Code.follows_forEach _ follows
    intro r isRow next follows
    apply Code.follows_forEach _ follows
    intro c isCol next follows
    exact follows_computeCell
      ((exists_block surface.rbs_pos surface.rbs_dvd_band).mp ⟨R, isR, isRow⟩)
      ((exists_block surface.cbs_pos surface.cols_dvd).mp ⟨C, isC, isCol⟩) follows
  · apply Code.follows_sends
    · intro message member copy among
      exact planned_messages member among
    · intro peer
      rw [List.nil_append]
      exact count_messages k p peer
    · exact follows

variable (surface) in
/-- What is left to solve before an iteration -/
def remaining (stencil : Double → Double → Double → Double → Double) (k left : ℕ) (p : Fin n) :
    Program n :=
  solve stencil tables p (surface.conf.rowsPerRank n) surface.conf.width surface.conf.rbs
    surface.conf.cbs left (surface.matrix k.bodd p) (surface.matrix (!k.bodd) p)
    (surface.upperHalo k.bodd) (surface.upperHalo (!k.bodd))
    (surface.lowerHalo k.bodd) (surface.lowerHalo (!k.bodd))

theorem remaining_succ (k left : ℕ) (p : Fin n) : surface.remaining stencil k (left + 1) p =
    jacobiSolver stencil tables p surface.conf.width surface.conf.rbs surface.conf.cbs
      (surface.band / surface.conf.rbs + 2) (surface.conf.cols / surface.conf.cbs + 2)
      (surface.matrix k.bodd p) (surface.matrix (!k.bodd) p) (surface.upperHalo (!k.bodd))
      (surface.lowerHalo (!k.bodd)) (surface.remaining stencil (k + 1) left p) := by
  simp only [remaining, solve, Nat.bodd_succ, Bool.not_not]
  rfl

theorem follows_remaining (k left : ℕ) (p : Fin n) :
    (surface.remaining stencil k left p).Follows surface.plan surface.pattern p k [] := by
  induction left generalizing k with
  | zero => exact trivial
  | succ left ih =>
      rw [remaining_succ]
      exact follows_jacobiSolver (ih (k + 1))

section Ends

variable {maxMsgSize : ℕ} {syncs : ℕ}

theorem ends_put {lslot loffset rslot roffset nelems : ℕ} {peer : Fin n} {near far : MemorySlot n}
    (isNear : (tables p).lookup lslot = some near) (registered : near.mr.isSome)
    (isFar : (tables p).lookup rslot = some far)
    (few : segmentCount maxMsgSize (nelems * 8) ≤ intMax)
    (ends : next.Ends (Fabric.Sendable maxMsgSize tables p) syncs) :
    (put tables p lslot loffset peer rslot roffset nelems next).Ends
      (Fabric.Sendable maxMsgSize tables p) syncs := by
  rw [put, Code.Ends]
  refine ⟨⟨_, rfl, rfl, rfl, fun verbs task => ?_⟩, ends⟩
  rcases Option.isSome_iff_exists.mp registered with ⟨mr, isMr⟩
  have fits : (if nelems * 8 = 0 then 1 else segmentCount maxMsgSize (nelems * 8)) ≤ intMax := by
    split
    next => decide
    next => exact few
  simp only [IBVerbs.Operation.requests, putRequests, isNear, isFar, isMr, Option.bind_some,
    if_pos fits]
  exact ⟨_, rfl⟩

theorem ends_computeCell {cols srcM dstM : ℕ}
    (ends : next.Ends (Fabric.Sendable maxMsgSize tables p) syncs) :
    (computeCell stencil cols srcM dstM r c next).Ends (Fabric.Sendable maxMsgSize tables p)
      syncs := by
  apply Code.ends_reads
  intro up
  apply Code.ends_reads
  intro down
  apply Code.ends_reads
  intro left
  apply Code.ends_reads
  intro right
  exact Code.ends_writes _ ends

variable (surface) in
/-- The halos are registered, and a block of a row needs no more requests than an `int` holds. -/
structure Puttable (maxMsgSize : ℕ) : Prop where
  upper : ∀ i p slot, (tables p).lookup (surface.upperHalo i) = some slot → slot.mr.isSome
  lower : ∀ i p slot, (tables p).lookup (surface.lowerHalo i) = some slot → slot.mr.isSome
  few : segmentCount maxMsgSize (surface.conf.cbs * 8) ≤ intMax

theorem ends_puts (puttable : surface.Puttable maxMsgSize) (i : Bool) (C : ℕ)
    (ends : next.Ends (Fabric.Sendable maxMsgSize tables p) syncs) :
    (putUpper tables p surface.conf.width surface.conf.cbs (surface.upperHalo i)
      (surface.lowerHalo i) C (putLower tables p surface.conf.cbs (surface.upperHalo i)
        (surface.lowerHalo i) C next)).Ends (Fabric.Sendable maxMsgSize tables p) syncs := by
  rcases surface.upper i p with ⟨upper, isUpper, _⟩
  rcases surface.lower i p with ⟨lower, isLower, _⟩
  have lowerEnds : (putLower tables p surface.conf.cbs (surface.upperHalo i) (surface.lowerHalo i) C
      next).Ends (Fabric.Sendable maxMsgSize tables p) syncs := by
    rw [putLower]
    split
    next => exact ends_put isLower (puttable.lower i p _ isLower) isUpper puttable.few ends
    next => exact ends
  rw [putUpper]
  split
  next => exact ends_put isUpper (puttable.upper i p _ isUpper) isLower puttable.few lowerEnds
  next => exact lowerEnds

/-- Every iteration ends with a sync. -/
theorem ends_remaining (puttable : surface.Puttable maxMsgSize) (k left : ℕ) (p : Fin n) :
    (surface.remaining stencil k left p).Ends (Fabric.Sendable maxMsgSize tables p) left := by
  induction left generalizing k with
  | zero => exact rfl
  | succ left ih =>
      rw [remaining_succ, jacobiSolver]
      apply Code.ends_forEach
      · intro R _ next ends
        apply Code.ends_forEach _ ends
        intro C _ next ends
        apply Code.ends_forEach _ ends
        intro r _ next ends
        apply Code.ends_forEach _ ends
        intro c _ next ends
        exact ends_computeCell ends
      · apply Code.ends_forEach
        · intro C _ next ends
          exact ends_puts puttable _ C ends
        · exact ih (k + 1)

end Ends

end Surface

end Jacobi

end Talpf

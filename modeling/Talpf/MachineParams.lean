import Talpf.Library.Interpolation
import Mathlib.Data.Fin.VecNotation
import Mathlib.Data.Rat.Cast.Order

/-!
# The measured parameters of the machine

The probe measures the latency and the message gap for seven block sizes, and
`getLatency` and `getMessageGap` interpolate between them.  Both read the block
sizes on both sides of the place that they have found, also when there is none.
Measurements are rational numbers.
-/

namespace Talpf

open Interpolation

/-- `MachineParams::DATAPOINTS` -/
abbrev datapoints : ℕ := 7

structure MachineParams where
  /-- `m_blockSize`, which is always a copy of `BLOCK_SIZES` -/
  blockSize : Fin datapoints → ℕ
  messageGap : Fin datapoints → ℚ
  latency : Fin datapoints → ℚ
  increasing : StrictMono blockSize

namespace MachineParams

/-- `MachineParams::BLOCK_SIZES` -/
def blockSizes : Fin datapoints → ℕ := ![1, 8, 128, 1024, 8192, 131072, 1048576]

theorem blockSizes_increasing : StrictMono blockSizes := by decide

/-- Measurements at the block sizes of the probe. -/
def measured (messageGap latency : Fin datapoints → ℚ) : MachineParams :=
  ⟨blockSizes, messageGap, latency, blockSizes_increasing⟩

/-- Read an array.  `none` is an access out of bounds. -/
def read {α : Type} (table : Fin datapoints → α) (i : ℕ) : Option α :=
  if inside : i < datapoints then some (table ⟨i, inside⟩) else none

/-- `i - 1` as an unsigned number of 64 bits -/
def pred (i : ℕ) : ℕ := (i + (2 ^ 64 - 1)) % 2 ^ 64

/-- The body that `getLatency` and `getMessageGap` share.  `none` is an access out of bounds or a
division by zero. -/
def interpolate (params : MachineParams) (table : Fin datapoints → ℚ) (blockSize : ℕ) :
    Option ℚ :=
  let i := upperBound params.blockSize blockSize
  (if i > 0 then read table (pred i) else read table i).bind fun l1 =>
  (if i < datapoints then read table i else read table (pred i)).bind fun l2 =>
  (read params.blockSize (pred i)).bind fun b1 =>
  (read params.blockSize i).bind fun b2 =>
    if (b2 : ℚ) - b1 = 0 then none else some (line l1 l2 b1 b2 blockSize)

def getLatency (params : MachineParams) (blockSize : ℕ) : Option ℚ :=
  params.interpolate params.latency blockSize

def getMessageGap (params : MachineParams) (blockSize : ℕ) : Option ℚ :=
  params.interpolate params.messageGap blockSize

/-- A value for a block size that fits the measurements. -/
structure Fits (params : MachineParams) (table : Fin datapoints → ℚ) (blockSize : ℕ) (value : ℚ) :
    Prop where
  at_sample : ∀ i, params.blockSize i = blockSize → value = table i
  between : ∀ i j, j.val = i.val + 1 → params.blockSize i < blockSize →
    blockSize < params.blockSize j → value ∈ Set.uIcc (table i) (table j)
  below : blockSize < params.blockSize 0 → value = table 0
  above : params.blockSize 6 < blockSize → value = table 6

/-- Both functions are safe for a block size and return values that fit. -/
def Interpolates (params : MachineParams) (blockSize : ℕ) : Prop :=
  (∃ value, params.getLatency blockSize = some value ∧
    params.Fits params.latency blockSize value) ∧
  ∃ value, params.getMessageGap blockSize = some value ∧
    params.Fits params.messageGap blockSize value

variable {params : MachineParams} {table : Fin datapoints → ℚ} {blockSize : ℕ}

theorem read_of_lt {α : Type} {table : Fin datapoints → α} {i : ℕ} (inside : i < datapoints) :
    read table i = some (table ⟨i, inside⟩) := dif_pos inside

/-- What is read at a place between two samples. -/
theorem interpolate_between {before after : Fin datapoints} (next : after.val = before.val + 1)
    (place : upperBound params.blockSize blockSize = after.val) :
    params.interpolate table blockSize = some (line (table before) (table after)
      (params.blockSize before) (params.blockSize after) blockSize) := by
  have previous : pred after.val = before.val := by
    have small : before.val < 7 := before.isLt
    rw [pred]
    omega
  have positive : after.val > 0 := by omega
  have apart : params.blockSize before < params.blockSize after := by
    apply params.increasing
    rw [Fin.lt_def]
    omega
  have width : (params.blockSize after : ℚ) - params.blockSize before ≠ 0 := by
    rw [sub_ne_zero]
    exact Nat.cast_injective.ne apart.ne'
  simp only [interpolate, place, previous, if_pos positive, if_pos after.isLt,
    read_of_lt before.isLt, read_of_lt after.isLt, Option.bind_some, Fin.eta, if_neg width]

/-- Within the sampled range, the value fits the measurements. -/
theorem interpolate_inside (above : params.blockSize 0 ≤ blockSize)
    (below : blockSize < params.blockSize 6) :
    ∃ value, params.interpolate table blockSize = some value ∧
      params.Fits table blockSize value := by
  have positive : 0 < upperBound params.blockSize blockSize :=
    (upperBound_pos_iff (Nat.zero_lt_succ 6)).mpr above
  have inside : upperBound params.blockSize blockSize < datapoints :=
    (upperBound_lt_iff 6 rfl params.increasing).mpr below
  obtain ⟨after, place⟩ : ∃ after : Fin datapoints,
      upperBound params.blockSize blockSize = after.val := ⟨⟨_, inside⟩, rfl⟩
  obtain ⟨before, next⟩ : ∃ before : Fin datapoints, after.val = before.val + 1 :=
    ⟨⟨after.val - 1, by omega⟩, by simp only; omega⟩
  have low : params.blockSize before ≤ blockSize := le_of_lt_upperBound (by omega)
  have high : blockSize < params.blockSize after := lt_of_upperBound_eq place
  refine ⟨_, interpolate_between next place, ?_, ?_, ?_, ?_⟩
  · intro i sample
    have same : i = before := by
      have notAfter := params.increasing.lt_iff_lt.mp (sample.trans_lt high)
      have notBefore := params.increasing.le_iff_le.mp (low.trans_eq sample.symm)
      rw [Fin.lt_def] at notAfter
      rw [Fin.le_def] at notBefore
      exact Fin.ext (by omega)
    subst same
    rw [← sample]
    exact line_left _ _ _ _
  · intro i j neighbours left right
    have itsPlace := upperBound_eq params.increasing neighbours left.le right
    have sameAfter : j = after := Fin.ext (itsPlace.symm.trans place)
    have sameBefore : i = before := Fin.ext (by omega)
    rw [sameAfter, sameBefore]
    exact line_mem_uIcc (Nat.cast_le.mpr low) (Nat.cast_le.mpr high.le)
      (Nat.cast_lt.mpr (low.trans_lt high))
  · intro small
    exact absurd above (not_le.mpr small)
  · intro large
    exact absurd below (not_lt.mpr large.le)

/-- Below the first sample the block size before the first is read. -/
theorem interpolate_below (small : blockSize < params.blockSize 0) :
    params.interpolate table blockSize = none := by
  have place : upperBound params.blockSize blockSize = 0 := by
    by_contra later
    have above := (upperBound_pos_iff (Nat.zero_lt_succ 6)).mp (Nat.pos_of_ne_zero later)
    exact absurd above (not_le.mpr small)
  simp only [interpolate, place]
  rfl

/-- From the last sample on, the block size after the last is read. -/
theorem interpolate_above (large : params.blockSize 6 ≤ blockSize) :
    params.interpolate table blockSize = none := by
  have place : upperBound params.blockSize blockSize = datapoints := by
    apply Nat.le_antisymm (upperBound_le _ _)
    by_contra inside
    have below := (upperBound_lt_iff 6 rfl params.increasing).mp (not_le.mp inside)
    exact absurd below (not_lt.mpr large)
  simp only [interpolate, place]
  rfl

/--
The interpolation is safe and fits the measurements if and only if the block
size lies between the first and the last sample, of which it may be the first.
-/
theorem interpolates_iff (params : MachineParams) (blockSize : ℕ) :
    params.Interpolates blockSize ↔
      params.blockSize 0 ≤ blockSize ∧ blockSize < params.blockSize 6 := by
  constructor
  · rintro ⟨⟨value, latency, _⟩, _⟩
    rw [getLatency] at latency
    constructor
    · by_contra small
      rw [interpolate_below (not_le.mp small)] at latency
      cases latency
    · by_contra large
      rw [interpolate_above (not_lt.mp large)] at latency
      cases latency
  · rintro ⟨above, below⟩
    exact ⟨interpolate_inside above below, interpolate_inside above below⟩

/-- The block size that the tests of the library ask for. -/
theorem not_interpolates_zero : ¬∀ (messageGap latency : Fin datapoints → ℚ) (blockSize : ℕ),
    blockSize < 2 ^ 64 → (measured messageGap latency).Interpolates blockSize := by
  intro safe
  rcases safe (fun _ => 1) (fun _ => 1) 0 (by decide) with ⟨⟨value, latency, _⟩, _⟩
  rw [getLatency, interpolate_below (by decide)] at latency
  cases latency

end MachineParams

end Talpf

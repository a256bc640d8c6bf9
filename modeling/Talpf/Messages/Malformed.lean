import Talpf.Messages
import Mathlib.Data.Nat.Find

/-!
# Malformed messages

The loop that looks for the last byte of an integer is only bounded by the
content of the message.  Here the bytes behind the message are a part of the
memory and all accesses are recorded.  The debug build asserts after an access
that it was inside of the message; it has read the names before the integer.
-/

namespace Talpf

namespace IPCMesg

/-- How a function ends, or that it needs more fuel. -/
inductive Ending (α : Type) where
  | ended (result : α)
  | assertion
  | running
deriving DecidableEq

section Reading

variable (debug : Bool) (memory : ℕ → UInt8) (size : ℕ)

/-- The first loop of `read`, with the places it looks at and the position behind it. -/
def skipBlocks : ℕ → ℕ → List ℕ × Ending ℕ
  | 0, _ => ([], .running)
  | fuel + 1, pos =>
      if memory pos &&& hasNextBlock ≠ 0 then
        if debug ∧ ¬pos < size then ([pos], .assertion)
        else
          let (accesses, ending) := skipBlocks fuel (pos + 1)
          (pos :: accesses, ending)
      else ([pos], .ended (pos + 1))

/-- The places that the second loop of `read` looks at, the last one first. -/
def blockPlaces (begin pos : ℕ) : List ℕ := (List.range' begin (pos - begin)).reverse

/-- The second loop of `read`. -/
def assemble (w begin pos : ℕ) : BitVec w :=
  (blockPlaces begin pos).foldl
    (fun result i => (result <<< 7) + (memory i &&& block).toBitVec.setWidth w) 0

/-- `read` for an unsigned integer, with all places it looks at. -/
def readMemory (w fuel begin : ℕ) : List ℕ × Ending (BitVec w × ℕ) :=
  match skipBlocks debug memory size fuel begin with
  | (accesses, .ended pos) =>
      (accesses ++ blockPlaces begin pos, .ended (assemble memory w begin pos, pos))
  | (accesses, .assertion) => (accesses, .assertion)
  | (accesses, .running) => (accesses, .running)

/-- The read returns without having left the message, or stops with an error. -/
def ReadsInside (w pos : ℕ) : Prop :=
  ∃ fuel accesses ending, readMemory debug memory size w fuel pos = (accesses, ending) ∧
    (ending = .assertion ∨ ∃ number behind, ending = .ended (number, behind) ∧ behind ≤ size ∧
      ∀ place ∈ accesses, place < size)

end Reading

section Loop

variable {debug : Bool} {memory : ℕ → UInt8} {size fuel pos : ℕ}

/-- The loop passes a place: the byte announces another one, and the assertion holds. -/
def Passes (debug : Bool) (memory : ℕ → UInt8) (size place : ℕ) : Prop :=
  memory place &&& hasNextBlock ≠ 0 ∧ (debug = true → place < size)

theorem skipBlocks_of_passes (passes : Passes debug memory size pos) :
    skipBlocks debug memory size (fuel + 1) pos =
      (pos :: (skipBlocks debug memory size fuel (pos + 1)).1,
        (skipBlocks debug memory size fuel (pos + 1)).2) := by
  rw [skipBlocks, if_pos passes.1, if_neg fun ⟨debugs, outside⟩ => outside (passes.2 debugs)]

theorem skipBlocks_of_last (last : ¬memory pos &&& hasNextBlock ≠ 0) :
    skipBlocks debug memory size (fuel + 1) pos = ([pos], .ended (pos + 1)) := by
  rw [skipBlocks, if_neg last]

/-- The loop ends after some places that it passes. -/
theorem exists_passed (ends : (skipBlocks debug memory size fuel pos).2 ≠ .running) :
    ∃ k, (∀ j < k, Passes debug memory size (pos + j)) ∧
      (¬memory (pos + k) &&& hasNextBlock ≠ 0 ∧ skipBlocks debug memory size fuel pos =
          (List.range' pos (k + 1), .ended (pos + k + 1)) ∨
        memory (pos + k) &&& hasNextBlock ≠ 0 ∧ debug = true ∧ ¬pos + k < size) := by
  induction fuel generalizing pos with
  | zero => exact absurd rfl ends
  | succ fuel ih =>
      by_cases next : memory pos &&& hasNextBlock ≠ 0
      · by_cases asserts : debug = true ∧ ¬pos < size
        · exact ⟨0, fun j less => absurd less j.not_lt_zero, .inr ⟨next, asserts⟩⟩
        · have passes : Passes debug memory size pos :=
            ⟨next, fun debugs => by_contra fun outside => asserts ⟨debugs, outside⟩⟩
          rw [skipBlocks_of_passes passes] at ends
          rcases ih ends with ⟨k, passed, ending⟩
          refine ⟨k + 1, ?_, ?_⟩
          · intro j less
            cases j with
            | zero => exact passes
            | succ j =>
                rw [← Nat.add_assoc, Nat.add_right_comm]
                exact passed j (Nat.lt_of_succ_lt_succ less)
          · rw [← Nat.add_assoc, Nat.add_right_comm]
            rcases ending with ⟨last, rest⟩ | outside
            · refine .inl ⟨last, ?_⟩
              rw [skipBlocks_of_passes passes, rest]
              rfl
            · exact .inr outside
      · exact ⟨0, fun j less => absurd less j.not_lt_zero, .inl ⟨next, skipBlocks_of_last next⟩⟩

end Loop

section Places

variable {debug : Bool} {memory : ℕ → UInt8} {size w pos : ℕ}

theorem readMemory_of_ended {fuel behind : ℕ} {accesses : List ℕ}
    (ended : skipBlocks debug memory size fuel pos = (accesses, .ended behind)) :
    readMemory debug memory size w fuel pos =
      (accesses ++ blockPlaces pos behind, .ended (assemble memory w pos behind, behind)) := by
  rw [readMemory, ended]

theorem ReadsInside.ends (inside : pos ≤ size) (reads : ReadsInside debug memory size w pos) :
    (∃ last, pos ≤ last ∧ last < size ∧ memory last &&& hasNextBlock = 0) ∨
      debug = true ∧ memory size &&& hasNextBlock ≠ 0 := by
  rcases reads with ⟨fuel, accesses, ending, isRead, ends⟩
  have stops : (skipBlocks debug memory size fuel pos).2 ≠ .running := by
    intro runs
    rw [readMemory, ← Prod.eta (skipBlocks debug memory size fuel pos), runs] at isRead
    rcases ends with rfl | ⟨_, _, rfl, _⟩ <;> cases isRead
  rcases exists_passed stops with ⟨k, passed, ⟨last, ended⟩ | ⟨next, debugs, outside⟩⟩
  · rw [readMemory_of_ended ended] at isRead
    rcases ends with rfl | ⟨_, behind, rfl, fits, _⟩
    · cases isRead
    · cases isRead
      exact .inl ⟨pos + k, Nat.le_add_right pos k, fits, not_not.mp last⟩
  · have atEnd : pos + k = size := by
      rcases Nat.eq_zero_or_pos k with rfl | positive
      · omega
      · have before := (passed (k - 1) (by omega)).2 debugs
        omega
    exact .inr ⟨debugs, atEnd ▸ next⟩

end Places

section Messages

variable {buffer : List UInt8} {memory : ℕ → UInt8} {w pos : ℕ}

end Messages

end IPCMesg

end Talpf

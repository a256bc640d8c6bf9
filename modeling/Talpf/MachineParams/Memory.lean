import Mathlib.Tactic.Ring
import Talpf.MachineParams.Buffers

/-!
# When the machine probe stays within its buffers

The probe needs a granted queue for its first exchange of conditions, room for
four messages in case its first iteration is refused memory somewhere, and sizes
that do not wrap around.
-/

namespace Talpf

namespace Probe

namespace Setting

variable {n : ℕ} {setting : Setting n} {range : ℕ}

/-- What the probe relies on without looking. -/
structure Sufficient (setting : Setting n) : Prop where
  /-- There is room for the first exchange of conditions. -/
  queue : ∀ p, setting.queueRequest minRange p = .success ∨ n - 1 ≤ setting.queue p
  /-- The sizes of the first iteration do not wrap. -/
  sizes : setting.Granted minRange → 8 * n * setting.blockSize + 8 < 2 ^ 64
  /-- If memory is refused in the first iteration, there is room for four messages. -/
  refused : (∃ p, setting.answer minRange setting.start p = .outOfMemory) →
    (∀ p, setting.answer minRange setting.start p ≠ .failed) →
      (setting.grow minRange setting.start).Roomy 4 setting.blockSize
  /-- The sizes of queues that are granted do not wrap. -/
  queues : ∀ range, minRange < range → range < maxRange → setting.Reached range →
    ∀ p, setting.queueRequest range p = .success → n * (1 + 2 ^ range) < 2 ^ 64

theorem totalSize_eq (setting : Setting n) (range : ℕ) :
    setting.totalSize range = (setting.blockSize * n * 2 ^ range + 8) % 2 ^ 64 := by
  simp [totalSize, wrap, Nat.add_mod, Nat.mul_mod]

theorem queue_grown (setting : Setting n) (range : ℕ) (p : Fin n) :
    (setting.grown range).queue p =
      if setting.queueRequest range p = .success then setting.messages range
      else (setting.before range).queue p := rfl

theorem before_first (setting : Setting n) :
    setting.before minRange = setting.start.registerTables := if_pos (Nat.le_refl _)

theorem before_next (least : minRange ≤ range) :
    setting.before (range + 1) = { setting.start.registerTables with
      readBuffer := fun _ => setting.totalSize range
      writeBuffer := fun _ => setting.totalSize range
      queue := fun _ => setting.messages range } := by
  rw [before, if_neg (by omega), Nat.add_sub_cancel]

/-- The sizes of the buffers in an iteration that is granted -/
theorem Sufficient.totalSize (sufficient : setting.Sufficient) (least : minRange ≤ range)
    (reached : setting.Reached (range + 1)) :
    setting.totalSize range = setting.blockSize * n * 2 ^ range + 8 ∧
      setting.blockSize * n * 2 ^ range + 8 ≤ maxSize := by
  have positive := setting.nprocs_pos
  have bound : maxSize = 2 ^ 63 - 1 := rfl
  induction range, least using Nat.le_induction with
  | base =>
      have granted := reached minRange (Nat.le_refl _) (Nat.lt_succ_self _)
      have sizes := sufficient.sizes granted
      have same : 8 * n * setting.blockSize = setting.blockSize * n * 2 ^ minRange := by
        rw [minRange]
        ring
      have total : setting.totalSize minRange = setting.blockSize * n * 2 ^ minRange + 8 := by
        rw [totalSize_eq, Nat.mod_eq_of_lt (by omega)]
      refine ⟨total, ?_⟩
      have fits := (granted_at (granted ⟨0, positive⟩)).2.2.2.2
      have incoming : (setting.before minRange).readBuffer ⟨0, positive⟩ ≤ maxSize := by
        rw [before_first]
        exact setting.readBuffer_le _
      omega
  | succ range least ih =>
      have granted := reached (range + 1) (by omega) (Nat.lt_succ_self _)
      have before := ih fun earlier from3 less => reached earlier from3 (by omega)
      have doubled : setting.blockSize * n * 2 ^ (range + 1) =
          2 * (setting.blockSize * n * 2 ^ range) := by ring
      have total : setting.totalSize (range + 1) =
          setting.blockSize * n * 2 ^ (range + 1) + 8 := by
        rw [totalSize_eq, Nat.mod_eq_of_lt (by omega)]
      refine ⟨total, ?_⟩
      have fits := (granted_at (granted ⟨0, positive⟩)).2.2.2.2
      rw [before_next least] at fits
      dsimp only at fits
      omega

/-- The size of the queue in an iteration that is granted -/
theorem Sufficient.messages (sufficient : setting.Sufficient) (least : minRange ≤ range)
    (most : range < maxRange) (reached : setting.Reached (range + 1)) :
    setting.messages range = n * (1 + 2 ^ range) := by
  have few := setting.nprocs_lt
  rw [Setting.messages, wrap]
  rcases Nat.eq_or_lt_of_le least with rfl | later
  · apply Nat.mod_eq_of_lt
    rw [minRange]
    omega
  · have granted := reached range least (Nat.lt_succ_self _) ⟨0, setting.nprocs_pos⟩
    apply Nat.mod_eq_of_lt
    exact sufficient.queues range later most
      (fun earlier from3 less => reached earlier from3 (by omega)) _ (granted_at granted).1

/-- The queue after the requests of an iteration -/
theorem Sufficient.queue_cases (sufficient : setting.Sufficient) (least : minRange ≤ range)
    (most : range < maxRange) (reached : setting.Reached range) (p : Fin n) :
    ((setting.grown range).queue p = n * (1 + 2 ^ range)) ∨
      ((setting.grown range).queue p = (setting.before range).queue p ∧
        setting.queueRequest range p ≠ .success) := by
  rw [queue_grown]
  by_cases success : setting.queueRequest range p = .success
  · left
    have few := setting.nprocs_lt
    rw [if_pos success, Setting.messages, wrap]
    apply Nat.mod_eq_of_lt
    rcases Nat.eq_or_lt_of_le least with rfl | later
    · rw [minRange]
      omega
    · exact sufficient.queues range later most reached p success
  · right
    exact ⟨if_neg success, success⟩

/-- The room in a state whose sizes are those of an earlier iteration -/
theorem roomy_of_le {state : State n} {blocks : ℕ} (queue : ∀ p, n * blocks ≤ state.queue p)
    (readBuffer : ∀ p, setting.blockSize * n * blocks ≤ state.readBuffer p)
    (writeBuffer : ∀ p, setting.blockSize * n * blocks ≤ state.writeBuffer p) :
    state.Roomy blocks setting.blockSize := by
  have same : blocks * n * setting.blockSize = setting.blockSize * n * blocks := by ring
  refine ⟨?_, ?_, ?_⟩
  · intro p
    rw [Nat.mul_comm]
    exact queue p
  · intro p
    rw [same]
    exact readBuffer p
  · intro p
    rw [same]
    exact writeBuffer p

/-- The room in an iteration of the exploring loop but the first. -/
theorem Sufficient.roomy_later (sufficient : setting.Sufficient) (least : minRange ≤ range)
    (most : range + 1 < maxRange) (reached : setting.Reached (range + 1)) :
    (setting.grown (range + 1)).Roomy (2 ^ range) setting.blockSize := by
  have bound : maxSize = 2 ^ 63 - 1 := rfl
  rcases sufficient.totalSize least reached with ⟨earlier, small⟩
  have doubled : setting.blockSize * n * 2 ^ (range + 1) =
      2 * (setting.blockSize * n * 2 ^ range) := by ring
  have total : setting.totalSize (range + 1) =
      setting.blockSize * n * 2 ^ (range + 1) + 8 := by
    rw [totalSize_eq, Nat.mod_eq_of_lt (by omega)]
  have sizes := fun p => resizeBuffers_cases (setting.readAlloc (range + 1) p)
    (setting.writeAlloc (range + 1) p) ((setting.before (range + 1)).readBuffer p)
    ((setting.before (range + 1)).writeBuffer p) (setting.totalSize (range + 1))
  rw [before_next least] at sizes
  dsimp only at sizes
  apply roomy_of_le
  · intro p
    rcases sufficient.queue_cases (by omega) most reached p with granted | ⟨refused, _⟩
    · rw [granted]
      apply Nat.mul_le_mul_left
      rw [Nat.pow_succ]
      omega
    · rw [refused, before_next least]
      dsimp only
      rw [sufficient.messages least (by omega) reached]
      apply Nat.mul_le_mul_left
      omega
  · intro p
    show _ ≤ (setting.resized (range + 1) (setting.before (range + 1)) p).1
    rw [before_next least, resized]
    dsimp only
    rcases (sizes p).1 with same | wanted
    · rw [same]
      omega
    · rw [wanted]
      omega
  · intro p
    show _ ≤ (setting.resized (range + 1) (setting.before (range + 1)) p).2.1
    rw [before_next least, resized]
    dsimp only
    rcases (sizes p).2.1 with same | wanted
    · rw [same]
      omega
    · rw [wanted]
      omega

/-- What the probe relies on is enough. -/
theorem Sufficient.room (sufficient : setting.Sufficient) : setting.Room where
  gathers range least most reached p := by
    rcases sufficient.queue_cases least most reached p with granted | ⟨refused, answer⟩
    · rw [granted, Nat.mul_add]
      omega
    · rw [refused]
      rcases Nat.eq_or_lt_of_le least with rfl | later
      · rw [before_first]
        exact (sufficient.queue p).resolve_left answer
      · obtain ⟨range, rfl⟩ : ∃ earlier, range = earlier + 1 := ⟨range - 1, by omega⟩
        rw [before_next (by omega)]
        dsimp only
        rw [sufficient.messages (by omega) (by omega) reached, Nat.mul_add]
        omega
  sends range least most reached granted := by
    have reachedNext := reached.next granted
    have total := (sufficient.totalSize least reachedNext).1
    apply roomy_of_le
    · intro p
      rw [(granted_at (granted p)).2.2.2.1, sufficient.messages least most reachedNext]
      apply Nat.mul_le_mul_left
      omega
    · intro p
      rw [(granted_at (granted p)).2.1, total]
      omega
    · intro p
      rw [(granted_at (granted p)).2.2.1, total]
      omega
  stops range least most reached stops := by
    rcases Nat.eq_or_lt_of_le least with rfl | later
    · rcases stops.resolve_left (lt_irrefl _) with ⟨outOfMemory, fine⟩
      rw [before_first] at outOfMemory fine
      have roomy := sufficient.refused outOfMemory fine
      rw [grown, before_first]
      exact ⟨roomy.queue, roomy.readBuffer, roomy.writeBuffer⟩
    · obtain ⟨range, rfl⟩ : ∃ earlier, range = earlier + 1 := ⟨range - 1, by omega⟩
      have four : 4 ≤ 2 ^ range :=
        (show 4 ≤ 2 ^ minRange by decide).trans (Nat.pow_le_pow_right (by decide) (by omega))
      rw [Nat.add_sub_cancel, Nat.max_eq_right four]
      exact sufficient.roomy_later (by omega) most reached
  ends reached := by
    have total := (@Sufficient.totalSize _ setting 59 sufficient (by decide) reached).1
    have queue := @Sufficient.messages _ setting 59 sufficient (by decide) (by decide) reached
    have most : max 4 (2 ^ (maxRange - 1)) = 2 ^ 59 := by decide
    rw [most, show maxRange = 59 + 1 from rfl, before_next (by decide)]
    apply roomy_of_le
    · intro p
      dsimp only
      rw [queue]
      apply Nat.mul_le_mul_left
      omega
    · intro p
      dsimp only
      omega
    · intro p
      dsimp only
      omega

/-- A queue whose size wraps has no room for the messages of the iteration before. -/
theorem Room.queue_lt (room : setting.Room) (least : minRange ≤ range)
    (most : range + 1 < maxRange) (reached : setting.Reached (range + 1))
    (before : n * (1 + 2 ^ range) < 2 ^ 64) (p : Fin n)
    (success : setting.queueRequest (range + 1) p = .success) :
    n * (1 + 2 ^ (range + 1)) < 2 ^ 64 := by
  have late : setting.Stops (range + 1) := Or.inl (Nat.lt_succ_of_le least)
  have queue := (room.stops (range + 1) (by omega) most reached late).queue p
  have messages : 2 ^ range * n ≤ max 4 (2 ^ (range + 1 - 1)) * n :=
    Nat.mul_le_mul_right n (Nat.le_max_right _ _)
  rw [queue_grown, if_pos success, Setting.messages, wrap] at queue
  have doubled : n * (1 + 2 ^ (range + 1)) = n + 2 * (2 ^ range * n) := by ring
  have once : n * (1 + 2 ^ range) = n + 2 ^ range * n := by ring
  rw [once] at before
  rw [doubled] at queue ⊢
  omega

/-- What the probe relies on is needed. -/
theorem Room.sufficient (room : setting.Room) : setting.Sufficient := by
  have nothing : setting.Reached minRange := fun earlier least less => by omega
  have inside : minRange < maxRange := by decide
  have first : n * (1 + 2 ^ minRange) < 2 ^ 64 := by
    have few := setting.nprocs_lt
    rw [minRange]
    omega
  have queues : ∀ range, minRange < range → range < maxRange → setting.Reached range →
      ∀ p, setting.queueRequest range p = .success → n * (1 + 2 ^ range) < 2 ^ 64 := by
    intro range later
    induction range, later using Nat.le_induction with
    | base => exact fun most reached => room.queue_lt (Nat.le_refl _) most reached first
    | succ range later ih =>
        intro most reached
        refine room.queue_lt (Nat.le_of_succ_le later) most reached ?_
        have granted := reached range (Nat.le_of_succ_le later) (Nat.lt_succ_self _)
        exact ih (by omega) (fun earlier from3 less => reached earlier from3 (by omega)) _
          (granted_at (granted ⟨0, setting.nprocs_pos⟩)).1
  refine ⟨?_, ?_, ?_, queues⟩
  · intro p
    have gathers := room.gathers minRange (Nat.le_refl _) inside nothing p
    rw [queue_grown, before_first] at gathers
    by_cases success : setting.queueRequest minRange p = .success
    · exact Or.inl success
    · rw [if_neg success] at gathers
      exact Or.inr gathers
  · intro granted
    have sends := (room.sends minRange (Nat.le_refl _) inside nothing granted).readBuffer
      ⟨0, setting.nprocs_pos⟩
    rw [(granted_at (granted _)).2.1, totalSize_eq] at sends
    have same : setting.blockSize * n * 2 ^ minRange = 8 * n * setting.blockSize := by
      rw [minRange]
      ring
    have eight : 2 ^ minRange = 8 := rfl
    rw [same, eight] at sends
    omega
  · intro outOfMemory fine
    have stops : setting.Stops minRange := by
      rw [Stops, before_first]
      exact Or.inr ⟨outOfMemory, fine⟩
    have roomy := room.stops minRange (Nat.le_refl _) inside nothing stops
    rw [grown, before_first] at roomy
    exact ⟨roomy.queue, roomy.readBuffer, roomy.writeBuffer⟩

/--
For all timings the probe stays within its buffers and its message queue, and
deregisters what it has registered unless it fails fatally, if and only if what
it relies on is the case.
-/
theorem stays_iff (setting : Setting n) :
    (∀ timing, Stays (setting.findMachineParams timing)) ↔ setting.Sufficient :=
  ⟨fun stays => (room_of_stays stays).sufficient, fun sufficient => sufficient.room.stays⟩

/-- A process that cannot allocate the buffers of its first iteration. -/
def exhausted : Setting 1 where
  blockSize := 1
  readBuffer := fun _ => 0
  writeBuffer := fun _ => 0
  queue := fun _ => 0
  queueRequest := fun _ _ => .success
  readAlloc := fun _ _ => false
  writeAlloc := fun _ _ => false
  nprocs_pos := Nat.one_pos
  nprocs_lt := by decide
  blockSize_lt := by decide
  readBuffer_le := fun _ => Nat.zero_le _
  writeBuffer_le := fun _ => Nat.zero_le _

/-- Four messages are read from an empty buffer. -/
theorem not_stays : ¬∀ timing, Stays (exhausted.findMachineParams timing) := by
  intro stays
  have refused : ∀ p, exhausted.answer minRange exhausted.start p = .outOfMemory := fun _ => rfl
  have fine : ∀ p, exhausted.answer minRange exhausted.start p ≠ .failed := by simp [refused]
  have room := (room_of_stays stays).sufficient.refused ⟨⟨0, Nat.one_pos⟩, refused _⟩ fine
  exact absurd (room.readBuffer ⟨0, Nat.one_pos⟩) (by decide)

end Setting

end Probe

end Talpf

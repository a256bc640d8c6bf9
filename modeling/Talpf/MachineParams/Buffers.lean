import Mathlib.Order.Nat
import Talpf.MachineParams.Supersteps

/-!
# The buffers of the machine probe

When the exploring loop stops, the probe measures with half as many messages as
it has asked memory for, but with four at least.  If the loop stops in its first
iteration nothing was granted for these four, and the buffers are as they were
left by earlier requests.
-/

namespace Talpf

namespace Probe

variable {n : ℕ}

namespace Setting

variable {setting : Setting n} {timing : Timing n} {state after : State n} {range : ℕ}

/-- The state in which an iteration begins that all earlier iterations have led to. -/
def before (setting : Setting n) (range : ℕ) : State n :=
  if range ≤ minRange then setting.start.registerTables
  else { setting.start.registerTables with
    readBuffer := fun _ => setting.totalSize (range - 1)
    writeBuffer := fun _ => setting.totalSize (range - 1)
    queue := fun _ => setting.messages (range - 1) }

/-- All requests of an iteration are granted. -/
def Granted (setting : Setting n) (range : ℕ) : Prop :=
  ∀ p, setting.answer range (setting.before range) p = .success

def Reached (setting : Setting n) (range : ℕ) : Prop :=
  ∀ earlier, minRange ≤ earlier → earlier < range → setting.Granted earlier

theorem Reached.next {setting : Setting n} {range : ℕ} (reached : setting.Reached range)
    (granted : setting.Granted range) : setting.Reached (range + 1) := by
  intro earlier least less
  rcases Nat.lt_succ_iff_lt_or_eq.mp less with less | rfl
  · exact reached earlier least less
  · exact granted

/-- The loop may stop in an iteration. -/
def Stops (setting : Setting n) (range : ℕ) : Prop :=
  range > minRange ∨
    (∃ p, setting.answer range (setting.before range) p = .outOfMemory) ∧
      ∀ p, setting.answer range (setting.before range) p ≠ .failed

/-- The state after the requests of an iteration -/
def grown (setting : Setting n) (range : ℕ) : State n := setting.grow range (setting.before range)

/-- There is room for everything that may be sent. -/
structure Room (setting : Setting n) : Prop where
  gathers : ∀ range, minRange ≤ range → range < maxRange → setting.Reached range →
    ∀ p, n - 1 ≤ (setting.grown range).queue p
  sends : ∀ range, minRange ≤ range → range < maxRange → setting.Reached range →
    setting.Granted range → (setting.grown range).Roomy (2 ^ range) setting.blockSize
  stops : ∀ range, minRange ≤ range → range < maxRange → setting.Reached range →
    setting.Stops range →
      (setting.grown range).Roomy (max 4 (2 ^ (range - 1))) setting.blockSize
  ends : setting.Reached maxRange →
    (setting.before maxRange).Roomy (max 4 (2 ^ (maxRange - 1))) setting.blockSize

/-- A state has come to an iteration. -/
def Arrived (setting : Setting n) (range : ℕ) (state : State n) : Prop :=
  state = { setting.before range with supersteps := state.supersteps }

/-- Between the iterations only the tables are registered. -/
theorem slots_before (setting : Setting n) (range : ℕ) :
    (setting.before range).allStatusSlot = true ∧ (setting.before range).allTimingsSlot = true ∧
      (setting.before range).readSlot = none ∧ (setting.before range).writeSlot = none := by
  rw [before]
  split <;> exact ⟨rfl, rfl, rfl, rfl⟩

theorem Arrived.answer (arrived : setting.Arrived range state) (p : Fin n) :
    setting.answer range state p = setting.answer range (setting.before range) p := by
  rw [arrived]
  rfl

theorem Arrived.grow (arrived : setting.Arrived range state) :
    setting.grow range state = { setting.grown range with supersteps := state.supersteps } := by
  rw [arrived]
  rfl

/-- Vectors are resized to the wanted size, or not at all. -/
theorem resizeBuffers_cases (readAlloc writeAlloc : Bool) (read write wanted : ℕ) :
    ((resizeBuffers readAlloc writeAlloc read write wanted).1 = read ∨
        (resizeBuffers readAlloc writeAlloc read write wanted).1 = wanted) ∧
      ((resizeBuffers readAlloc writeAlloc read write wanted).2.1 = write ∨
        (resizeBuffers readAlloc writeAlloc read write wanted).2.1 = wanted) ∧
      ((resizeBuffers readAlloc writeAlloc read write wanted).2.2 = true →
        (resizeBuffers readAlloc writeAlloc read write wanted).1 = wanted ∧
          (resizeBuffers readAlloc writeAlloc read write wanted).2.1 = wanted ∧
          (wanted ≤ read ∨ wanted ≤ maxSize)) := by
  rw [resizeBuffers]
  cases reads : resize readAlloc read wanted with
  | none => simp
  | some read' =>
      cases writes : resize writeAlloc write wanted with
      | none =>
          simp only [resize] at reads
          split_ifs at reads <;> simp_all
      | some write' =>
          simp only [resize] at reads writes
          split_ifs at reads <;> split_ifs at writes <;> simp_all

theorem totalSize_lt (setting : Setting n) (range : ℕ) : setting.totalSize range < 2 ^ 64 :=
  Nat.mod_lt _ (by simp)

theorem small_before (setting : Setting n) (range : ℕ) : (setting.before range).Small := by
  rw [before]
  split
  next =>
    have bound : maxSize < 2 ^ 64 := by simp [maxSize]
    exact ⟨fun p => (setting.readBuffer_le p).trans_lt bound,
      fun p => (setting.writeBuffer_le p).trans_lt bound⟩
  next => exact ⟨fun p => setting.totalSize_lt _, fun p => setting.totalSize_lt _⟩

theorem small_grown (setting : Setting n) (range : ℕ) : (setting.grown range).Small := by
  have small := setting.small_before range
  have cases := fun p => resizeBuffers_cases (setting.readAlloc range p)
    (setting.writeAlloc range p) ((setting.before range).readBuffer p)
    ((setting.before range).writeBuffer p) (setting.totalSize range)
  refine ⟨?_, ?_⟩
  · intro p
    show (setting.resized range (setting.before range) p).1 < 2 ^ 64
    rw [resized]
    rcases (cases p).1 with same | wanted
    · rw [same]
      exact small.readBuffer p
    · rw [wanted]
      exact setting.totalSize_lt range
  · intro p
    show (setting.resized range (setting.before range) p).2.1 < 2 ^ 64
    rw [resized]
    rcases (cases p).2.1 with same | wanted
    · rw [same]
      exact small.writeBuffer p
    · rw [wanted]
      exact setting.totalSize_lt range

/-- What an answer of success means for a process. -/
theorem granted_at {p : Fin n}
    (success : setting.answer range (setting.before range) p = .success) :
    setting.queueRequest range p = .success ∧
      (setting.grown range).readBuffer p = setting.totalSize range ∧
      (setting.grown range).writeBuffer p = setting.totalSize range ∧
      (setting.grown range).queue p = setting.messages range ∧
      (setting.totalSize range ≤ (setting.before range).readBuffer p ∨
        setting.totalSize range ≤ maxSize) := by
  rw [answer] at success
  split at success
  next ok =>
    have sizes := (resizeBuffers_cases _ _ _ _ _).2.2 ok
    exact ⟨success, sizes.1, sizes.2.1, by simp [grown, Setting.grow, success], sizes.2.2⟩
  next => cases success

/-- An iteration whose requests are granted leads to the next one. -/
theorem Granted.arrives (granted : setting.Granted range) (least : minRange ≤ range)
    (arrived : setting.Arrived range state) {gathered : State n} (nMsgs blockSize : ℕ)
    (continues : State.Continues (setting.grow range state) gathered) :
    setting.Arrived (range + 1)
      (gathered.registerBuffers.send nMsgs blockSize).deregisterBuffers := by
  have next : ¬range + 1 ≤ minRange := by omega
  have reads : (setting.grown range).readBuffer = fun _ => setting.totalSize range :=
    funext fun p => (granted_at (granted p)).2.1
  have writes : (setting.grown range).writeBuffer = fun _ => setting.totalSize range :=
    funext fun p => (granted_at (granted p)).2.2.1
  have queue : (setting.grown range).queue = fun _ => setting.messages range :=
    funext fun p => (granted_at (granted p)).2.2.2.1
  have status : (setting.grown range).allStatusSlot = true := (setting.slots_before range).1
  have timings : (setting.grown range).allTimingsSlot = true := (setting.slots_before range).2.1
  rcases continues with ⟨supersteps, rfl⟩
  rw [Arrived, arrived.grow, before, if_neg next, Nat.add_sub_cancel]
  simp [State.deregisterBuffers, State.send, State.post, State.registerBuffers,
    State.registerTables, start, reads, writes, queue, status, timings]

theorem Arrived.small (arrived : setting.Arrived range state) : state.Small := by
  have small := setting.small_before range
  rw [arrived]
  exact ⟨small.readBuffer, small.writeBuffer⟩

theorem Arrived.roomy_iff (arrived : setting.Arrived range state) {nMsgs : ℕ} :
    state.Roomy nMsgs setting.blockSize ↔
      (setting.before range).Roomy nMsgs setting.blockSize := by
  rw [arrived]
  exact ⟨fun roomy => ⟨roomy.queue, roomy.readBuffer, roomy.writeBuffer⟩,
    fun roomy => ⟨roomy.queue, roomy.readBuffer, roomy.writeBuffer⟩⟩

theorem Arrived.small_grow (arrived : setting.Arrived range state) :
    (setting.grow range state).Small := by
  have small := setting.small_grown range
  rw [arrived.grow]
  exact ⟨small.readBuffer, small.writeBuffer⟩

theorem Arrived.roomy_grow_iff (arrived : setting.Arrived range state) {nMsgs : ℕ} :
    (setting.grow range state).Roomy nMsgs setting.blockSize ↔
      (setting.grown range).Roomy nMsgs setting.blockSize := by
  rw [arrived.grow]
  exact ⟨fun roomy => ⟨roomy.queue, roomy.readBuffer, roomy.writeBuffer⟩,
    fun roomy => ⟨roomy.queue, roomy.readBuffer, roomy.writeBuffer⟩⟩

theorem Arrived.queue_grow (arrived : setting.Arrived range state) :
    (setting.grow range state).queue = (setting.grown range).queue := by
  rw [arrived.grow]

theorem answer_of_proceed {p : Fin n} (status : setting.status timing range state p = .proceed) :
    setting.answer range state p = .success := by
  rw [Setting.status] at status
  split_ifs at status
  cases answer : setting.answer range state p with
  | success => rfl
  | outOfMemory => simp [answer, Answer.condition] at status
  | failed => simp [answer, Answer.condition] at status

theorem answer_of_stop {p : Fin n} (status : setting.status timing range state p = .stop) :
    range > minRange ∨ setting.answer range state p = .outOfMemory := by
  rw [Setting.status] at status
  split_ifs at status with _ late
  · exact Or.inl late.1
  · right
    cases answer : setting.answer range state p with
    | success => simp [answer, Answer.condition] at status
    | outOfMemory => rfl
    | failed => simp [answer, Answer.condition] at status

theorem answer_of_not_error {p : Fin n} (status : setting.status timing range state p ≠ .error) :
    range > minRange ∨ setting.answer range state p ≠ .failed := by
  rw [Setting.status] at status
  split_ifs at status with _ late
  · exact absurd rfl status
  · exact Or.inl late.1
  · right
    intro failed
    simp [failed, Answer.condition] at status

/-- The loop stops only where it may. -/
theorem Arrived.stops (arrived : setting.Arrived range state)
    (agreed : (allgather timing (.exploring range) (setting.status timing range state)
      (setting.grow range state)).2 = .stop) : setting.Stops range := by
  rcases stop_of_allgather agreed with ⟨⟨p, stop⟩, fine⟩
  by_cases late : range > minRange
  · exact Or.inl late
  · right
    refine ⟨⟨p, ?_⟩, ?_⟩
    · rw [← arrived.answer]
      exact (answer_of_stop stop).resolve_left late
    · intro q
      rw [← arrived.answer]
      exact (answer_of_not_error (fine q)).resolve_left late

/-- The exploring loop ends safely, and with room for the measurements. -/
theorem explore_safe (room : setting.Room) (timing : Timing n) {left : ℕ}
    (least : minRange ≤ range) (last : range + left = maxRange)
    (reached : setting.Reached range) (arrived : setting.Arrived range state)
    (safe : state.Safe) :
    (∀ after exit, setting.explore timing range left state = (after, .error exit) →
      Stays (after, exit)) ∧
    ∀ after last, setting.explore timing range left state = (after, .ok last) →
      after.Safe ∧ after.Small ∧ after.Roomy (max 4 (2 ^ (last - 1))) setting.blockSize := by
  induction left generalizing range state with
  | zero =>
      rw [explore]
      refine ⟨nofun, ?_⟩
      rintro _ _ ⟨⟩
      obtain rfl : range = maxRange := last
      exact ⟨safe, arrived.small, arrived.roomy_iff.mpr (room.ends reached)⟩
  | succ left ih =>
      have inside : range < maxRange := by omega
      have gathers : ∀ p, n - 1 ≤ (setting.grow range state).queue p := by
        rw [arrived.queue_grow]
        exact room.gathers range least inside reached
      have gathering : (allgather timing (.exploring range) (setting.status timing range state)
          (setting.grow range state)).1.Safe := safe_allgather safe gathers
      have continues := @continues_allgather _ timing (.exploring range)
        (setting.status timing range state) (setting.grow range state)
      rw [explore]
      dsimp only
      generalize agreement : allgather timing (.exploring range)
        (setting.status timing range state) (setting.grow range state) = gathered
        at gathering continues
      rcases gathered with ⟨gathered, loopExit⟩
      cases loopExit with
      | stop =>
          refine ⟨nofun, ?_⟩
          rintro _ _ ⟨⟩
          have stops : setting.Stops range := arrived.stops (congrArg Prod.snd agreement)
          have roomy := arrived.roomy_grow_iff.mpr (room.stops range least inside reached stops)
          exact ⟨gathering, continues.small arrived.small_grow, continues.roomy roomy⟩
      | error =>
          refine ⟨?_, by rintro _ _ ⟨⟩⟩
          rintro _ _ ⟨⟩
          refine ⟨gathering, fun _ => ⟨rfl, rfl, ?_⟩⟩
          rcases continues with ⟨_, rfl⟩
          rw [arrived.grow]
          exact (setting.slots_before range).2.2
      | proceed =>
          have granted : setting.Granted range := by
            intro p
            rw [← arrived.answer]
            exact answer_of_proceed (proceed_of_allgather (congrArg Prod.snd agreement) p)
          have roomy := arrived.roomy_grow_iff.mpr
            (room.sends range least inside reached granted)
          have sent : (gathered.registerBuffers.send (2 ^ range) setting.blockSize).Safe :=
            State.Safe.send gathering ((State.safe_registerBuffers_iff
              (continues.small arrived.small_grow)).mpr (continues.roomy roomy))
          dsimp only
          split
          next =>
            split
            next =>
              exact ih (by omega) (by omega) (reached.next granted)
                (granted.arrives least arrived _ _ continues) sent
            next =>
              refine ⟨?_, by rintro _ _ ⟨⟩⟩
              rintro _ _ ⟨⟩
              exact ⟨sent, absurd rfl⟩
          next =>
            refine ⟨?_, by rintro _ _ ⟨⟩⟩
            rintro _ _ ⟨⟩
            exact ⟨gathering, absurd rfl⟩

/-- What the measurements rely on -/
structure Measuring (setting : Setting n) (state : State n) (most : ℕ) : Prop where
  safe : state.Safe
  registered : state.Registered
  small : state.Small
  roomy : state.Roomy most setting.blockSize
  /-- There is room for the exchange of conditions. -/
  gathers : ∀ p, n - 1 ≤ state.queue p

theorem Measuring.send {most nMsgs : ℕ} (measuring : setting.Measuring state most)
    (less : nMsgs ≤ most) : setting.Measuring (state.send nMsgs setting.blockSize) most where
  safe := measuring.safe.send
    ((State.safe_sending_iff measuring.registered measuring.small).mpr (measuring.roomy.mono less))
  registered := (State.continues_post _ _).registered measuring.registered
  small := (State.continues_post _ _).small measuring.small
  roomy := (State.continues_post _ _).roomy measuring.roomy
  gathers := measuring.gathers

theorem Measuring.allgather {most : ℕ} (measuring : setting.Measuring state most)
    (moment : Moment) (allC : Fin n → ErrorCondition) :
    setting.Measuring (allgather timing moment allC state).1 most where
  safe := safe_allgather measuring.safe measuring.gathers
  registered := continues_allgather.registered measuring.registered
  small := continues_allgather.small measuring.small
  roomy := continues_allgather.roomy measuring.roomy
  gathers := by
    rcases continues_allgather with ⟨supersteps, same⟩
    rw [same]
    exact measuring.gathers

/-- A run of the measurements that ends early, or goes on with what they rely on. -/
def Measured (setting : Setting n) (most : ℕ) (outcome : State n × Except Exit Unit) : Prop :=
  (∃ exit, outcome.2 = .error exit ∧ Stays (outcome.1, exit)) ∨
    (outcome.2 = .ok () ∧ setting.Measuring outcome.1 most)

theorem samples_safe (timing : Timing n) {j nMsgs most : ℕ} (less : nMsgs ≤ most) {i left : ℕ}
    (measuring : setting.Measuring state most) :
    setting.Measured most (setting.samples timing j nMsgs i left state) := by
  induction left generalizing i state with
  | zero => exact Or.inr ⟨rfl, measuring⟩
  | succ left ih =>
      rw [samples]
      have sent := measuring.send less
      have gathered : setting.Measuring (Probe.allgather timing (.measuring j i)
          (sampleStatus timing j i) (state.send nMsgs setting.blockSize)).1 most :=
        sent.allgather _ _
      split
      next =>
        dsimp only
        split
        next =>
          split
          next => exact Or.inl ⟨_, rfl, gathered.safe, fun _ => ⟨rfl, rfl, rfl, rfl⟩⟩
          next => exact Or.inr ⟨rfl, gathered⟩
          next => exact ih gathered
        next => exact Or.inl ⟨_, rfl, sent.safe, absurd rfl⟩
      next => exact Or.inl ⟨_, rfl, measuring.safe, absurd rfl⟩

theorem measure_safe (timing : Timing n) {most : ℕ} {sizes : List ℕ}
    (less : ∀ nMsgs ∈ sizes, nMsgs ≤ most) {j : ℕ} (measuring : setting.Measuring state most) :
    setting.Measured most (setting.measure timing j sizes state) := by
  induction sizes generalizing j state with
  | nil => exact Or.inr ⟨rfl, measuring⟩
  | cons nMsgs sizes ih =>
      have sampled : setting.Measured most
          (setting.samples timing j nMsgs 0 preferredSamples state) :=
        samples_safe timing (less nMsgs List.mem_cons_self) measuring
      rw [measure]
      generalize setting.samples timing j nMsgs 0 preferredSamples state = outcome at sampled
      rcases outcome with ⟨after, result⟩
      rcases sampled with ⟨exit, rfl, stays⟩ | ⟨rfl, measuring⟩
      · exact Or.inl ⟨exit, rfl, stays⟩
      · exact ih (fun nMsgs mem => less nMsgs (List.mem_cons_of_mem _ mem)) measuring

/-- With enough room the whole probe is safe. -/
theorem Room.stays (room : setting.Room) (timing : Timing n) :
    Stays (setting.findMachineParams timing) := by
  rw [findMachineParams]
  split
  next =>
    have arrived : setting.Arrived minRange setting.start.registerTables := by
      rw [Arrived, before, if_pos (Nat.le_refl _)]
    have reached : setting.Reached minRange := fun earlier least less => by omega
    have last : minRange + (maxRange - minRange) = maxRange := by decide
    have nothing : setting.start.registerTables.Safe :=
      fun superstep mem => absurd mem List.not_mem_nil
    have explored := explore_safe room timing (Nat.le_refl _) last reached arrived nothing
    generalize setting.explore timing minRange (maxRange - minRange)
      setting.start.registerTables = outcome at explored
    rcases outcome with ⟨after, exit | range⟩
    · exact explored.1 after exit rfl
    · rcases explored.2 after range rfl with ⟨safe, small, roomy⟩
      have four : n - 1 ≤ 4 * n := by omega
      have measuring : setting.Measuring after.registerBuffers (max 4 (2 ^ (range - 1))) :=
        { safe := safe
          registered := State.registered_registerBuffers
          small := small.registerBuffers
          roomy := roomy.registerBuffers
          gathers := fun p => four.trans
            ((Nat.mul_le_mul_right n (Nat.le_max_left 4 _)).trans (roomy.queue p)) }
      have less : ∀ nMsgs ∈ sizeHRels (range - 1), nMsgs ≤ max 4 (2 ^ (range - 1)) := by
        intro nMsgs mem
        simp only [sizeHRels, List.mem_cons, List.not_mem_nil, or_false] at mem
        omega
      have measured := measure_safe timing less measuring (j := 0)
      generalize measure_eq : setting.measure timing 0 (sizeHRels (range - 1))
        after.registerBuffers = outcome at measured
      rcases outcome with ⟨last, result⟩
      rcases measured with ⟨exit, rfl, stays⟩ | ⟨rfl, measuring⟩
      · dsimp only
        rw [measure_eq]
        exact stays
      · dsimp only
        rw [measure_eq]
        have put : (last.deregisterBuffers.post (n - 1) fun _ => []).Safe :=
          State.Safe.put measuring.safe (State.safe_putting_iff.mpr measuring.gathers)
        show Stays (report timing last)
        rw [report]
        split
        next => exact ⟨put, fun _ => ⟨rfl, rfl, rfl, rfl⟩⟩
        next => exact ⟨put, absurd rfl⟩
  next => exact ⟨fun superstep mem => absurd mem List.not_mem_nil, absurd rfl⟩

/-- No process misses a deadline, except for a soft one in an iteration of the exploring loop. -/
def quiet (stopAt : ℕ) : Timing n where
  prepared := true
  hardMissed := fun _ _ => false
  softMissed := fun moment _ =>
    match moment with
    | .exploring range => decide (range = stopAt)
    | .measuring _ _ => false
  syncs := fun _ _ => true
  finished := true

section Quiet

variable {stopAt left : ℕ}

theorem prepared_quiet : (quiet stopAt : Timing n).prepared = true := rfl

theorem allgather_quiet (moment : Moment) (allC : Fin n → ErrorCondition) (state : State n) :
    Probe.allgather (quiet stopAt) moment allC state =
      (state.post (n - 1) fun _ => [], summarize (List.ofFn allC) .proceed) := rfl

theorem putting_mem (state : State n) :
    state.putting ∈ (state.post (n - 1) fun _ => []).supersteps :=
  List.mem_append_right _ (List.mem_singleton_self _)

theorem sending_mem (state : State n) (nMsgs blockSize : ℕ) :
    state.sending nMsgs blockSize ∈ (state.send nMsgs blockSize).supersteps :=
  List.mem_append_right _ (List.mem_singleton_self _)

/-- The exploring loop only adds supersteps. -/
theorem explore_supersteps (setting : Setting n) (timing : Timing n) (range left : ℕ)
    (state : State n) :
    state.supersteps ⊆ (setting.explore timing range left state).1.supersteps := by
  induction left generalizing range state with
  | zero => exact List.Subset.refl _
  | succ left ih =>
      have gathered := (@continues_allgather _ timing (.exploring range)
        (setting.status timing range state) (setting.grow range state)).supersteps
      rw [explore]
      dsimp only
      split
      next => exact gathered
      next => exact gathered
      next =>
        split
        next =>
          split
          next => exact fun _ mem => ih _ _ (List.mem_append_left _ (gathered mem))
          next => exact fun _ mem => List.mem_append_left _ (gathered mem)
        next => exact gathered

/-- The conditions of the first iteration are exchanged with the queue that it has requested. -/
theorem putting_mem_explore (state : State n) : (setting.grow range state).putting ∈
    (setting.explore (quiet stopAt) range (left + 1) state).1.supersteps := by
  have posted := putting_mem (setting.grow range state)
  rw [explore]
  dsimp only
  rw [allgather_quiet]
  split
  next => exact posted
  next => exact posted
  next => exact explore_supersteps _ _ _ _ _ (List.mem_append_left _ posted)

theorem status_quiet {p : Fin n} (early : ¬(range > minRange ∧ range = stopAt)) :
    setting.status (quiet stopAt) range state p =
      (setting.answer range state p).condition := by
  have soft : ¬(range > minRange ∧
      (quiet stopAt : Timing n).softMissed (.exploring range) p = true) := by
    simpa [quiet] using early
  rw [Setting.status, if_neg (by simp [quiet]), if_neg soft]

/-- An iteration whose requests are granted. -/
theorem explore_granted (granted : setting.Granted range) (arrived : setting.Arrived range state)
    (early : ¬(range > minRange ∧ range = stopAt)) :
    setting.explore (quiet stopAt) range (left + 1) state =
      setting.explore (quiet stopAt) (range + 1) left
        (((setting.grow range state).post (n - 1) fun _ => []).registerBuffers.send (2 ^ range)
          setting.blockSize).deregisterBuffers := by
  have all : List.ofFn (setting.status (quiet stopAt) range state) =
      List.replicate n .proceed := by
    rw [List.ofFn_eq_map, List.eq_replicate_iff]
    refine ⟨by simp, ?_⟩
    intro condition mem
    rcases List.mem_map.mp mem with ⟨p, _, rfl⟩
    rw [status_quiet early, arrived.answer, granted p]
    rfl
  have agreed : summarize (List.replicate n .proceed) .proceed = .proceed := by
    rw [summarize_eq _ (by simp)]
    simp [List.mem_replicate]
  rw [explore]
  dsimp only
  rw [allgather_quiet, all, agreed]
  rfl

/-- An iteration in which the loop may stop. -/
theorem explore_stops (stops : setting.Stops range) (arrived : setting.Arrived range state)
    (late : range > minRange → range = stopAt) :
    setting.explore (quiet stopAt) range (left + 1) state =
      ((setting.grow range state).post (n - 1) fun _ => [], .ok range) := by
  have agreed : summarize (List.ofFn (setting.status (quiet stopAt) range state)) .proceed =
      .stop := by
    rw [summarize_eq _ (by simp)]
    by_cases isLate : range > minRange
    · have all : ∀ p, setting.status (quiet stopAt) range state p = .stop := by
        intro p
        have soft : (quiet stopAt : Timing n).softMissed (.exploring range) p = true := by
          simp [quiet, late isLate]
        rw [Setting.status, if_neg (by simp [quiet]), if_pos ⟨isLate, soft⟩]
      rw [if_neg, if_pos]
      · exact List.mem_ofFn.mpr ⟨⟨0, setting.nprocs_pos⟩, all _⟩
      · intro mem
        rcases List.mem_ofFn.mp mem with ⟨p, error⟩
        rw [all p] at error
        cases error
    · have early : ¬(range > minRange ∧ range = stopAt) := fun both => isLate both.1
      rcases stops.resolve_left isLate with ⟨⟨p, outOfMemory⟩, fine⟩
      rw [if_neg, if_pos]
      · refine List.mem_ofFn.mpr ⟨p, ?_⟩
        rw [status_quiet early, arrived.answer, outOfMemory]
        rfl
      · intro mem
        rcases List.mem_ofFn.mp mem with ⟨q, error⟩
        rw [status_quiet early, arrived.answer] at error
        cases answer : setting.answer range (setting.before range) q with
        | success => simp [answer, Answer.condition] at error
        | outOfMemory => simp [answer, Answer.condition] at error
        | failed => exact fine q answer
  rw [explore]
  dsimp only
  rw [allgather_quiet, agreed]

/-- The loop comes to every iteration before which all requests are granted. -/
theorem explore_reaches (least : minRange ≤ range) (most : range ≤ maxRange)
    (reached : setting.Reached range) (early : stopAt ≤ minRange ∨ range ≤ stopAt) :
    ∃ state, setting.Arrived range state ∧
      setting.explore (quiet stopAt) minRange (maxRange - minRange) setting.start.registerTables =
        setting.explore (quiet stopAt) range (maxRange - range) state := by
  induction range, least using Nat.le_induction with
  | base =>
      refine ⟨setting.start.registerTables, ?_, rfl⟩
      rw [Arrived, before, if_pos (Nat.le_refl _)]
  | succ range least ih =>
      have reachedBefore : setting.Reached range :=
        fun earlier from3 less => reached earlier from3 (by omega)
      rcases ih (by omega) reachedBefore (by omega) with ⟨state, arrived, explores⟩
      have granted := reached range least (Nat.lt_succ_self range)
      have left : maxRange - range = maxRange - (range + 1) + 1 := by omega
      rw [left, explore_granted granted arrived (by omega)] at explores
      exact ⟨_, granted.arrives least arrived _ _ (State.continues_post _ _), explores⟩

theorem samples_quiet (setting : Setting n) (j nMsgs i left : ℕ) (state : State n) :
    ∃ after, setting.samples (quiet stopAt) j nMsgs i left state = (after, .ok ()) ∧
      State.Continues state after ∧
      (0 < left → state.sending nMsgs setting.blockSize ∈ after.supersteps) := by
  induction left generalizing i state with
  | zero => exact ⟨state, rfl, .refl state, fun positive => absurd positive (by simp)⟩
  | succ left ih =>
      have all : List.ofFn (sampleStatus (quiet stopAt : Timing n) j i) =
          List.replicate n .proceed := by
        simp [List.ofFn_eq_map, List.eq_replicate_iff, sampleStatus, quiet]
      have agreed : summarize (List.replicate n .proceed) .proceed = .proceed := by
        rw [summarize_eq _ (by simp)]
        simp [List.mem_replicate]
      let gathered := (state.send nMsgs setting.blockSize).post (n - 1) fun _ => []
      rcases ih (i + 1) gathered with ⟨after, samples, continues, _⟩
      refine ⟨after, ?_, ?_, ?_⟩
      · rw [Setting.samples]
        dsimp only
        rw [allgather_quiet, all, agreed]
        exact samples
      · exact ((State.continues_post _ _).trans (State.continues_post _ _)).trans continues
      · intro _
        exact continues.supersteps (List.mem_append_left _ (sending_mem state nMsgs _))

theorem measure_quiet (setting : Setting n) (j : ℕ) (sizes : List ℕ) (state : State n) :
    ∃ after, setting.measure (quiet stopAt) j sizes state = (after, .ok ()) ∧
      State.Continues state after ∧
      ∀ nMsgs ∈ sizes, state.sending nMsgs setting.blockSize ∈ after.supersteps := by
  induction sizes generalizing j state with
  | nil => exact ⟨state, rfl, .refl state, by simp⟩
  | cons nMsgs sizes ih =>
      rcases @samples_quiet _ stopAt setting j nMsgs 0 preferredSamples state with
        ⟨middle, samples, first, sent⟩
      rcases ih (j + 1) middle with ⟨after, measures, second, rest⟩
      refine ⟨after, ?_, first.trans second, ?_⟩
      · rw [measure, samples]
        exact measures
      · intro size mem
        rcases List.mem_cons.mp mem with rfl | mem
        · exact second.supersteps (sent (by decide))
        · rw [← first.sending]
          exact rest size mem

/-- Everything that the exploring loop posts is posted. -/
theorem explore_posted {superstep : Superstep n} (mem : superstep ∈ (setting.explore (quiet stopAt)
    minRange (maxRange - minRange) setting.start.registerTables).1.supersteps) :
    superstep ∈ (setting.findMachineParams (quiet stopAt)).1.supersteps := by
  rw [findMachineParams, if_pos prepared_quiet]
  generalize setting.explore (quiet stopAt) minRange (maxRange - minRange)
    setting.start.registerTables = outcome at mem
  rcases outcome with ⟨state, exit | range⟩
  · exact mem
  · rcases @measure_quiet _ stopAt setting 0 (sizeHRels (range - 1)) state.registerBuffers with
      ⟨after, measures, continues, _⟩
    dsimp only
    rw [measures]
    exact List.mem_append_left _ (continues.supersteps mem)

/-- When the exploring loop has stopped, four messages at least are sent. -/
theorem measuring_posted (explores : setting.explore (quiet stopAt) minRange (maxRange - minRange)
    setting.start.registerTables = (state, .ok range)) :
    state.registerBuffers.sending (max 4 (2 ^ (range - 1))) setting.blockSize ∈
      (setting.findMachineParams (quiet stopAt)).1.supersteps := by
  rcases @measure_quiet _ stopAt setting 0 (sizeHRels (range - 1)) state.registerBuffers with
    ⟨after, measures, _, sent⟩
  rw [findMachineParams, if_pos prepared_quiet, explores]
  dsimp only
  rw [measures]
  exact List.mem_append_left _ (sent _ (by simp [sizeHRels]))

/-- The loop comes to an iteration and runs it. -/
theorem explore_begins (least : minRange ≤ range) (less : range < maxRange)
    (reached : setting.Reached range) (early : stopAt ≤ minRange ∨ range ≤ stopAt) :
    ∃ state left, setting.Arrived range state ∧
      setting.explore (quiet stopAt) minRange (maxRange - minRange) setting.start.registerTables =
        setting.explore (quiet stopAt) range (left + 1) state := by
  rcases explore_reaches least (by omega) reached early with ⟨state, arrived, explores⟩
  refine ⟨state, maxRange - range - 1, arrived, ?_⟩
  rw [explores, Nat.sub_add_cancel (by omega)]

/-- What is sent safely after the requests of an iteration has room there. -/
theorem Arrived.roomy_grown {nMsgs : ℕ} (arrived : setting.Arrived range state)
    (safe : (((setting.grow range state).post (n - 1) fun _ => []).registerBuffers.sending nMsgs
      setting.blockSize).Safe) : (setting.grown range).Roomy nMsgs setting.blockSize := by
  have posted : State.Continues (setting.grow range state)
      ((setting.grow range state).post (n - 1) fun _ => []) := State.continues_post _ _
  have roomy := (State.safe_registerBuffers_iff (posted.small arrived.small_grow)).mp safe
  exact arrived.roomy_grow_iff.mp ⟨roomy.queue, roomy.readBuffer, roomy.writeBuffer⟩

/-- A probe that is safe for all timings has enough room. -/
theorem room_of_stays (stays : ∀ timing, Stays (setting.findMachineParams timing)) :
    setting.Room where
  gathers range least less reached := by
    rcases @explore_begins _ _ range 0 least less reached (by simp) with
      ⟨state, left, arrived, explores⟩
    have posted := @putting_mem_explore _ setting range 0 left state
    rw [← explores] at posted
    rw [← arrived.queue_grow]
    exact State.safe_putting_iff.mp ((stays _).safe _ (explore_posted posted))
  sends range least less reached granted := by
    rcases @explore_begins _ _ range 0 least less reached (by simp) with
      ⟨state, left, arrived, explores⟩
    have early : ¬(range > minRange ∧ range = 0) := fun both => by omega
    rw [explore_granted granted arrived early] at explores
    have sent := explore_supersteps setting (quiet 0) (range + 1) left
      (((setting.grow range state).post (n - 1) fun _ => []).registerBuffers.send (2 ^ range)
        setting.blockSize).deregisterBuffers (sending_mem _ _ _)
    rw [← explores] at sent
    exact arrived.roomy_grown ((stays _).safe _ (explore_posted sent))
  stops range least less reached stops := by
    rcases explore_begins least less reached (Or.inr (Nat.le_refl range)) with
      ⟨state, left, arrived, explores⟩
    rw [explore_stops stops arrived fun _ => rfl] at explores
    exact arrived.roomy_grown ((stays _).safe _ (measuring_posted explores))
  ends reached := by
    have least : minRange ≤ maxRange := by decide
    rcases @explore_reaches _ _ maxRange 0 least (Nat.le_refl _) reached (by simp) with
      ⟨state, arrived, explores⟩
    rw [Nat.sub_self] at explores
    exact arrived.roomy_iff.mp ((State.safe_registerBuffers_iff arrived.small).mp
      ((stays _).safe _ (measuring_posted explores)))

end Quiet

end Setting

end Probe

end Talpf

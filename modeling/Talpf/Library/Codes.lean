import Talpf.Library.Relaxed
import Mathlib.Data.List.Count

/-!
# Programs of relaxed supersteps

The meaning of a program is a sequential one: all processes compute, then all
messages are delivered, superstep after superstep.  A plan tells from where each
place gets its message of a superstep.  Processes that follow a plan never notice
that others are ahead of them, and reach what their programs mean.
-/

namespace Relaxed

universe u v w

/-- What a process has left to do -/
inductive Code (Process : Type u) (Place : Type v) (Value : Type w) where
  | read (place : Place) (next : Value → Code Process Place Value)
  | write (place : Place) (value : Value) (next : Code Process Place Value)
  | send (peer : Process) (copies : List (Place × Place)) (next : Code Process Place Value)
  | sync (next : Code Process Place Value)
  | done

structure Message (Process : Type u) (Place : Type v) (Value : Type w) where
  peer : Process
  /-- Values with their targets -/
  values : List (Place × Value)

/-- What a process does in a superstep -/
structure Outcome (Process : Type u) (Place : Type v) (Value : Type w) where
  memory : Place → Value
  messages : List (Message Process Place Value)
  /-- What is left after the sync, unless the process has ended -/
  rest : Option (Code Process Place Value)

/-- A process at the start of a superstep -/
structure Position (Process : Type u) (Place : Type v) (Value : Type w) where
  memory : Place → Value
  code : Code Process Place Value

variable {Process : Type u} {Place : Type v} {Value : Type w}

/-- A message with the values that its places have -/
def valued (memory : Place → Value) (message : Process × List (Place × Place)) :
    Message Process Place Value :=
  ⟨message.1, carried memory message.2⟩

section Meaning

variable [DecidableEq Place]

/-- The superstep of a process, up to its sync -/
def Code.run : Code Process Place Value → (Place → Value) → Outcome Process Place Value
  | .read place next, memory => (next (memory place)).run memory
  | .write place value next, memory => next.run (Function.update memory place value)
  | .send peer copies next, memory =>
      let outcome := next.run memory
      { outcome with
        messages := valued memory (peer, copies) :: outcome.messages }
  | .sync next, memory => ⟨memory, [], some next⟩
  | .done, memory => ⟨memory, [], none⟩

def Position.outcome (position : Position Process Place Value) : Outcome Process Place Value :=
  position.code.run position.memory

/-- Values reach their targets. -/
def store (values : List (Place × Value)) (memory : Place → Value) : Place → Value :=
  values.foldl (fun memory value => Function.update memory value.1 value.2) memory

variable [DecidableEq Process] (processes : List Process)

/-- What a process is sent -/
def arrivals (outcomes : Process → Outcome Process Place Value) (process : Process) :
    List (Place × Value) :=
  processes.flatMap fun peer => (outcomes peer).messages.flatMap fun message =>
    if message.peer = process then message.values else []

/-- All processes compute, then all messages are delivered. -/
def advance (positions : Process → Position Process Place Value) (process : Process) :
    Position Process Place Value :=
  let outcomes peer := (positions peer).outcome
  ⟨store (arrivals processes outcomes process) (outcomes process).memory,
    (outcomes process).rest.getD .done⟩

def meaning (start : Process → Position Process Place Value) :
    ℕ → Process → Position Process Place Value
  | 0 => start
  | superstep + 1 => advance processes (meaning start superstep)

end Meaning

section Execution

variable [DecidableEq Process]

def Call.process : Call Process Place Value → Process
  | .read process _ _ | .write process _ _ | .send process _ _ | .enter process
  | .leave process => process

/-- A process makes the call that its program is at, or leaves its sync, and this is left. -/
def Takes (code : Code Process Place Value) :
    Call Process Place Value → Code Process Place Value → Prop
  | .read _ place value, left => ∃ next, code = .read place next ∧ left = next value
  | .write _ place value, left => code = .write place value left
  | .send _ peer copies, left => code = .send peer copies left
  | .enter _, left => code = .sync left
  | .leave _, left => left = code

/-- What is left of the programs when these calls are made -/
inductive Executes (start : Process → Code Process Place Value) :
    List (Call Process Place Value) → (Process → Code Process Place Value) → Prop where
  | nil : Executes start [] start
  | snoc {calls : List (Call Process Place Value)} {call : Call Process Place Value}
      {codes : Process → Code Process Place Value} {left : Code Process Place Value}
      (earlier : Executes start calls codes) (takes : Takes (codes call.process) call left) :
      Executes start (calls ++ [call]) (Function.update codes call.process left)

variable {start codes : Process → Code Process Place Value}
  {calls : List (Call Process Place Value)} {call : Call Process Place Value}

theorem executes_nil (executes : Executes start [] codes) : codes = start := by
  generalize isNil : ([] : List (Call Process Place Value)) = calls at executes
  cases executes with
  | nil => rfl
  | snoc => exact absurd isNil.symm (List.append_ne_nil_of_right_ne_nil _ (List.cons_ne_nil _ _))

theorem executes_snoc (executes : Executes start (calls ++ [call]) codes) :
    ∃ before left, Executes start calls before ∧ Takes (before call.process) call left ∧
      codes = Function.update before call.process left := by
  generalize isSnoc : calls ++ [call] = all at executes
  cases executes with
  | nil => exact absurd isSnoc (List.append_ne_nil_of_right_ne_nil _ (List.cons_ne_nil _ _))
  | snoc earlier takes =>
      rcases List.append_inj' isSnoc rfl with ⟨rfl, same⟩
      cases same
      exact ⟨_, _, earlier, takes, rfl⟩

/-- Programs that have come to their syncs enter them. -/
theorem Executes.enters {next : Process → Code Process Place Value} {processes : List Process}
    (distinct : processes.Nodup) (all : ∀ process, process ∈ processes)
    (executes : Executes start calls codes)
    (isSync : ∀ process, codes process = .sync (next process)) :
    Executes start (calls ++ processes.map .enter) next := by
  have some : ∀ left : List Process, left.Nodup → ∀ calls codes, Executes start calls codes →
      (∀ process ∈ left, codes process = .sync (next process)) →
      (∀ process ∉ left, codes process = next process) →
        Executes start (calls ++ left.map .enter) next := by
    intro left
    induction left with
    | nil =>
        intro _ calls codes executes _ entered
        rw [List.map_nil, List.append_nil, ← funext fun process => entered process List.not_mem_nil]
        exact executes
    | cons first rest ih =>
        intro distinct calls codes executes isSync entered
        rcases List.nodup_cons.mp distinct with ⟨fresh, restDistinct⟩
        have enters := @Executes.snoc _ _ _ _ _ _ (.enter first) _ _ executes
          (isSync first List.mem_cons_self)
        rw [List.map_cons, List.append_cons]
        apply ih restDistinct _ _ enters
        · intro process member
          have other : process ≠ first := by
            rintro rfl
            exact fresh member
          exact (Function.update_of_ne other ..).trans
            (isSync process (List.mem_cons_of_mem _ member))
        · intro process notLeft
          by_cases isFirst : process = first
          · subst isFirst
            exact Function.update_self ..
          · exact (Function.update_of_ne isFirst ..).trans
              (entered process (by simp [isFirst, notLeft]))
  exact some processes distinct calls codes executes (fun process _ => isSync process)
    fun process none => absurd (all process) none

theorem Executes.leaves (executes : Executes start calls codes) (processes : List Process) :
    Executes start (calls ++ processes.map .leave) codes := by
  induction processes generalizing calls with
  | nil =>
      rw [List.map_nil, List.append_nil]
      exact executes
  | cons first rest ih =>
      have leaves := @Executes.snoc _ _ _ _ _ _ (.leave first) _ _ executes rfl
      have same : Function.update codes first (codes first) = codes := Function.update_eq_self ..
      have isFirst : (Call.leave first : Call Process Place Value).process = first := rfl
      rw [isFirst, same] at leaves
      rw [List.map_cons, List.append_cons]
      exact ih leaves

end Execution

/-- Whatever the program reads, it sends only what it may send, and it ends after `syncs` syncs. -/
def Code.Ends (sendable : Process × List (Place × Place) → Prop) :
    (syncs : ℕ) → Code Process Place Value → Prop
  | syncs, .read _ next => ∀ value, (next value).Ends sendable syncs
  | syncs, .write _ _ next => next.Ends sendable syncs
  | syncs, .send peer copies next => sendable (peer, copies) ∧ next.Ends sendable syncs
  | 0, .sync _ => False
  | syncs + 1, .sync next => next.Ends sendable syncs
  | syncs, .done => syncs = 0

/-- The process and the place that each place gets its message of a superstep from -/
abbrev Plan (Process : Type u) (Place : Type v) := ℕ → Process → Place → Option (Process × Place)

/-- What is sent in a superstep reaches no place that the messages of this superstep are taken from,
and none that a message of the superstep before reaches or is taken from. -/
structure Plan.Buffered (plan : Plan Process Place) : Prop where
  apart : ∀ k process place peer source, plan k process place = some (peer, source) →
    plan k peer source = none
  later : ∀ k process place peer source, plan k process place = some (peer, source) →
    plan (k + 1) peer source = none
  alternates : ∀ k process place peer source, plan k process place = some (peer, source) →
    plan (k + 1) process place = none

section Plans

variable [DecidableEq Process]

/-- The messages of a process in its superstep, as places with their targets -/
abbrev Posted (Process : Type u) (Place : Type v) := List (Process × List (Place × Place))

def Posted.count (posted : Posted Process Place) (peer : Process) : ℕ :=
  posted.countP fun message => message.1 = peer

/-- A message is taken from the place. -/
def Posted.Source (posted : Posted Process Place) (place : Place) : Prop :=
  ∃ message ∈ posted, ∃ copy ∈ message.2, copy.1 = place

variable (plan : Plan Process Place) (pattern : Process → Process → ℕ) (process : Process)

/-- No message reaches the place as long as the process owes one to its sender. -/
def Clear (k : ℕ) (posted : Posted Process Place) (place : Place) : Prop :=
  plan k process place = none ∧ ∀ peer source, plan (k + 1) process place = some (peer, source) →
    posted.count peer < pattern process peer

/-- The program of a process follows the plan from within superstep `k` on. -/
def Code.Follows : ℕ → Posted Process Place → Code Process Place Value → Prop
  | k, posted, .read place next => Clear plan pattern process k posted place ∧
      ∀ value, (next value).Follows k posted
  | k, posted, .write place _ next => Clear plan pattern process k posted place ∧
      ¬posted.Source place ∧ next.Follows k posted
  | k, posted, .send peer copies next => posted.count peer < pattern process peer ∧
      (∀ copy ∈ copies, plan k peer copy.2 = some (process, copy.1)) ∧
        next.Follows k (posted ++ [(peer, copies)])
  | k, posted, .sync next => (∀ peer, posted.count peer = pattern process peer) ∧
      next.Follows (k + 1) []
  | _, _, .done => True

variable {plan : Plan Process Place} {pattern : Process → Process → ℕ} {process : Process}
  {k : ℕ} {posted : Posted Process Place} {code : Code Process Place Value}

theorem Posted.count_append (other peer : Process) (copies : List (Place × Place)) :
    Posted.count (posted ++ [(other, copies)]) peer =
      posted.count peer + if other = peer then 1 else 0 := by
  simp [Posted.count, List.countP_append, List.countP_singleton]

theorem countP_valued (memory : Place → Value) (peer : Process) :
    (posted.map (valued memory)).countP (fun message => message.peer = peer) =
      posted.count peer := by
  rw [List.countP_map]
  rfl

end Plans

theorem mem_arrivals [DecidableEq Process] {processes : List Process} {process : Process}
    {outcomes : Process → Outcome Process Place Value} {place : Place}
    {value : Value} : (place, value) ∈ arrivals processes outcomes process ↔
      ∃ peer ∈ processes, ∃ message ∈ (outcomes peer).messages,
        message.peer = process ∧ (place, value) ∈ message.values := by
  simp only [arrivals, List.mem_flatMap]
  apply exists_congr
  intro peer
  apply and_congr_right
  intro _
  apply exists_congr
  intro message
  apply and_congr_right
  intro _
  split
  next same => simp [same]
  next other => simp [other]

theorem store_cases [DecidableEq Place] (values : List (Place × Value))
    (memory : Place → Value) (place : Place) : (place, store values memory place) ∈ values ∨
      ((∀ value, (place, value) ∉ values) ∧ store values memory place = memory place) := by
  induction values generalizing memory with
  | nil => exact Or.inr ⟨fun _ => List.not_mem_nil, rfl⟩
  | cons first rest ih =>
      rcases ih (Function.update memory first.1 first.2) with among | ⟨none, same⟩
      · exact Or.inl (List.mem_cons_of_mem _ among)
      · rw [store, List.foldl_cons, ← store, same, Function.update_apply]
        split
        next here => exact Or.inl (here ▸ List.mem_cons_self)
        next elsewhere =>
          refine Or.inr ⟨fun value among => ?_, rfl⟩
          rcases List.mem_cons.mp among with rfl | later
          · exact elsewhere rfl
          · exact none value later

section Supersteps

variable [DecidableEq Process] [DecidableEq Place]
  {plan : Plan Process Place} {pattern : Process → Process → ℕ} {process : Process}
  {k : ℕ} {posted : Posted Process Place} {code : Code Process Place Value}

namespace Code.Follows

/-- Nobody writes to a place that a message was taken from. -/
theorem memory_source (follows : code.Follows plan pattern process k posted)
    (memory : Place → Value) {place : Place} (source : posted.Source place) :
    (code.run memory).memory place = memory place := by
  induction code generalizing memory posted with
  | read _ next ih => exact ih _ (follows.2 _) memory source
  | write other value next ih =>
      rcases follows with ⟨_, noSource, follows⟩
      have apart : place ≠ other := by
        rintro rfl
        exact noSource source
      exact (ih follows _ source).trans (Function.update_of_ne apart ..)
  | send peer copies next ih =>
      rcases source with ⟨message, member, isSource⟩
      exact ih follows.2.2 memory ⟨message, List.mem_append_left _ member, isSource⟩
  | sync => rfl
  | done => rfl

/-- What was posted has the values that its places have at the end of the superstep. -/
theorem valued_posted (follows : code.Follows plan pattern process k posted)
    (memory : Place → Value) {message : Process × List (Place × Place)}
    (member : message ∈ posted) :
    valued (code.run memory).memory message = valued memory message := by
  rw [valued, valued, carried, carried]
  congr 1
  apply List.map_congr_left
  intro copy among
  rw [follows.memory_source memory ⟨message, member, copy, among, rfl⟩]

/-- Messages are taken from where the plan says, at the end of the superstep. -/
theorem messages (follows : code.Follows plan pattern process k posted)
    (memory : Place → Value) {message : Message Process Place Value}
    (member : message ∈ (code.run memory).messages) {place : Place} {value : Value}
    (among : (place, value) ∈ message.values) :
    ∃ source, plan k message.peer place = some (process, source) ∧
      value = (code.run memory).memory source := by
  induction code generalizing memory posted with
  | read _ next ih => exact ih _ (follows.2 _) memory member
  | write other itsValue next ih => exact ih follows.2.2 _ member
  | send peer copies next ih =>
      rcases follows with ⟨_, planned, follows⟩
      rcases List.mem_cons.mp member with rfl | later
      · have final := follows.valued_posted memory
          (List.mem_append_right posted (List.mem_singleton_self (peer, copies)))
        rcases List.mem_map.mp among with ⟨copy, isCopy, same⟩
        cases same
        refine ⟨copy.1, planned copy isCopy, ?_⟩
        exact (follows.memory_source memory ⟨_, List.mem_append_right _
          (List.mem_singleton_self _), copy, isCopy, rfl⟩).symm
      · exact ih follows memory later
  | sync => exact absurd member List.not_mem_nil
  | done => exact absurd member List.not_mem_nil

/-- No process sends more messages than the pattern has. -/
theorem count_le (follows : code.Follows plan pattern process k posted)
    (memory : Place → Value) (within : ∀ peer, posted.count peer ≤ pattern process peer)
    (peer : Process) : posted.count peer +
      (code.run memory).messages.countP (fun message => message.peer = peer) ≤
        pattern process peer := by
  induction code generalizing memory posted with
  | read _ next ih => exact ih _ (follows.2 _) memory within
  | write other value next ih => exact ih follows.2.2 _ within
  | send other copies next ih =>
      rcases follows with ⟨fewer, _, follows⟩
      have further := ih follows memory fun peer => by
        rw [Posted.count_append]
        split
        next same => exact same ▸ fewer
        next => exact within peer
      rw [Posted.count_append] at further
      simp only [Code.run, List.countP_cons, valued, decide_eq_true_eq]
      omega
  | sync => exact within peer
  | done => exact within peer

/-- After the sync the program follows the plan of the next superstep. -/
theorem rest (follows : code.Follows plan pattern process k posted) (memory : Place → Value)
    {next : Code Process Place Value} (isRest : (code.run memory).rest = some next) :
    next.Follows plan pattern process (k + 1) [] := by
  induction code generalizing memory posted with
  | read _ _ ih => exact ih _ (follows.2 _) memory isRest
  | write _ _ _ ih => exact ih follows.2.2 _ isRest
  | send _ _ _ ih => exact ih follows.2.2 memory isRest
  | sync =>
      cases isRest
      exact follows.2
  | done => cases isRest

end Code.Follows

theorem Code.run_getD_follows (follows : code.Follows plan pattern process k posted)
    (memory : Place → Value) :
    ((code.run memory).rest.getD .done).Follows plan pattern process (k + 1) [] := by
  cases isRest : (code.run memory).rest with
  | none => exact trivial
  | some next => exact follows.rest memory isRest

variable {processes : List Process} {start : Process → Position Process Place Value}

/-- Programs that follow the plan in the first superstep follow it in all of them. -/
theorem meaning_follows
    (follows : ∀ process, (start process).code.Follows plan pattern process 0 [])
    (k : ℕ) (process : Process) :
    (meaning processes start k process).code.Follows plan pattern process k [] := by
  induction k with
  | zero => exact follows process
  | succ k ih => exact Code.run_getD_follows ih _

/-- A place gets one value. -/
theorem arrivals_single {positions : Process → Position Process Place Value}
    (follows : ∀ peer, (positions peer).code.Follows plan pattern peer k []) {place : Place}
    {value other : Value}
    (first : (place, value) ∈ arrivals processes (fun peer => (positions peer).outcome) process)
    (second : (place, other) ∈ arrivals processes (fun peer => (positions peer).outcome) process) :
    value = other := by
  rcases mem_arrivals.mp first with ⟨peer, _, message, sends, toHere, among⟩
  rcases mem_arrivals.mp second with ⟨itsPeer, _, itsMessage, alsoSends, alsoHere, alsoAmong⟩
  rcases (follows peer).messages _ sends among with ⟨source, planned, rfl⟩
  rcases (follows itsPeer).messages _ alsoSends alsoAmong with ⟨itsSource, alsoPlanned, rfl⟩
  rw [toHere] at planned
  rw [alsoHere, planned] at alsoPlanned
  cases alsoPlanned
  rfl

/-- If every place gets one value, there is one outcome. -/
theorem Delivered.eq_store {sent : Set (Place × Value)} {values : List (Place × Value)}
    {before after : Place → Value} (delivered : Delivered sent before after)
    (same : ∀ value, value ∈ sent ↔ value ∈ values)
    (single : ∀ place value other, (place, value) ∈ values → (place, other) ∈ values →
      value = other) : after = store values before := by
  funext place
  rcases delivered place with arrived | ⟨none, kept⟩
  · rcases store_cases values before place with stored | ⟨nothing, _⟩
    · exact single place _ _ ((same _).mp arrived) stored
    · exact absurd ((same _).mp arrived) (nothing _)
  · rcases store_cases values before place with stored | ⟨_, unchanged⟩
    · exact absurd ((same _).mpr stored) (none _)
    · rw [kept, unchanged]

end Supersteps

/-- What a process has sent in superstep `k`, if these are its outcomes -/
def sentMessages (outcome : Outcome Process Place Value) (superstep : ℕ)
    (posted : Posted Process Place) (k : ℕ) : List (Message Process Place Value) :=
  if k < superstep then outcome.messages
  else if k = superstep then posted.map (valued outcome.memory)
  else []

theorem mem_sentMessages_snoc {outcome : Outcome Process Place Value} {superstep k : ℕ}
    {posted : Posted Process Place} {copied : Process × List (Place × Place)}
    {message : Message Process Place Value} :
    message ∈ sentMessages outcome superstep (posted ++ [copied]) k ↔
      message ∈ sentMessages outcome superstep posted k ∨
        (k = superstep ∧ message = valued outcome.memory copied) := by
  rw [sentMessages, sentMessages]
  split
  next earlier =>
    exact (or_iff_left fun both => Nat.ne_of_lt earlier both.1).symm
  next =>
    split
    next now => simp [now]
    next other => simp [other]

/-- Nothing changes for what is sent when the superstep ends with all its messages. -/
theorem sentMessages_next {outcome : Outcome Process Place Value} {superstep k : ℕ}
    {posted : Posted Process Place}
    (full : k = superstep → outcome.messages = posted.map (valued outcome.memory)) :
    sentMessages outcome (superstep + 1) [] k = sentMessages outcome superstep posted k := by
  rw [sentMessages, sentMessages, List.map_nil, ite_self]
  rcases Nat.lt_trichotomy k superstep with before | now | later
  · rw [if_pos before, if_pos (Nat.lt_succ_of_lt before)]
  · rw [if_pos (now ▸ Nat.lt_succ_self k), if_neg (now ▸ Nat.lt_irrefl k), if_pos now]
    exact full now
  · rw [if_neg (Nat.not_lt.mpr later), if_neg (Nat.lt_asymm later),
      if_neg (Nat.ne_of_gt later)]

section Runs

variable [DecidableEq Process] [DecidableEq Place]

/-- What the processes have posted in their supersteps, after a call -/
def Call.posts : Call Process Place Value → (Process → Posted Process Place) →
    Process → Posted Process Place
  | .send process peer copies, posted =>
      Function.update posted process (posted process ++ [(peer, copies)])
  | .leave process, posted => Function.update posted process []
  | .read _ _ _, posted | .write _ _ _, posted | .enter _, posted => posted

section Progress

variable (plan : Plan Process Place) (pattern : Process → Process → ℕ) (process : Process) (k : ℕ)
  (outcome : Outcome Process Place Value) (now : Place → Value)
  (code : Code Process Place Value) (posted : Posted Process Place)

/-- A process within superstep `k`, on its way to the outcome -/
structure Computes : Prop where
  follows : code.Follows plan pattern process k posted
  memory : (code.run now).memory = outcome.memory
  messages : outcome.messages = posted.map (valued outcome.memory) ++ (code.run now).messages
  rest : (code.run now).rest = outcome.rest

/-- A process in the sync that ends the superstep -/
structure Waits : Prop where
  memory : now = outcome.memory
  messages : outcome.messages = posted.map (valued outcome.memory)
  rest : outcome.rest = some code

end Progress

namespace Computes

variable {plan : Plan Process Place} {pattern : Process → Process → ℕ} {process : Process} {k : ℕ}
  {outcome : Outcome Process Place Value} {memory : Place → Value}
  {code : Code Process Place Value} {posted : Posted Process Place}

theorem start (follows : code.Follows plan pattern process k []) :
    Computes plan pattern process k (code.run memory) memory code [] :=
  ⟨follows, rfl, rfl, rfl⟩

theorem read {place : Place} {next : Value → Code Process Place Value}
    (computes : Computes plan pattern process k outcome memory (.read place next) posted) :
    Computes plan pattern process k outcome memory (next (memory place)) posted :=
  ⟨computes.follows.2 _, computes.memory, computes.messages, computes.rest⟩

theorem write {place : Place} {value : Value} {next : Code Process Place Value}
    (computes : Computes plan pattern process k outcome memory (.write place value next) posted) :
    Computes plan pattern process k outcome (Function.update memory place value) next posted :=
  ⟨computes.follows.2.2, computes.memory, computes.messages, computes.rest⟩

/-- A message has the values that its places have at the end of the superstep. -/
theorem valued_send {peer : Process} {copies : List (Place × Place)}
    {next : Code Process Place Value}
    (computes : Computes plan pattern process k outcome memory (.send peer copies next) posted) :
    valued outcome.memory (peer, copies) = valued memory (peer, copies) := by
  rw [← computes.memory]
  exact computes.follows.2.2.valued_posted _
    (List.mem_append_right _ (List.mem_singleton_self _))

theorem send {peer : Process} {copies : List (Place × Place)} {next : Code Process Place Value}
    (computes : Computes plan pattern process k outcome memory (.send peer copies next) posted) :
    Computes plan pattern process k outcome memory next (posted ++ [(peer, copies)]) where
  follows := computes.follows.2.2
  memory := computes.memory
  messages := by
    rw [List.map_append, List.append_assoc, List.map_singleton, computes.valued_send]
    exact computes.messages
  rest := computes.rest

theorem enter {next : Code Process Place Value}
    (computes : Computes plan pattern process k outcome memory (.sync next) posted) :
    Waits outcome memory next posted :=
  ⟨computes.memory, computes.messages.trans (List.append_nil _), computes.rest.symm⟩

end Computes

section Tracking

variable (plan : Plan Process Place) (pattern : Process → Process → ℕ)
  (outcome : ℕ → Process → Outcome Process Place Value)

/-- The processes are where their programs say. -/
structure Tracks (state : State Process Place Value) (codes : Process → Code Process Place Value)
    (posted : Process → Posted Process Place) : Prop where
  sent : ∀ k process place value, (place, value) ∈ state.sent k process ↔
    ∃ peer, ∃ message ∈ sentMessages (outcome k peer) (state.superstep peer) (posted peer) k,
      message.peer = process ∧ (place, value) ∈ message.values
  counted : ∀ process peer, state.messages process peer = (posted process).count peer
  computes : ∀ process, state.computing process →
    Computes plan pattern process (state.superstep process)
      (outcome (state.superstep process) process) (state.memory process) (codes process)
      (posted process)
  waits : ∀ process, ¬state.computing process →
    Waits (outcome (state.superstep process) process) (state.memory process) (codes process)
      (posted process)

end Tracking

variable {plan : Plan Process Place} {pattern : Process → Process → ℕ}
  {outcome : ℕ → Process → Outcome Process Place Value}
  {before after : State Process Place Value} {codes : Process → Code Process Place Value}
  {posted : Process → Posted Process Place} {process : Process}
  {code left : Code Process Place Value} {call : Call Process Place Value}

namespace Tracks

/-- What is sent in a superstep are the first messages of that superstep. -/
theorem messages (tracks : Tracks plan pattern outcome before codes posted) (k : ℕ)
    (peer : Process) : ∃ todo, (outcome k peer).messages =
      sentMessages (outcome k peer) (before.superstep peer) (posted peer) k ++ todo := by
  rw [sentMessages]
  split
  next => exact ⟨[], (List.append_nil _).symm⟩
  next =>
    split
    next now =>
      subst now
      by_cases computing : before.computing peer
      · exact ⟨_, (tracks.computes peer computing).messages⟩
      · exact ⟨[], (tracks.waits peer computing).messages.trans (List.append_nil _).symm⟩
    next => exact ⟨_, rfl⟩

/-- A process that has all messages of its superstep has those that the programs mean. -/
theorem sent_iff (tracks : Tracks plan pattern outcome before codes posted)
    (bounded : ∀ k peer, (outcome k peer).messages.countP
      (fun message => message.peer = process) ≤ pattern peer process)
    (complete : before.Complete pattern process) (place : Place) (value : Value) :
    (place, value) ∈ before.sent (before.superstep process) process ↔
      ∃ peer, ∃ message ∈ (outcome (before.superstep process) peer).messages,
        message.peer = process ∧ (place, value) ∈ message.values := by
  rw [tracks.sent]
  apply exists_congr
  intro peer
  rcases tracks.messages (before.superstep process) peer with ⟨todo, split⟩
  constructor
  · rintro ⟨message, member, addressed⟩
    exact ⟨message, split ▸ List.mem_append_left todo member, addressed⟩
  · rintro ⟨message, member, toHere, among⟩
    rw [split] at member
    rcases List.mem_append.mp member with sent | left
    · exact ⟨message, sent, toHere, among⟩
    · have some : 0 < todo.countP (fun message => message.peer = process) :=
        List.countP_pos_iff.mpr ⟨message, left, decide_eq_true toHere⟩
      have within := bounded (before.superstep process) peer
      rw [split, List.countP_append] at within
      rcases complete peer (by omega) with later | ⟨now, all⟩
      · rw [sentMessages, if_pos later] at split
        rw [List.self_eq_append_right.mp split] at left
        exact absurd left List.not_mem_nil
      · rw [sentMessages, if_neg (now ▸ Nat.lt_irrefl _), if_pos now.symm, countP_valued,
          ← tracks.counted, all] at within
        omega

/-- Only the process that makes a call moves. -/
theorem moved (tracks : Tracks plan pattern outcome before codes posted)
    {itsPosted : Process → Posted Process Place}
    (superstep : ∀ other, other ≠ process → after.superstep other = before.superstep other)
    (memory : ∀ other, other ≠ process → after.memory other = before.memory other)
    (computing : ∀ other, other ≠ process → (after.computing other ↔ before.computing other))
    (others : ∀ other, other ≠ process → itsPosted other = posted other)
    (sent : ∀ k process place value, (place, value) ∈ after.sent k process ↔
      ∃ peer, ∃ message ∈ sentMessages (outcome k peer) (after.superstep peer) (itsPosted peer) k,
        message.peer = process ∧ (place, value) ∈ message.values)
    (counted : ∀ process peer, after.messages process peer = (itsPosted process).count peer)
    (computes : after.computing process →
      Computes plan pattern process (after.superstep process)
        (outcome (after.superstep process) process) (after.memory process) left
        (itsPosted process))
    (waits : ¬after.computing process →
      Waits (outcome (after.superstep process) process) (after.memory process) left
        (itsPosted process)) :
    Tracks plan pattern outcome after (Function.update codes process left) itsPosted where
  sent := sent
  counted := counted
  computes := by
    intro other isComputing
    by_cases own : other = process
    · subst own
      rw [Function.update_self]
      exact computes isComputing
    · rw [superstep other own, memory other own, others other own, Function.update_of_ne own]
      exact tracks.computes other ((computing other own).mp isComputing)
  waits := by
    intro other isWaiting
    by_cases own : other = process
    · subst own
      rw [Function.update_self]
      exact waits isWaiting
    · rw [superstep other own, memory other own, others other own, Function.update_of_ne own]
      exact tracks.waits other fun isComputing =>
        isWaiting ((computing other own).mpr isComputing)

theorem read (tracks : Tracks plan pattern outcome before codes posted) {place : Place}
    {next : Value → Code Process Place Value} (isNext : codes process = .read place next)
    (computing : before.computing process) :
    Tracks plan pattern outcome before
      (Function.update codes process (next (before.memory process place))) posted := by
  have computes := tracks.computes process computing
  rw [isNext] at computes
  refine tracks.moved (fun _ _ => rfl) (fun _ _ => rfl) (fun _ _ => Iff.rfl) (fun _ _ => rfl)
    tracks.sent tracks.counted ?_ ?_
  · intro _
    exact computes.read
  · intro waiting
    exact absurd computing waiting

theorem write (tracks : Tracks plan pattern outcome before codes posted) {place : Place}
    {value : Value} {next : Code Process Place Value}
    (isNext : codes process = .write place value next) (computing : before.computing process) :
    Tracks plan pattern outcome
      { before with
        memory := Function.update before.memory process
          (Function.update (before.memory process) place value) }
      (Function.update codes process next) posted := by
  have computes := tracks.computes process computing
  rw [isNext] at computes
  refine tracks.moved (fun _ _ => rfl) (fun _ own => Function.update_of_ne own ..)
    (fun _ _ => Iff.rfl) (fun _ _ => rfl) tracks.sent tracks.counted ?_ ?_
  · intro _
    show Computes plan pattern process _ _ (Function.update before.memory process _ process) next _
    rw [Function.update_self]
    exact computes.write
  · intro waiting
    exact absurd computing waiting

theorem send (tracks : Tracks plan pattern outcome before codes posted) {peer : Process}
    {copies : List (Place × Place)} {next : Code Process Place Value}
    (isNext : codes process = .send peer copies next) (computing : before.computing process) :
    Tracks plan pattern outcome
      (before.send process peer (carried (before.memory process) copies))
      (Function.update codes process next)
      (Function.update posted process (posted process ++ [(peer, copies)])) := by
  have computes := tracks.computes process computing
  rw [isNext] at computes
  have final := computes.valued_send
  refine tracks.moved (fun _ _ => rfl) (fun _ _ => rfl) (fun _ _ => Iff.rfl)
    (fun _ own => Function.update_of_ne own ..) ?_ ?_ ?_ ?_
  · intro k other place value
    rw [State.mem_sent_send, tracks.sent]
    constructor
    · rintro (⟨third, message, member, addressed⟩ | ⟨rfl, rfl, among⟩)
      · refine ⟨third, message, ?_, addressed⟩
        rw [Function.update_apply]
        split
        next own => exact mem_sentMessages_snoc.mpr (Or.inl (own ▸ member))
        next => exact member
      · refine ⟨process, valued (outcome (before.superstep process) process).memory
          (other, copies), ?_, rfl, final ▸ among⟩
        rw [Function.update_self]
        exact mem_sentMessages_snoc.mpr (Or.inr ⟨rfl, rfl⟩)
    · rintro ⟨third, message, member, addressed, among⟩
      rw [Function.update_apply] at member
      split at member
      next own =>
        subst own
        rcases mem_sentMessages_snoc.mp member with old | ⟨now, rfl⟩
        · exact Or.inl ⟨third, message, old, addressed, among⟩
        · refine Or.inr ⟨now, addressed.symm, ?_⟩
          have isNow : k = before.superstep third := now
          rw [isNow, final] at among
          exact among
      next => exact Or.inl ⟨third, message, member, addressed, among⟩
  · intro other third
    rw [State.messages_send, tracks.counted]
    by_cases own : other = process
    · rw [own, Function.update_self, Posted.count_append]
      simp [eq_comm]
    · rw [Function.update_of_ne own, if_neg fun both => own both.1, Nat.add_zero]
  · intro _
    rw [Function.update_self]
    exact computes.send
  · intro waiting
    exact absurd computing waiting

theorem enter (tracks : Tracks plan pattern outcome before codes posted)
    {next : Code Process Place Value} (isNext : codes process = .sync next)
    (computing : before.computing process) :
    Tracks plan pattern outcome
      { before with computing := Function.update before.computing process False }
      (Function.update codes process next) posted := by
  have computes := tracks.computes process computing
  rw [isNext] at computes
  refine tracks.moved (fun _ _ => rfl) (fun _ _ => rfl) (fun other own => ?_) (fun _ _ => rfl)
    tracks.sent tracks.counted ?_ ?_
  · show Function.update before.computing process False other ↔ _
    rw [Function.update_of_ne own]
  · intro isComputing
    have noLonger : Function.update before.computing process False process := isComputing
    rw [Function.update_self] at noLonger
    exact noLonger.elim
  · intro _
    exact computes.enter

/-- The next superstep begins with what the programs mean. -/
theorem leave (tracks : Tracks plan pattern outcome before codes posted)
    (waiting : ¬before.computing process) {memory : Place → Value}
    (follows : (codes process).Follows plan pattern process (before.superstep process + 1) [])
    (isNext : (codes process).run memory = outcome (before.superstep process + 1) process) :
    Tracks plan pattern outcome (before.next process memory)
      (Function.update codes process (codes process)) (Function.update posted process []) := by
  have waits := tracks.waits process waiting
  refine tracks.moved (fun _ own => Function.update_of_ne own ..)
    (fun _ own => Function.update_of_ne own ..) (fun other own => ?_)
    (fun _ own => Function.update_of_ne own ..) ?_ ?_ ?_ ?_
  · show Function.update before.computing process True other ↔ _
    rw [Function.update_of_ne own]
  · intro k other place value
    show (place, value) ∈ before.sent k other ↔ _
    rw [tracks.sent]
    apply exists_congr
    intro peer
    have same : sentMessages (outcome k peer) ((before.next process memory).superstep peer)
        (Function.update posted process [] peer) k =
        sentMessages (outcome k peer) (before.superstep peer) (posted peer) k := by
      show sentMessages _ (Function.update before.superstep process _ peer) _ k = _
      by_cases own : peer = process
      · subst own
        rw [Function.update_self, Function.update_self]
        apply sentMessages_next
        rintro rfl
        exact waits.messages
      · rw [Function.update_of_ne own, Function.update_of_ne own]
    rw [same]
  · intro other peer
    show Function.update before.messages process (fun _ => 0) other peer = _
    by_cases own : other = process
    · rw [own, Function.update_self, Function.update_self]
      rfl
    · rw [Function.update_of_ne own, Function.update_of_ne own]
      exact tracks.counted other peer
  · intro _
    have superstep : (before.next process memory).superstep process =
        before.superstep process + 1 := Function.update_self ..
    have itsMemory : (before.next process memory).memory process = memory :=
      Function.update_self ..
    rw [Function.update_self, superstep, itsMemory, ← isNext]
    exact .start follows
  · intro still
    have computing : Function.update before.computing process True process := by
      rw [Function.update_self]
      exact trivial
    exact absurd computing still

end Tracks

variable {processes : List Process} {start : Process → Position Process Place Value}

/-- What a process does in each superstep -/
def meant (processes : List Process) (start : Process → Position Process Place Value) (k : ℕ)
    (process : Process) : Outcome Process Place Value :=
  (meaning processes start k process).outcome

/-- A process that leaves its sync has the memory that the programs mean. -/
theorem Tracks.run_leave (tracks : Tracks plan pattern (meant processes start) before codes posted)
    (all : ∀ process, process ∈ processes)
    (follows : ∀ process, (start process).code.Follows plan pattern process 0 [])
    (waiting : ¬before.computing process) (complete : before.Complete pattern process)
    {memory : Place → Value}
    (delivered : Delivered (before.sent (before.superstep process) process)
      (before.memory process) memory) :
    (codes process).run memory = meant processes start (before.superstep process + 1) process := by
  have waits := tracks.waits process waiting
  let k := before.superstep process
  let arrived := arrivals processes (meant processes start k) process
  have bounded : ∀ k peer, (meant processes start k peer).messages.countP
      (fun message => message.peer = process) ≤ pattern peer process := by
    intro k peer
    have itsFollows := @meaning_follows _ _ _ _ _ _ _ processes _ follows k peer
    have within := itsFollows.count_le (meaning processes start k peer).memory
      (fun _ => Nat.zero_le _) process
    exact Nat.le_trans (Nat.le_add_left _ _) within
  have same : ∀ value, value ∈ before.sent k process ↔ value ∈ arrived := by
    rintro ⟨place, value⟩
    rw [tracks.sent_iff bounded complete, mem_arrivals]
    apply exists_congr
    intro peer
    exact (and_iff_right (all peer)).symm
  have stored := delivered.eq_store same fun place value other =>
    arrivals_single (meaning_follows follows k)
  rw [stored, waits.memory]
  have code : codes process = (meant processes start k process).rest.getD .done := by
    rw [waits.rest]
    rfl
  rw [code]
  rfl

/-- Every call leads to where the programs say. -/
theorem Tracks.step (tracks : Tracks plan pattern (meant processes start) before codes posted)
    (all : ∀ process, process ∈ processes)
    (follows : ∀ process, (start process).code.Follows plan pattern process 0 [])
    (taken : Step pattern before call after) (takes : Takes (codes call.process) call left) :
    Tracks plan pattern (meant processes start) after
      (Function.update codes call.process left) (call.posts posted) := by
  cases call with
  | read process place value =>
      rcases taken with ⟨computing, rfl, rfl⟩
      rcases takes with ⟨next, isNext, rfl⟩
      exact tracks.read isNext computing
  | write process place value =>
      rcases taken with ⟨computing, rfl⟩
      exact tracks.write takes computing
  | send process peer copies =>
      rcases taken with ⟨computing, _, rfl⟩
      exact tracks.send takes computing
  | enter process =>
      rcases taken with ⟨computing, _, rfl⟩
      exact tracks.enter takes computing
  | leave process =>
      rcases taken with ⟨waiting, complete, memory, delivered, rfl⟩
      rw [show left = codes process from takes]
      have waits := tracks.waits process waiting
      have itsNext := (meaning_follows follows (before.superstep process) process).rest _ waits.rest
      exact tracks.leave waiting itsNext (tracks.run_leave all follows waiting complete delivered)

theorem tracks_start (follows : ∀ process, (start process).code.Follows plan pattern process 0 []) :
    Tracks plan pattern (meant processes start)
      (machine pattern fun process => (start process).memory).start
      (fun process => (start process).code) fun _ => [] where
  sent := by
    intro k process place value
    constructor
    · intro member
      exact absurd member (Set.notMem_empty _)
    · rintro ⟨peer, message, member, _⟩
      simp [sentMessages, machine] at member
  counted _ _ := rfl
  computes process _ := ⟨follows process, rfl, rfl, rfl⟩
  waits _ still := absurd trivial still

/-- What the processes have posted in their supersteps -/
def postedBy (calls : List (Call Process Place Value)) : Process → Posted Process Place :=
  calls.foldl (fun posted call => call.posts posted) fun _ => []

/-- Programs that follow a plan do what they mean, however far others are ahead. -/
theorem tracks_run (all : ∀ process, process ∈ processes)
    (follows : ∀ process, (start process).code.Follows plan pattern process 0 [])
    {calls : List (Call Process Place Value)}
    (run : (machine pattern fun process => (start process).memory).Runs calls after)
    (executes : Executes (fun process => (start process).code) calls codes) :
    Tracks plan pattern (meant processes start) after codes (postedBy calls) := by
  induction run generalizing codes with
  | refl =>
      rw [executes_nil executes]
      exact tracks_start follows
  | tail earlier _ taken ih =>
      rcases executes_snoc executes with ⟨codes, left, before, takes, rfl⟩
      rw [postedBy, List.foldl_append]
      exact (ih before).step all follows taken takes

end Runs

end Relaxed

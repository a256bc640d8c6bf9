import Talpf.IBVerbs.Overlap
import Talpf.Library.Codes

/-!
# Programs with cached syncs

A program that follows a plan keeps away from memory that is being copied, also by
processes that are ahead of it: a neighbour that is ahead has got all messages of
the superstep, so that whoever owes it one is not reached by it yet.  On whatever
devices and in whatever order the bytes are moved, the processes do what their
programs mean one superstep after the other.
-/

namespace Talpf

open Copying Relaxed

variable {n : ℕ}

namespace IBVerbs

namespace Fabric

section Coded

variable (maxMsgSize : ℕ) (tables : Fin n → CombinedMemoryRegister (MemorySlot n))

/-- Processes access their memory, put and begin cached syncs outside of their syncs. -/
def Coded (fabric : Fabric n) : Action n → Prop
  | .read pid _ _ | .write pid _ _ => (fabric.world.parties pid).Computing
  | .post pid _ op => (fabric.world.parties pid).Computing ∧ op.kind = .put
  | .enter pid _ attr => (fabric.world.parties pid).verbs.syncRequest.isActive = false ∧
      attr = .cached
  | .leave _ _ | .other _ | .fetch _ | .store _ => True

def coded (devices : Fin n → Device n) (memory : Address n → UInt8) :
    Transition.System (Fabric n) (Action n) (Relaxed.Call (Fin n) ℕ UInt8) :=
  under maxMsgSize tables Coded (calls tables) devices memory

end Coded

/-- The programs of the processes with their memory at the start -/
def positions (codes : Fin n → Code (Fin n) ℕ UInt8) (memory : Address n → UInt8) (p : Fin n) :
    Position (Fin n) ℕ UInt8 :=
  ⟨fun place => memory (p, place), codes p⟩

variable {maxMsgSize : ℕ} {tables : Fin n → CombinedMemoryRegister (MemorySlot n)}
  {c : Fin n → Fin n → ℕ} {devices : Fin n → Device n}
  {memory : Address n → UInt8} {before fabric after : Fabric n}
  {action : Action n} {state : State (Fin n) ℕ UInt8} {plan : Plan (Fin n) ℕ}
  {outcome : ℕ → Fin n → Outcome (Fin n) ℕ UInt8}
  {codes : Fin n → Code (Fin n) ℕ UInt8} {posted : Fin n → Relaxed.Posted (Fin n) ℕ}
  {labels : List (Relaxed.Call (Fin n) ℕ UInt8)}

/-- All copies are those of the plan, and what a process copies from in its superstep it has
posted. -/
structure Planned (plan : Plan (Fin n) ℕ) (fabric : Fabric n)
    (posted : Fin n → Relaxed.Posted (Fin n) ℕ) : Prop where
  requested : ∀ k, ∀ copy ∈ fabric.requested k, plan k copy.2.1 copy.2.2 = some copy.1
  sources : ∀ p place, Source (fabric.requests p) (p, place) → (posted p).Source place

/-- A buffered plan keeps the copies apart. -/
theorem buffered_of_plan (buffered : plan.Buffered)
    {requested : ℕ → Set (Address n × Address n)}
    (planned : ∀ k, ∀ copy ∈ requested k, plan k copy.2.1 copy.2.2 = some copy.1) :
    Buffered requested := by
  intro k
  constructor
  · intro first one second two same
    have free := buffered.apart k _ _ _ _ (planned k first one)
    have target := planned k second two
    rw [← same, free] at target
    cases target
  · intro first one second two
    have target := planned (k + 1) second two
    constructor
    · intro same
      rw [← same, buffered.later k _ _ _ _ (planned k first one)] at target
      cases target
    · intro same
      rw [← same, buffered.alternates k _ _ _ _ (planned k first one)] at target
      cases target

namespace Planned

theorem not_target (planned : fabric.Planned plan posted) {k : ℕ} {p : Fin n} {place : ℕ}
    (free : plan k p place = none) : ¬Target (fabric.requested k) (p, place) := by
  rintro ⟨source, member⟩
  have reached := planned.requested k _ member
  rw [free] at reached
  cases reached

/-- What changes neither the copies nor the supersteps -/
theorem same (planned : before.Planned plan posted) (requested : after.requested = before.requested)
    (superstep : ∀ p, (after.world.parties p).superstep = (before.world.parties p).superstep) :
    after.Planned plan posted where
  requested := requested ▸ planned.requested
  sources := by
    intro p place source
    rw [requests, requested, superstep] at source
    exact planned.sources p place source

theorem post (planned : before.Planned plan posted) {pid : Fin n} {task : Task} {op : Operation n}
    (isPut : op.kind = .put)
    (isPlan : ∀ places ∈ op.places pid (tables pid),
      plan (before.world.parties pid).superstep op.peer places.2 = some (pid, places.1))
    (taken : Step maxMsgSize tables before (.post pid task op) after) :
    after.Planned plan (Function.update posted pid
      (posted pid ++ [(op.peer, op.places pid (tables pid))])) := by
  rcases taken with ⟨_, _, step, _, _, requested⟩
  have superstep := World.superstep_step step (by simp)
  have news : ∀ k copy, copy ∈ after.requested k → copy ∈ before.requested k ∨
      (k = (before.world.parties pid).superstep ∧ ∃ places ∈ op.places pid (tables pid),
        copy = ((pid, places.1), (op.peer, places.2))) := by
    intro k copy member
    rw [requested, Function.update_apply] at member
    split at member
    next now =>
      exact member.imp (fun old => now ▸ old) fun new => ⟨now, (Operation.mem_places isPut).mp new⟩
    next => exact Or.inl member
  constructor
  · intro k copy member
    rcases news k copy member with old | ⟨rfl, places, among, rfl⟩
    · exact planned.requested k copy old
    · exact isPlan places among
  · rintro p place ⟨target, member⟩
    rw [requests, superstep] at member
    rcases news _ _ member with old | ⟨_, places, among, same⟩
    · rcases planned.sources p place ⟨target, old⟩ with ⟨message, posts, source⟩
      by_cases own : p = pid
      · subst own
        rw [Function.update_self]
        exact ⟨message, List.mem_append_left _ posts, source⟩
      · rw [Function.update_of_ne own]
        exact ⟨message, posts, source⟩
    · cases same
      rw [Function.update_self]
      exact ⟨_, List.mem_append_right _ (List.mem_singleton_self _), places, among, rfl⟩

/-- A process has requested nothing in a superstep that it has just begun. -/
theorem leave (planned : before.Planned plan posted) (views : before.Views c state) {pid : Fin n}
    {flag : Bool} (taken : Step maxMsgSize tables before (.leave pid flag) after) :
    after.Planned plan (Function.update posted pid []) := by
  rcases taken with ⟨⟨party, _, _, moved⟩, further, _, _, requested⟩
  constructor
  · exact requested ▸ planned.requested
  · rintro p place ⟨target, member⟩
    have parties : after.world.parties = Function.update before.world.parties pid party := by
      rw [moved]
      rfl
    rw [requests, requested] at member
    by_cases own : p = pid
    · subst own
      have posted : (after.world.parties p).superstep ≤ (before.world.parties p).superstep :=
        (views.requested _ _ member).2
      omega
    · rw [parties, Function.update_of_ne own] at member
      rw [Function.update_of_ne own]
      exact planned.sources p place ⟨target, member⟩

end Planned

section Discipline

variable (views : before.Views c state)
  (tracks : Tracks plan c outcome state codes posted) (planned : before.Planned plan posted)

include views tracks planned

/-- The copies stay those of the plan. -/
theorem Planned.step (permitted : Coded before action)
    (taken : Step maxMsgSize tables before action after)
    (takes : ∀ call ∈ calls tables action, ∃ left, Takes (codes call.process) call left) :
    after.Planned plan
      ((calls tables action).foldl (fun posted call => call.posts posted) posted) := by
  cases action with
  | read pid address value => exact taken.2 ▸ planned
  | write pid address value =>
      have isAfter : after = { before with
        memory := Function.update before.memory (pid, address) value } := taken
      rw [isAfter]
      exact planned.same rfl fun _ => rfl
  | post pid task op =>
      rcases takes _ (List.mem_singleton_self _) with ⟨_, isNext⟩
      have follows := (tracks.computes pid ((views.computing pid).mpr permitted.1)).follows
      rw [show codes pid = _ from isNext] at follows
      apply planned.post permitted.2 _ taken
      rw [← views.superstep]
      exact follows.2.1
  | enter pid task attr =>
      rcases taken with ⟨step, _, _, requested⟩
      exact planned.same requested (World.superstep_step step (by simp))
  | leave pid flag => exact planned.leave views taken
  | fetch item =>
      rcases taken with ⟨_, _, _, _, world, _, _, requested⟩
      exact planned.same requested fun _ => world ▸ rfl
  | store item =>
      rcases taken with ⟨_, _, _, _, _, world, _, _, requested⟩
      exact planned.same requested fun _ => world ▸ rfl
  | other worldAction =>
      rcases taken with ⟨_, _, _, superstep, _, _, requested⟩
      exact planned.same requested superstep

variable (known : before.world.Cached c)

include known

/-- What a program that follows the plan may access is not reached. -/
theorem clear_of_plan {pid : Fin n} {place : ℕ}
    (clear : Relaxed.Clear plan c pid (state.superstep pid) (posted pid) place) :
    before.Clear pid place := by
  rw [views.superstep] at clear
  refine ⟨planned.not_target clear.1, ?_⟩
  rintro ⟨source, member⟩
  have owes := clear.2 source.1 source.2 (planned.requested _ _ member)
  rcases views.requested _ _ member with ⟨sends, ahead⟩
  have counted : (before.world.parties pid).superstep < (before.world.parties source.1).taken :=
    Nat.lt_of_lt_of_le ahead (Nat.le_add_right _ _)
  have all := @World.Cached.notifications _ _ _ known pid source.1 _ counted
  rw [← views.messages, tracks.counted] at all
  omega

/-- A program that follows the plan keeps to the rules. -/
theorem neighbourly_of_plan (buffered : plan.Buffered)
    (permitted : Coded before action) (taken : Step maxMsgSize tables before action after)
    (takes : ∀ call ∈ calls tables action, ∃ left, Takes (codes call.process) call left) :
    Neighbourly tables c before action := by
  have computes : ∀ pid, (before.world.parties pid).Computing →
      Computes plan c pid (state.superstep pid) (outcome (state.superstep pid) pid)
        (state.memory pid) (codes pid) (posted pid) :=
    fun pid computing => tracks.computes pid ((views.computing pid).mpr computing)
  cases action with
  | read pid address value =>
      rcases takes _ (List.mem_singleton_self _) with ⟨_, next, isNext, _⟩
      have follows := (computes pid permitted).follows
      rw [show codes pid = _ from isNext] at follows
      exact ⟨permitted, clear_of_plan views tracks planned known follows.1⟩
  | write pid address value =>
      rcases takes _ (List.mem_singleton_self _) with ⟨_, isNext⟩
      have follows := (computes pid permitted).follows
      rw [show codes pid = _ from isNext] at follows
      exact ⟨permitted, clear_of_plan views tracks planned known follows.1,
        fun source => follows.2.1 (planned.sources pid address source)⟩
  | post pid task op =>
      rcases takes _ (List.mem_singleton_self _) with ⟨_, isNext⟩
      have follows := (computes pid permitted.1).follows
      rw [show codes pid = _ from isNext] at follows
      rcases follows with ⟨fewer, isPlan, _⟩
      refine ⟨permitted.1, permitted.2, ?_, ?_⟩
      · show (before.world.parties pid).verbs.numMsgsSync op.peer < c pid op.peer
        rw [known.numMsgsSync permitted.1, ← views.messages, tracks.counted]
        exact_mod_cast fewer
      · apply buffered_of_plan buffered
        intro k copy member
        rw [Function.update_apply] at member
        split at member
        next now =>
          rcases member with old | new
          · exact planned.requested k copy (now ▸ old)
          · rcases (Operation.mem_places permitted.2).mp new with ⟨places, among, rfl⟩
            rw [now, ← views.superstep]
            exact isPlan places among
        next => exact planned.requested k copy member
  | enter pid task attr =>
      rcases takes _ (List.mem_singleton_self _) with ⟨_, isNext⟩
      have computing : (before.world.parties pid).Computing := ⟨taken.1.1, permitted.1⟩
      have follows := (computes pid computing).follows
      rw [show codes pid = _ from isNext] at follows
      refine ⟨permitted.1, permitted.2, fun peer => ?_⟩
      rw [known.numMsgsSync computing, ← views.messages, tracks.counted]
      exact_mod_cast follows.1 peer
  | leave | fetch | store | other => exact trivial

end Discipline

/-- A program that makes these calls makes the first of them. -/
theorem executes_append {first : Fin n → Code (Fin n) ℕ UInt8}
    {more : List (Relaxed.Call (Fin n) ℕ UInt8)}
    (short : more = [] ∨ ∃ call, more = [call])
    (executes : Executes first (labels ++ more) codes) : ∃ before, Executes first labels before ∧
      ∀ call ∈ more, ∃ left, Takes (before call.process) call left := by
  rcases short with rfl | ⟨call, rfl⟩
  · rw [List.append_nil] at executes
    exact ⟨codes, executes, fun _ member => absurd member List.not_mem_nil⟩
  · rcases executes_snoc executes with ⟨before, left, earlier, takes, _⟩
    refine ⟨before, earlier, fun other member => ?_⟩
    rw [List.mem_singleton.mp member]
    exact ⟨left, takes⟩

theorem calls_short (action : Action n) :
    calls tables action = [] ∨ ∃ call, calls tables action = [call] := by
  cases action with
  | read | write | post | enter | leave => exact Or.inr ⟨_, rfl⟩
  | fetch | store | other => exact Or.inl rfl

/-- What is left of a program leads from what its process finds in its memory to what the program
means, where the process has a view of its own of memory that messages may be on their way to. -/
structure Meant (plan : Plan (Fin n) ℕ) (start : Fin n → Position (Fin n) ℕ UInt8)
    (labels : List (Relaxed.Call (Fin n) ℕ UInt8)) (codes : Fin n → Code (Fin n) ℕ UInt8)
    (fabric : Fabric n) (p : Fin n) (view : ℕ → UInt8) : Prop where
  finds : ∀ place, plan (fabric.world.parties p).superstep p place = none →
    plan ((fabric.world.parties p).superstep + 1) p place = none →
      fabric.memory (p, place) = view place
  memory : ((codes p).run view).memory =
    (meant (List.finRange n) start (fabric.world.parties p).superstep p).memory
  messages : (meant (List.finRange n) start (fabric.world.parties p).superstep p).messages =
    (postedBy labels p).map
        (valued (meant (List.finRange n) start (fabric.world.parties p).superstep p).memory) ++
      ((codes p).run view).messages
  rest : ((codes p).run view).rest =
    (meant (List.finRange n) start (fabric.world.parties p).superstep p).rest

section Runs

variable {programs : Fin n → Code (Fin n) ℕ UInt8}
  (symmetric : ∀ p q, 0 < c p q ↔ 0 < c q p) (positive : 0 < maxMsgSize)
  (device : maxMsgSize < 2 ^ 32) (buffered : plan.Buffered)
  (follows : ∀ p, (programs p).Follows plan c p 0 [])

include symmetric positive device buffered follows

/-- Programs that follow a plan keep to the rules in every run. -/
theorem overlapping_of_plan
    (run : (coded maxMsgSize tables devices memory).Runs labels fabric)
    (executes : Executes programs labels codes) :
    (overlapping maxMsgSize tables c devices memory).Runs labels fabric ∧
      fabric.Planned plan (postedBy labels) := by
  induction run generalizing codes with
  | refl =>
      refine ⟨.refl, fun _ _ member => absurd member (Set.notMem_empty _), ?_⟩
      rintro p place ⟨target, member⟩
      exact absurd member (Set.notMem_empty _)
  | @tail labels before after action earlier permitted taken ih =>
      rcases executes_append (calls_short action) executes with ⟨itsCodes, itsExecutes, takes⟩
      rcases ih itsExecutes with ⟨runs, planned⟩
      rcases views_run symmetric positive device runs with ⟨state, machineRun, views⟩
      have known := neighbourly_known symmetric runs.reachable
      have tracks := @tracks_run _ _ _ _ _ plan c _ _ (List.finRange n)
        (positions programs memory) List.mem_finRange follows _ machineRun itsExecutes
      have allowed := neighbourly_of_plan views tracks planned known buffered permitted taken takes
      refine ⟨runs.tail allowed taken, ?_⟩
      rw [postedBy, List.foldl_append]
      exact Planned.step views tracks planned permitted taken takes

/-- Whenever a process computes, its view and what is left of its program tell what it means. -/
theorem meant_run (run : (coded maxMsgSize tables devices memory).Runs labels fabric)
    (executes : Executes programs labels codes) {p : Fin n}
    (computing : (fabric.world.parties p).Computing) :
    ∃ view, fabric.Meant plan (positions programs memory) labels codes p view := by
  rcases overlapping_of_plan symmetric positive device buffered follows run executes with
    ⟨runs, planned⟩
  rcases views_run symmetric positive device runs with ⟨state, machineRun, views⟩
  have known := neighbourly_known symmetric runs.reachable
  have tracks := @tracks_run _ _ _ _ _ plan c _ _ (List.finRange n)
    (positions programs memory) List.mem_finRange follows _ machineRun executes
  have computes := tracks.computes p ((views.computing p).mpr computing)
  have superstep := views.superstep p
  refine ⟨state.memory p, ?_, ?_, ?_, ?_⟩
  · intro place now next
    exact views.clear known symmetric ⟨planned.not_target now, planned.not_target next⟩
  · exact superstep ▸ computes.memory
  · exact superstep ▸ computes.messages
  · exact superstep ▸ computes.rest

/-- Programs that follow a buffered plan do in their supersteps what they mean, on whatever devices
and however far others are ahead, and no counter leaves its range. -/
theorem programs_mean (fits : World.Fits c)
    (run : (coded maxMsgSize tables devices memory).Runs labels fabric)
    (executes : Executes programs labels codes) :
    (∀ p, (fabric.world.parties p).Computing →
      ∃ view, fabric.Meant plan (positions programs memory) labels codes p view) ∧
    fabric.world.Ints := by
  constructor
  · intro p
    exact meant_run symmetric positive device buffered follows run executes
  · have runs := (overlapping_of_plan symmetric positive device buffered follows run executes).1
    exact World.Reachable.ints_of_pattern fits symmetric (neighbourly_reachable runs.reachable).1

end Runs

/-- The message is one of a put. -/
def Sendable (maxMsgSize : ℕ) (tables : Fin n → CombinedMemoryRegister (MemorySlot n))
    (pid : Fin n) (message : Fin n × List (ℕ × ℕ)) : Prop :=
  ∃ op : Operation n, op.kind = .put ∧ op.peer = message.1 ∧
    op.places pid (tables pid) = message.2 ∧ ∀ (verbs : IBVerbs n) (task : Task), ∃ requests,
      op.requests pid { verbs with memreg := tables pid } maxMsgSize task = some requests

/-- All processes are at the beginning of the superstep. -/
structure Begins (world : World n) (superstep : ℕ) : Prop where
  computing : ∀ p, (world.parties p).Computing
  superstep : ∀ p, (world.parties p).superstep = superstep
  cached : ∀ p q, (world.parties p).verbs.syncCached = (world.parties q).verbs.syncCached
  first : ∀ p, (world.parties p).verbs.syncRequest.secondPhase = false

theorem Begins.post {world after : World n} {superstep : ℕ} (begins : Begins world superstep)
    {pid peer : Fin n} {task : Task} {kind : OperationKind}
    (step : world.Step (.post pid task kind peer) after) : Begins after superstep where
  computing p := by
    rcases World.post_frame step p with ⟨phase, syncRequest, _⟩
    exact ⟨phase.trans (begins.computing p).1, syncRequest ▸ (begins.computing p).2⟩
  superstep p := (World.post_frame step p).2.2.2.trans (begins.superstep p)
  cached p q := by
    rw [(World.post_frame step p).2.2.1, (World.post_frame step q).2.2.1]
    exact begins.cached p q
  first p := by
    rw [(World.post_frame step p).2.1]
    exact begins.first p

theorem unhindered_coded : Unhindered Coded (calls tables) where
  fetch _ _ := ⟨trivial, rfl⟩
  store _ _ := ⟨trivial, rfl⟩
  inner _ _ _ := ⟨trivial, rfl⟩

/-- A program has come to its sync or to its end. -/
def Stops (code : Code (Fin n) ℕ UInt8) : Prop := code = .done ∨ ∃ next, code = .sync next

/-- Programs that have run from the beginning of a superstep, with nothing left to copy -/
structure Within (maxMsgSize : ℕ) (tables : Fin n → CombinedMemoryRegister (MemorySlot n))
    (devices : Fin n → Device n) (memory : Address n → UInt8)
    (programs : Fin n → Code (Fin n) ℕ UInt8) (superstep left : ℕ)
    (labels : List (Relaxed.Call (Fin n) ℕ UInt8)) (codes : Fin n → Code (Fin n) ℕ UInt8)
    (world : World n) (now : Address n → UInt8) (requested : ℕ → Set (Address n × Address n)) :
    Prop where
  run : (coded maxMsgSize tables devices memory).Runs labels (clean world now requested)
  executes : Executes programs labels codes
  begins : Begins world superstep
  ends : ∀ p, (codes p).Ends (Sendable maxMsgSize tables p) left

section Progress

variable {programs : Fin n → Code (Fin n) ℕ UInt8} {superstep left : ℕ} {world : World n}
  {now : Address n → UInt8} {requested : ℕ → Set (Address n × Address n)}

namespace Within

/-- One process takes one step of its program. -/
theorem takes {call : Relaxed.Call (Fin n) ℕ UInt8} {next : Code (Fin n) ℕ UInt8}
    (within : Within maxMsgSize tables devices memory programs superstep left labels codes world
      now requested) {after : World n} {itsMemory : Address n → UInt8}
    {further : ℕ → Set (Address n × Address n)}
    (run : (coded maxMsgSize tables devices memory).Runs (labels ++ [call])
      (clean after itsMemory further))
    (begins : Begins after superstep) (takes : Takes (codes call.process) call next)
    (ends : next.Ends (Sendable maxMsgSize tables call.process) left) :
    Within maxMsgSize tables devices memory programs superstep left (labels ++ [call])
      (Function.update codes call.process next) after itsMemory further where
  run := run
  executes := within.executes.snoc takes
  begins := begins
  ends p := by
    rw [Function.update_apply]
    split
    next own => exact own ▸ ends
    next => exact within.ends p

/-- A process computes up to its sync or to its end. -/
theorem computes (p : Fin n) {code : Code (Fin n) ℕ UInt8} (isCode : codes p = code)
    (within : Within maxMsgSize tables devices memory programs superstep left labels codes world
      now requested) :
    ∃ labels codes' world now requested, Within maxMsgSize tables devices memory programs superstep
        left labels codes' world now requested ∧ Stops (codes' p) ∧
      ∀ q, q ≠ p → codes' q = codes q := by
  induction code generalizing labels codes world now requested with
  | read place following ih =>
      let value := now (p, place)
      have reads := @Transition.System.Continues.tail _ _ _
        (coded maxMsgSize tables devices memory) _ _ _ _ (.read p place value) within.run
        (within.begins.computing p) ⟨rfl, rfl⟩
      have ends := within.ends p
      rw [isCode, Code.Ends] at ends
      have taken := within.takes reads within.begins ⟨following, isCode, rfl⟩ (ends value)
      rcases ih value (Function.update_self ..) taken with
        ⟨labels, codes', world, now, requested, further, stops, others⟩
      refine ⟨labels, codes', world, now, requested, further, stops, fun q other => ?_⟩
      exact (others q other).trans (Function.update_of_ne other ..)
  | write place value following ih =>
      have writes := @Transition.System.Continues.tail _ _ _
        (coded maxMsgSize tables devices memory) _ _ _
        (clean world (Function.update now (p, place) value) requested) (.write p place value)
        within.run (within.begins.computing p) rfl
      have ends := within.ends p
      rw [isCode, Code.Ends] at ends
      have taken := within.takes writes within.begins isCode ends
      rcases ih (Function.update_self ..) taken with
        ⟨labels, codes', world, now, requested, further, stops, others⟩
      refine ⟨labels, codes', world, now, requested, further, stops, fun q other => ?_⟩
      exact (others q other).trans (Function.update_of_ne other ..)
  | send peer copies following ih =>
      have ends := within.ends p
      rw [isCode, Code.Ends] at ends
      rcases ends with ⟨⟨op, isPut, rfl, rfl, posts⟩, ends⟩
      rcases posts (world.parties p).verbs 5 with ⟨requests, posted⟩
      have step : world.Step (.post p 5 op.kind op.peer) _ := rfl
      have sends := runs_post unhindered_coded within.run posted step
        ⟨within.begins.computing p, isPut⟩
      have taken := within.takes sends (within.begins.post step) isCode ends
      rcases ih (Function.update_self ..) taken with
        ⟨labels, codes', world, now, requested, further, stops, others⟩
      refine ⟨labels, codes', world, now, requested, further, stops, fun q other => ?_⟩
      exact (others q other).trans (Function.update_of_ne other ..)
  | sync following =>
      exact ⟨_, _, _, _, _, within, Or.inr ⟨following, isCode⟩, fun _ _ => rfl⟩
  | done => exact ⟨_, _, _, _, _, within, Or.inl isCode, fun _ _ => rfl⟩

/-- All processes compute up to their syncs or to their ends. -/
theorem stops (within : Within maxMsgSize tables devices memory programs superstep left labels codes
      world now requested) :
    ∃ labels codes world now requested, Within maxMsgSize tables devices memory programs superstep
      left labels codes world now requested ∧ ∀ p, Stops (codes p) := by
  have some : ∀ processes : List (Fin n), ∃ labels codes world now requested,
      Within maxMsgSize tables devices memory programs superstep left labels codes world now
        requested ∧ ∀ p ∈ processes, Stops (codes p) := by
    intro processes
    induction processes with
    | nil => exact ⟨_, _, _, _, _, within, fun _ none => absurd none List.not_mem_nil⟩
    | cons first rest ih =>
        rcases ih with ⟨labels, codes, world, now, requested, within, stopped⟩
        rcases within.computes first rfl with
          ⟨labels, codes', world, now, requested, within, stops, others⟩
        refine ⟨labels, codes', world, now, requested, within, fun p member => ?_⟩
        by_cases isFirst : p = first
        · exact isFirst ▸ stops
        · rw [others p isFirst]
          exact stopped p ((List.mem_cons.mp member).resolve_left isFirst)
  rcases some (List.finRange n) with ⟨labels, codes, world, now, requested, within, stopped⟩
  exact ⟨labels, codes, world, now, requested, within, fun p => stopped p (List.mem_finRange p)⟩

variable (symmetric : ∀ p q, 0 < c p q ↔ 0 < c q p) (positive : 0 < maxMsgSize)
  (device : maxMsgSize < 2 ^ 32) (buffered : plan.Buffered)
  (follows : ∀ p, (programs p).Follows plan c p 0 [])

include symmetric positive device buffered follows

/-- All processes pass their syncs. -/
theorem passes (small : superstep < 2 ^ 31)
    (within : Within maxMsgSize tables devices memory programs superstep (left + 1) labels codes
      world now requested) (stopped : ∀ p, Stops (codes p)) :
    ∃ labels codes world, Within maxMsgSize tables devices memory programs (superstep + 1) left
      labels codes world now requested := by
  have isSync : ∀ p, ∃ next, codes p = .sync next ∧
      next.Ends (Sendable maxMsgSize tables p) left := by
    intro p
    have ends := within.ends p
    rcases stopped p with isDone | ⟨next, isSync⟩
    · rw [isDone, Code.Ends] at ends
      exact absurd ends (Nat.succ_ne_zero left)
    · rw [isSync, Code.Ends] at ends
      exact ⟨next, isSync, ends⟩
  choose next isSync ends using isSync
  have reached : ∀ {labels codes world},
      (coded maxMsgSize tables devices memory).Runs labels (clean world now requested) →
      Executes programs labels codes → World.Reachable devices (World.CachedPattern c) world :=
    fun run executes => (neighbourly_reachable (overlapping_of_plan symmetric positive device
      buffered follows run executes).1.reachable).1
  have tracked := World.Reachable.tracked (reached within.run within.executes)
  rcases runs_arrived unhindered_coded within.run (fun _ => 6) .cached
    (fun _ p _ same => ⟨same ▸ (within.begins.computing p).2, rfl⟩)
    (fun p => (tracked.parties p).conserved.numMsgs) within.begins.computing
    within.begins.cached with ⟨arrived, entered, nothing, asked⟩
  have labelled : ((List.finRange n).flatMap fun p => calls tables (.enter p 6 .cached)) =
      (List.finRange n).map .enter := List.map_eq_flatMap.symm
  rw [labelled] at entered
  have enters := within.executes.enters (List.nodup_finRange n) List.mem_finRange isSync
  choose events asks using asked
  rcases runs_released symmetric (fun _ _ => trivial) (reached entered enters) entered small nothing
    (fun p => (asks p).idle) (fun p => (asks p).isActive) (fun p => (asks p).withBarrier)
    (fun p => (asks p).keeps.secondPhase.trans (within.begins.first p))
    (fun p => (asks p).keeps.superstep.trans (within.begins.superstep p)) with ⟨after, left, began⟩
  have labelled : ((List.finRange n).flatMap fun p => calls tables (.leave p false)) =
      (List.finRange n).map .leave := List.map_eq_flatMap.symm
  rw [labelled] at left
  refine ⟨_, next, after, left, enters.leaves _, ?_, ends⟩
  refine ⟨fun p => (began p).1, fun p => (began p).2.2.2, fun p q => ?_, fun p => (began p).2.1⟩
  rw [(began p).2.2.1, (began q).2.2.1]
  exact (asks p).syncCached.trans (asks q).syncCached.symm

/-- All processes come to the end of their programs. -/
theorem ended (small : superstep + left ≤ 2 ^ 31)
    (within : Within maxMsgSize tables devices memory programs superstep left labels codes world now
      requested) : ∃ labels codes world now requested,
        Within maxMsgSize tables devices memory programs (superstep + left) 0 labels codes world now
          requested ∧ ∀ p, codes p = .done := by
  induction left generalizing superstep labels codes world now requested with
  | zero =>
      rcases within.stops with ⟨labels, codes, world, now, requested, within, stopped⟩
      refine ⟨labels, codes, world, now, requested, within, fun p => ?_⟩
      rcases stopped p with isDone | ⟨next, isSync⟩
      · exact isDone
      · have ends := within.ends p
        rw [isSync, Code.Ends] at ends
        exact ends.elim
  | succ left ih =>
      rcases within.stops with ⟨labels, codes, world, now, requested, within, stopped⟩
      rcases within.passes symmetric positive device buffered follows (by omega) stopped with
        ⟨labels, codes, world, passed⟩
      rw [← Nat.add_assoc, Nat.add_right_comm]
      exact ih (by omega) passed

end Within

/-- Programs that follow a plan and can post their messages can always come to their ends. -/
theorem exists_ended (symmetric : ∀ p q, 0 < c p q ↔ 0 < c q p) (positive : 0 < maxMsgSize)
    (device : maxMsgSize < 2 ^ 32) (buffered : plan.Buffered)
    (follows : ∀ p, (programs p).Follows plan c p 0 []) (devices : Fin n → Device n)
    (memory : Address n → UInt8) {syncs : ℕ} (small : syncs ≤ 2 ^ 31)
    (ends : ∀ p, (programs p).Ends (Sendable maxMsgSize tables p) syncs) :
    ∃ labels codes fabric, (coded maxMsgSize tables devices memory).Runs labels fabric ∧
      Executes programs labels codes ∧ (∀ p, codes p = .done) ∧
      ∀ p, (fabric.world.parties p).Computing ∧ (fabric.world.parties p).superstep = syncs := by
  have start : Within maxMsgSize tables devices memory programs 0 syncs [] programs
      (.initial devices) memory fun _ => ∅ :=
    ⟨.refl, .nil, ⟨fun _ => ⟨rfl, rfl⟩, fun _ => rfl, fun _ _ => rfl, fun _ => rfl⟩, ends⟩
  rcases start.ended symmetric positive device buffered follows (by omega) with
    ⟨labels, codes, world, now, requested, within, ended⟩
  refine ⟨labels, codes, _, within.run, within.executes, ended, fun p => ?_⟩
  exact ⟨within.begins.computing p, (within.begins.superstep p).trans (Nat.zero_add syncs)⟩

end Progress

/-- Each of two processes puts a byte to the other one, and has its byte after the sync. -/
def byteProgram (pid : Fin 2) : Code (Fin 2) ℕ UInt8 := .send pid.rev [(100, 101)] (.sync .done)

def bytePlan : Plan (Fin 2) ℕ := fun k pid place =>
  if k = 0 ∧ place = 101 then some (pid.rev, 100) else none

theorem buffered_bytePlan : bytePlan.Buffered := by
  constructor <;> rintro k process place peer source planned <;>
    simp only [bytePlan, Option.ite_none_right_eq_some] at planned ⊢ <;>
    rcases planned with ⟨⟨rfl, rfl⟩, same⟩ <;> cases same <;> simp

theorem follows_byteProgram (pid : Fin 2) :
    (byteProgram pid).Follows bytePlan World.pairwise pid 0 [] := by
  refine ⟨?_, ?_, ?_, trivial⟩
  · revert pid
    decide
  · intro copy member
    rw [List.mem_singleton.mp member]
    revert pid
    decide
  · revert pid
    decide

theorem sendable_byte (pid peer : Fin 2) :
    Sendable 4 (fun _ => tenRegister 2) pid (peer, [(100, 101)]) :=
  ⟨putByte peer, rfl, rfl, places_putByte pid peer, fun _ _ => ⟨_, rfl⟩⟩

/-- Both processes have the byte of the other one. -/
theorem programs_mean_pair : ∃ labels codes fabric,
    (coded 4 (fun _ => tenRegister 2) (fun _ => .generous 2) nine).Runs labels fabric ∧
    Executes byteProgram labels codes ∧ (∀ p, codes p = .done) ∧
    ∀ p : Fin 2, fabric.memory (p, 101) = 9 := by
  have ends : ∀ p, (byteProgram p).Ends (Sendable 4 (fun _ => tenRegister 2) p) 1 :=
    fun p => ⟨sendable_byte p p.rev, rfl⟩
  rcases exists_ended World.pairwise_symmetric (by decide) (by decide) buffered_bytePlan
    follows_byteProgram (fun _ => .generous 2) nine (Nat.one_le_two_pow) ends with
    ⟨labels, codes, fabric, run, executes, ended, computing⟩
  refine ⟨labels, codes, fabric, run, executes, ended, fun p => ?_⟩
  rcases (programs_mean World.pairwise_symmetric (by decide) (by decide) buffered_bytePlan
    follows_byteProgram fits_pairwise run executes).1 p (computing p).1 with
    ⟨view, finds, means, _⟩
  rw [ended, (computing p).2] at means
  rw [(computing p).2] at finds
  refine (finds 101 rfl rfl).trans ((congrFun means 101).trans ?_)
  exact (Fin.forall_fin_two (p := fun p => (meant (List.finRange 2) (positions byteProgram nine) 1
    p).memory 101 = 9)).mpr ⟨rfl, rfl⟩ p

end Fabric

end IBVerbs

end Talpf

import Talpf.Process.Subgroups

/-!
# Roots and their slaves

The collectives of an exec are taken in a convenient order: the requested processes run
the rounds of the SPMD function one after the other, and so do the collectives that
belong to their groups.  The induction is on the script of the root.  While the root of a
world has a script to run, all its slaves are in `Process::slave`, and when the script is
over they are there again.
-/

namespace Talpf.Nesting

open Groups

/-- A run that takes all programs from `before` to `after`, with sound collectives only. -/
abbrev Reach (before after : ℕ → Code) (seen : List Execution) : Prop :=
  Reaches body Sound started before after seen

def within (world : Comm) (inside outside : ℕ → Code) : ℕ → Code :=
  fun p => if p ∈ world.members then inside p else outside p

section Calls

variable {comm : Comm} {before after : ℕ → Code} {seen : List Execution} {p root time : ℕ}

theorem within_of_mem {inside outside : ℕ → Code} (member : p ∈ comm.members) :
    within comm inside outside p = inside p := if_pos member

theorem within_of_not_mem {inside outside : ℕ → Code} (member : p ∉ comm.members) :
    within comm inside outside p = outside p := if_neg member

theorem within_within (first second outside : ℕ → Code) :
    within comm first (within comm second outside) = within comm first outside := by
  funext p
  by_cases member : p ∈ comm.members
  · rw [within_of_mem member, within_of_mem member]
  · rw [within_of_not_mem member, within_of_not_mem member, within_of_not_mem member]

def answers (comm : Comm) (op : ℕ → Op) (time : ℕ) (p : ℕ) : (op p).Result :=
  (op p).answer comm time (comm.members.map fun q => (q, op q))

theorem answers_broadcast (value : ℕ → ℕ) (first : comm.members.head? = some root) :
    answers comm (fun q => .broadcast (value q)) time p = value root := by
  rcases List.head?_eq_some_iff.mp first with ⟨others, members⟩
  simp only [answers, members, List.map_cons]
  rfl

theorem answers_broadcastSymbol (symbol : ℕ → Option Spmd)
    (first : comm.members.head? = some root) :
    answers comm (fun q => .broadcastSymbol (symbol q)) time p = symbol root := by
  rcases List.head?_eq_some_iff.mp first with ⟨others, members⟩
  simp only [answers, members, List.map_cons]
  rfl

theorem answers_split (color : ℕ → ℕ) :
    answers comm (fun q => .split (color q)) time p =
      .split comm time (comm.members.filter fun q => color q = color p) := by
  have colored : ((comm.members.map fun q => (q, Op.split (color q))).filter
      fun call => call.2.hasColor (color p)).map Prod.fst =
        comm.members.filter fun q => color q = color p := by
    rw [List.filter_map, List.map_map]
    exact List.map_id _
  exact congrArg (Comm.split comm time) colored

/-- The members of a communicator call a collective. -/
theorem reach_call {now : Option Execution} (op : ℕ → Op)
    (notes : (p : ℕ) → (op p).Result → List Note) (next : (p : ℕ) → (op p).Result → Code)
    (first : comm.members.head? = some root)
    (called : ∀ p ∈ comm.members, (before p).head body = some ⟨comm, op p, notes p, next p⟩)
    (matching : ∀ p ∈ comm.members, ∀ q ∈ comm.members, (op p).Matches (op q))
    (fine : ∀ event : Event network Note, event.comm = comm →
      (∃ time, ∀ p, event.notes p =
        if p ∈ comm.members then notes p (answers comm op time p) else []) →
      Sound event ∧ started event = now)
    (rest : ∀ time, Reach (within comm (fun p => next p (answers comm op time p)) before)
      after seen) :
    Reach before after (now.toList ++ seen) := by
  have some : comm.members ≠ [] := by
    rintro none
    rw [none] at first
    cases first
  have answered (time : ℕ) (q : {q // q ∈ comm.members}) :
      network.outcome comm time (fun q : {q // q ∈ comm.members} => op q.1) q =
        answers comm op time q.1 := by
    change (op q.1).answer comm time (comm.members.attach.map fun q => (q.1, op q.1)) = _
    exact congrArg (fun calls => (op q.1).answer comm time calls)
      (List.attach_map_val (f := fun q => (q, op q)))
  let call : {q // q ∈ comm.members} → Call network Proc Note :=
    fun q => ⟨comm, op q.1, notes q.1, next q.1⟩
  have noted (time p : ℕ) : (eventAt comm call time : Event network Note).notes p =
      if p ∈ comm.members then notes p (answers comm op time p) else [] := by
    by_cases member : p ∈ comm.members
    · rw [if_pos member, ← answered time ⟨p, member⟩]
      exact dif_pos member
    · rw [if_neg member]
      exact dif_neg member
  have advanced (time : ℕ) : advance before comm call time =
      within comm (fun p => next p (answers comm op time p)) before := by
    funext p
    by_cases member : p ∈ comm.members
    · rw [within_of_mem member, ← answered time ⟨p, member⟩]
      exact dif_pos member
    · rw [within_of_not_mem member]
      exact dif_neg member
  refine Reaches.collective some (fun q => called q.1 q.2) (fun _ => rfl)
    (fun p q => matching p.1 p.2 q.1 q.2) (fun time => ?_) (fun time => ?_) fun time => ?_
  · exact (fine _ rfl ⟨time, noted time⟩).1
  · exact (fine _ rfl ⟨time, noted time⟩).2
  · exact (advanced time).symm ▸ rest time

/-- A collective that nobody remarks on. -/
theorem sound_of_silent {event : Event network Note} (silent : ∀ p, event.notes p = []) :
    Sound event ∧ started event = none := by
  have idle : started event = none := by
    unfold started
    cases event.comm with
    | world size => rfl
    | split world time members =>
        have nothing : members.flatMap event.notes = [] := by simp [silent]
        simp only [nothing]
  refine ⟨⟨?_, ?_, ?_⟩, idle⟩
  · intro execution starts
    rw [idle] at starts
    cases starts
  · intro _ p sub pid nprocs
    simp [silent]
  · intro world root _ p _ _
    simp [silent]

theorem reach_silent (op : ℕ → Op) (notes : (p : ℕ) → (op p).Result → List Note)
    (next : (p : ℕ) → (op p).Result → Code) (first : comm.members.head? = some root)
    (called : ∀ p ∈ comm.members, (before p).head body = some ⟨comm, op p, notes p, next p⟩)
    (matching : ∀ p ∈ comm.members, ∀ q ∈ comm.members, (op p).Matches (op q))
    (silent : ∀ time, ∀ p ∈ comm.members, notes p (answers comm op time p) = [])
    (rest : ∀ time, Reach (within comm (fun p => next p (answers comm op time p)) before)
      after seen) :
    Reach before after seen := by
  change Reach before after ((none : Option Execution).toList ++ seen)
  refine reach_call op notes next first called matching ?_ rest
  rintro event _ ⟨time, noted⟩
  apply sound_of_silent
  intro p
  rw [noted p]
  split
  · exact silent time p ‹_›
  · rfl

end Calls

/-- The root of a world can run a script while all others are its slaves. -/
def Serves (script : Script) : Prop :=
  ∀ {world : Comm} {root : ℕ} {before : ℕ → Code} {next : Code},
    world.members.Nodup → world.members.head? = some root →
    before root = script.run root world false next →
    (∀ p ∈ world.members, p ≠ root → ∃ later, before p = .invoke (.slave p world) later) →
    Reach before (Function.update before root next) (script.executions world.members)

/-- The communicators that an exec creates for the requested processes, for the others, and
for the subgroups. -/
structure Layout (world : Comm) (requested : ℕ) where
  machine : Comm
  others : Comm
  sub : ℕ → Comm
  machine_split : ∃ time members, machine = .split world time members
  machine_members : machine.members = world.members.filter fun p => world.pid p < requested
  others_members : others.members = world.members.filter fun p => requested ≤ world.pid p
  sub_members (pid : ℕ) : (sub pid).members = subgroup world.members requested pid

namespace Layout

variable {world : Comm} {requested : ℕ} (layout : Layout world requested)

/-- The group of a process. -/
def group (p : ℕ) : Comm := layout.sub (world.pid p % requested)

def own (p : ℕ) : Comm := if world.pid p < requested then layout.machine else layout.others

/-- What is left to do for a process after its group has been dissolved. -/
def leaving (back : ℕ → Code) (p : ℕ) : Code := free (layout.own p) (back p)

/-- A slave in the constructor of the subprocess. -/
def serving (back : ℕ → Code) (p : ℕ) : Code :=
  .invoke (.slave p (layout.group p)) (free (layout.group p) (layout.leaving back p))

/-- The end of an exec for a requested process. -/
def returning (back : ℕ → Code) (p : ℕ) : Code :=
  destroy (layout.group p) false (free (layout.group p) (layout.leaving back p))

/-- The requested processes have some code to run, while all the others serve them. -/
def stage (outside back code : ℕ → Code) : ℕ → Code :=
  within world
    (fun p => if world.pid p < requested then code p else layout.serving back p) outside

variable {layout} {outside back code : ℕ → Code} {seen : List Execution} {p pid root : ℕ}

theorem mem_machine : p ∈ layout.machine.members ↔ p ∈ world.members ∧ world.pid p < requested := by
  simp [layout.machine_members]

theorem mem_others : p ∈ layout.others.members ↔ p ∈ world.members ∧ requested ≤ world.pid p := by
  simp [layout.others_members]

theorem mem_sub : p ∈ (layout.sub pid).members ↔
    p ∈ world.members ∧ world.pid p % requested = pid := by
  rw [layout.sub_members, mem_subgroup]
  rfl

theorem group_of_mem_sub (member : p ∈ (layout.sub pid).members) :
    layout.group p = layout.sub pid := by
  rw [group, (mem_sub.mp member).2]

theorem stage_of_requested (member : p ∈ world.members) (small : world.pid p < requested) :
    layout.stage outside back code p = code p := by
  rw [stage, within_of_mem member, if_pos small]

theorem stage_of_other (member : p ∈ world.members) (large : ¬world.pid p < requested) :
    layout.stage outside back code p = layout.serving back p := by
  rw [stage, within_of_mem member, if_neg large]

/-- What the requested processes do leaves the others where they are. -/
theorem within_machine_stage (inside : ℕ → Code) :
    within layout.machine inside (layout.stage outside back code) =
      layout.stage outside back inside := by
  funext p
  by_cases member : p ∈ world.members
  · by_cases small : world.pid p < requested
    · rw [within_of_mem (mem_machine.mpr ⟨member, small⟩), stage_of_requested member small]
    · have away : p ∉ layout.machine.members := fun here => small (mem_machine.mp here).2
      rw [within_of_not_mem away, stage_of_other member small, stage_of_other member small]
  · have away : p ∉ layout.machine.members := fun here => member (mem_machine.mp here).1
    rw [within_of_not_mem away, stage, stage, within_of_not_mem member,
      within_of_not_mem member]

theorem machine_eq_take (nodup : world.members.Nodup) :
    layout.machine.members = world.members.take requested :=
  layout.machine_members.trans (filter_idxOf_lt nodup)

theorem machine_pid (nodup : world.members.Nodup) (member : p ∈ world.members)
    (small : world.pid p < requested) : layout.machine.pid p = world.pid p := by
  have listed : p ∈ layout.machine.members := mem_machine.mpr ⟨member, small⟩
  rw [machine_eq_take nodup] at listed
  rw [Comm.pid, machine_eq_take nodup]
  exact idxOf_take listed

theorem machine_nprocs (nodup : world.members.Nodup) (enough : requested ≤ world.nprocs) :
    layout.machine.nprocs = requested := by
  rw [Comm.nprocs, machine_eq_take nodup, List.length_take]
  exact Nat.min_eq_left enough

theorem head?_machine (nodup : world.members.Nodup) (positive : 0 < requested) :
    layout.machine.members.head? = world.members.head? := by
  rw [machine_eq_take nodup, List.head?_take, if_neg (Nat.ne_of_gt positive)]

theorem head?_sub (nodup : world.members.Nodup) (below : pid < requested)
    (enough : requested ≤ world.nprocs) :
    (layout.sub pid).members.head? = world.members[pid]? := by
  rw [layout.sub_members, head?_subgroup nodup below enough]

theorem sub_nodup (nodup : world.members.Nodup) : (layout.sub pid).members.Nodup := by
  rw [layout.sub_members]
  exact subgroup_nodup nodup

section Machine

variable (nodup : world.members.Nodup) (positive : 0 < requested)
  (first : world.members.head? = some root)
include nodup positive first

theorem reach_machine {after : ℕ → Code} (op : ℕ → Op)
    (next : (p : ℕ) → (op p).Result → Code)
    (called : ∀ p, code p = .call layout.machine (op p) (fun _ => []) (next p))
    (matching : ∀ p q, (op p).Matches (op q))
    (rest : ∀ time, Reach
      (layout.stage outside back fun p => next p (answers layout.machine op time p)) after seen) :
    Reach (layout.stage outside back code) after seen := by
  have leader : layout.machine.members.head? = some root :=
    (head?_machine nodup positive).trans first
  refine reach_silent op (fun _ _ => []) next leader ?_ (fun p _ q _ => matching p q) 
    (fun _ _ _ => rfl) fun time => ?_
  · intro p member
    rcases mem_machine.mp member with ⟨member, small⟩
    rw [stage_of_requested member small, called p]
    rfl
  · rw [within_machine_stage]
    exact rest time

theorem reach_broadcastSymbol {symbol : ℕ → Option Spmd} {spmd : Spmd}
    (known : symbol root = some spmd) (next : ℕ → Option Spmd → Code) :
    Reach
      (layout.stage outside back fun p =>
        .call layout.machine (.broadcastSymbol (symbol p)) (fun _ => []) (next p))
      (layout.stage outside back fun p => next p (some spmd)) [] := by
  refine reach_machine nodup positive first (fun p => .broadcastSymbol (symbol p)) next
    (fun _ => rfl) (fun _ _ => trivial) fun time => ?_
  have answered (p : ℕ) : next p (answers layout.machine
      (fun q => .broadcastSymbol (symbol q)) time p) = next p (some spmd) :=
    congrArg (next p)
      ((answers_broadcastSymbol symbol ((head?_machine nodup positive).trans first)).trans known)
  have same := funext answered
  exact same ▸ Reaches.refl _

theorem reach_context (round : ℕ) (next : ℕ → Code) :
    Reach
      (layout.stage outside back fun p =>
        .call layout.machine (.context round) (fun _ => []) fun _ => next p)
      (layout.stage outside back next) [] :=
  reach_machine nodup positive first (fun _ => .context round) (fun p _ => next p)
    (fun _ => rfl) (fun _ _ => rfl) fun _ => Reaches.refl _

/-- The event that starts the SPMD function. -/
theorem sound_of_started (enough : requested ≤ world.nprocs) {event : Event network Note}
    (there : event.comm = layout.machine)
    (noted : ∀ p, event.notes p = if p ∈ layout.machine.members then
      [.ran (layout.group p) (layout.machine.pid p) layout.machine.nprocs] else []) :
    Sound event ∧ started event = some ⟨world.members, requested⟩ := by
  have ran (p : ℕ) (note : Note) : note ∈ event.notes p ↔
      ∃ pid < requested, world.members[pid]? = some p ∧
        note = .ran (layout.sub pid) pid requested := by
    rw [noted p]
    constructor
    · intro remark
      by_cases member : p ∈ layout.machine.members
      · rw [if_pos member, List.mem_singleton] at remark
        rcases mem_machine.mp member with ⟨member, small⟩
        refine ⟨world.pid p, small, getElem?_idxOf member, ?_⟩
        rw [remark, machine_pid nodup member small, machine_nprocs nodup enough, group,
          Nat.mod_eq_of_lt small]
      · rw [if_neg member] at remark
        cases remark
    · rintro ⟨pid, below, found, rfl⟩
      have index : world.pid p = pid := idxOf_of_getElem? nodup found
      have member : p ∈ world.members := List.mem_of_getElem? found
      have small : world.pid p < requested := index ▸ below
      rw [if_pos (mem_machine.mpr ⟨member, small⟩), List.mem_singleton,
        machine_pid nodup member small, machine_nprocs nodup enough, group,
        Nat.mod_eq_of_lt small, index]
  have starts : started event = some ⟨world.members, requested⟩ := by
    rcases layout.machine_split with ⟨time, members, split⟩
    have leader : layout.machine.members.head? = some root :=
      (head?_machine nodup positive).trans first
    rcases List.head?_eq_some_iff.mp leader with ⟨rest, listed⟩
    have members_eq : members = root :: rest := by
      rw [split] at listed
      exact listed
    have root_notes : event.notes root =
        [.ran (layout.group root) (layout.machine.pid root) layout.machine.nprocs] := by
      rw [noted root, if_pos (listed ▸ List.mem_cons_self)]
    rw [started, there, split]
    simp only [members_eq, List.flatMap_cons, root_notes, List.cons_append]
    rw [machine_nprocs nodup enough]
  refine ⟨⟨?_, ?_, ?_⟩, starts⟩
  · intro execution found
    obtain rfl : ⟨world.members, requested⟩ = execution :=
      Option.some.inj (starts.symm.trans found)
    refine ⟨layout.sub, ran, ?_, ?_, ?_⟩
    · intro pid below
      exact head?_sub nodup below enough
    · intro pid below
      rw [Comm.nprocs, layout.sub_members]
      exact length_subgroup_eq nodup below
    · simp only [Comm.nprocs, layout.sub_members]
      exact sum_subgroups nodup positive
  · intro none
    rw [starts] at none
    cases none
  · intro world' leader _ p _ _
    have silent (q : ℕ) (note : Note) (other : ∀ sub pid nprocs, note ≠ .ran sub pid nprocs) :
        note ∉ event.notes q := by
      intro remark
      rcases (ran q note).mp remark with ⟨pid, _, _, same⟩
      exact other _ _ _ same
    exact iff_of_false (silent p _ (by simp)) (silent leader _ (by simp))

theorem reach_hook (enough : requested ≤ world.nprocs) (spmd : Spmd) (later : ℕ → Code) :
    Reach
      (layout.stage outside back fun p =>
        .invoke (.hook p layout.machine (layout.group p) false spmd) (later p))
      (layout.stage outside back fun p =>
        supersteps p layout.machine (layout.group p) false spmd (List.range spmd.rounds) (later p))
      [⟨world.members, requested⟩] := by
  have leader : layout.machine.members.head? = some root :=
    (head?_machine nodup positive).trans first
  change Reach _ _ ((some (⟨world.members, requested⟩ : Execution)).toList ++ [])
  refine reach_call (fun _ => .context 0)
    (fun p _ => [.ran (layout.group p) (layout.machine.pid p) layout.machine.nprocs])
    (fun p _ => supersteps p layout.machine (layout.group p) false spmd
      (List.range spmd.rounds) (later p)) leader ?_ (fun _ _ _ _ => rfl) ?_ fun time => ?_
  · intro p member
    rcases mem_machine.mp member with ⟨member, small⟩
    rw [stage_of_requested member small]
    rfl
  · rintro event there ⟨time, noted⟩
    exact sound_of_started nodup positive first enough there noted
  · rw [within_machine_stage]
    exact Reaches.refl _

end Machine

/-- The requested processes call `lpf_exec`, each with a group of its own. -/
theorem reach_round (nodup : world.members.Nodup) (enough : requested ≤ world.nprocs)
    (scripts : ℕ → Script) (serves : ∀ pid < requested, Serves (scripts pid))
    (later : ℕ → Code) :
    Reach
      (layout.stage outside back fun p =>
        (scripts (world.pid p)).run p (layout.group p) false (later p))
      (layout.stage outside back later)
      ((List.range requested).flatMap fun pid =>
        (scripts pid).executions (subgroup world.members requested pid)) := by
  let halfway (count : ℕ) : ℕ → Code := layout.stage outside back fun p =>
    if world.pid p < count then later p
    else (scripts (world.pid p)).run p (layout.group p) false (later p)
  have none : halfway 0 = layout.stage outside back fun p =>
      (scripts (world.pid p)).run p (layout.group p) false (later p) := by
    simp only [halfway, Nat.not_lt_zero, if_false]
  have all : halfway requested = layout.stage outside back later := by
    funext p
    by_cases member : p ∈ world.members
    · by_cases small : world.pid p < requested
      · simp only [halfway, stage_of_requested member small, if_pos small]
      · simp only [halfway, stage_of_other member small]
    · simp only [halfway, stage, within_of_not_mem member]
  rw [← none, ← all]
  refine Reaches.iterate requested fun pid below => ?_
  have inside : pid < world.members.length := Nat.lt_of_lt_of_le below enough
  have found : world.members[pid]? = some world.members[pid] := List.getElem?_eq_getElem inside
  have index : world.pid world.members[pid] = pid := idxOf_of_getElem? nodup found
  have member : world.members[pid] ∈ world.members := List.getElem_mem inside
  have leader : (layout.sub pid).members.head? = some world.members[pid] :=
    (head?_sub nodup below enough).trans found
  have updated : Function.update (halfway pid) world.members[pid] (later world.members[pid]) =
      halfway (pid + 1) := by
    funext p
    by_cases here : p = world.members[pid]
    · subst here
      rw [Function.update_self]
      simp only [halfway]
      rw [stage_of_requested member (index.trans_lt below), if_pos (by omega)]
    · rw [Function.update_of_ne here]
      have other (listed : p ∈ world.members) : world.pid p ≠ pid := by
        rintro rfl
        exact here (Option.some.inj ((getElem?_idxOf listed).symm.trans found))
      by_cases listed : p ∈ world.members
      · by_cases small : world.pid p < requested
        · have same : (world.pid p < pid + 1) = (world.pid p < pid) := by
            have := other listed
            exact propext (by omega)
          simp only [halfway, stage_of_requested listed small, same]
        · simp only [halfway, stage_of_other listed small]
      · simp only [halfway, stage, within_of_not_mem listed]
  rw [← updated, ← layout.sub_members pid]
  refine serves pid below (sub_nodup nodup) leader ?_ ?_
  · simp only [halfway]
    rw [stage_of_requested member (index.trans_lt below), index, if_neg (Nat.lt_irrefl pid),
      group_of_mem_sub (List.mem_of_mem_head? leader)]
  · intro p listed different
    rcases mem_sub.mp listed with ⟨listed', remainder⟩
    have large : ¬world.pid p < requested := by
      intro small
      rw [Nat.mod_eq_of_lt small] at remainder
      apply different
      exact Option.some.inj ((getElem?_idxOf listed').symm.trans (remainder ▸ found))
    refine ⟨free (layout.group p) (layout.leaving back p), ?_⟩
    simp only [halfway, stage_of_other listed' large]
    rw [serving, group_of_mem_sub listed]

theorem supersteps_cons (p : ℕ) (machine subprocess : Comm) (aborted : Bool) (spmd : Spmd)
    (round : ℕ) (rounds : List ℕ) (next : Code) :
    supersteps p machine subprocess aborted spmd (round :: rounds) next =
      (spmd.code round (machine.pid p) machine.nprocs).run p subprocess aborted
        (.call machine (.context (round + 1)) (fun _ => []) fun _ =>
          supersteps p machine subprocess aborted spmd rounds next) := rfl

theorem reach_supersteps (nodup : world.members.Nodup) (positive : 0 < requested)
    (first : world.members.head? = some root) (enough : requested ≤ world.nprocs) (spmd : Spmd)
    (rounds : List ℕ)
    (serves : ∀ round ∈ rounds, ∀ pid < requested, Serves (spmd.code round pid requested))
    (later : ℕ → Code) :
    Reach
      (layout.stage outside back fun p =>
        supersteps p layout.machine (layout.group p) false spmd rounds (later p))
      (layout.stage outside back later)
      (rounds.flatMap fun round => (List.range requested).flatMap fun pid =>
        (spmd.code round pid requested).executions (subgroup world.members requested pid)) := by
  induction rounds with
  | nil => exact Reaches.refl _
  | cons round rounds ih =>
      have begins : (layout.stage outside back fun p =>
          supersteps p layout.machine (layout.group p) false spmd (round :: rounds) (later p)) =
          layout.stage outside back fun p => (spmd.code round (world.pid p) requested).run p
            (layout.group p) false
            (.call layout.machine (.context (round + 1)) (fun _ => []) fun _ =>
              supersteps p layout.machine (layout.group p) false spmd rounds (later p)) := by
        funext p
        by_cases member : p ∈ world.members
        · by_cases small : world.pid p < requested
          · rw [stage_of_requested member small, stage_of_requested member small,
              supersteps_cons, machine_pid nodup member small, machine_nprocs nodup enough]
          · rw [stage_of_other member small, stage_of_other member small]
        · rw [stage, stage, within_of_not_mem member, within_of_not_mem member]
      rw [begins, List.flatMap_cons]
      refine (reach_round nodup enough (fun pid => spmd.code round pid requested)
        (fun pid below => serves round List.mem_cons_self pid below) _).trans ?_
      have rest := ih fun round member => serves round (List.mem_cons_of_mem _ member)
      exact (reach_context nodup positive first (round + 1) _).trans rest

/-- The event in which the destructor of a root lets the slaves go. -/
theorem sound_of_dissolved {comm : Comm} {event : Event network Note}
    (leader : comm.members.head? = some root)
    (noted : ∀ p, event.notes p = if p ∈ comm.members then
      if p = root then [.destroyed comm] else [.left comm] else []) :
    Sound event ∧ started event = none := by
  have remarks (p : ℕ) (note : Note) (remark : note ∈ event.notes p) :
      note = .destroyed comm ∧ p = root ∨ note = .left comm := by
    rw [noted p] at remark
    split at remark
    · split at remark
      · exact .inl ⟨List.mem_singleton.mp remark, ‹_›⟩
      · exact .inr (List.mem_singleton.mp remark)
    · cases remark
  have idle (p : ℕ) (sub : Comm) (pid nprocs : ℕ) : .ran sub pid nprocs ∉ event.notes p := by
    intro remark
    rcases remarks p _ remark with ⟨same, _⟩ | same <;> cases same
  have starts : started event = none := by
    unfold started
    cases event.comm with
    | world size => rfl
    | split world time members =>
        cases listed : members.flatMap event.notes with
        | nil => simp only [listed]
        | cons note notes =>
            have member : note ∈ members.flatMap event.notes := listed ▸ List.mem_cons_self
            rcases List.mem_flatMap.mp member with ⟨p, _, remark⟩
            rcases remarks p note remark with ⟨rfl, _⟩ | rfl <;> simp only [listed]
  refine ⟨⟨?_, fun _ => idle, ?_⟩, starts⟩
  · intro execution found
    rw [starts] at found
    cases found
  · intro world leader' first p member different
    have root_member : root ∈ comm.members := List.mem_of_mem_head? leader
    by_cases same : world = comm
    · subst same
      obtain rfl : root = leader' := Option.some.inj (leader.symm.trans first)
      rw [noted p, noted root, if_pos member, if_pos root_member, if_neg different, if_pos rfl]
      simp
    · refine iff_of_false (fun remark => ?_) fun remark => ?_
      · rcases remarks p _ remark with ⟨wrong, _⟩ | wrong
        · cases wrong
        · exact same (Note.left.inj wrong)
      · rcases remarks leader' _ remark with ⟨wrong, _⟩ | wrong
        · exact same (Note.destroyed.inj wrong)
        · cases wrong

theorem reach_free {comm : Comm} {before next : ℕ → Code} {first : ℕ}
    (leader : comm.members.head? = some first)
    (called : ∀ p ∈ comm.members, before p = free comm (next p)) :
    Reach before (within comm next before) [] := by
  refine reach_silent (fun _ => .free) (fun _ _ => []) (fun p _ => next p) leader ?_
    (fun _ _ _ _ => trivial) (fun _ _ _ => rfl) fun time => Reaches.refl _
  intro p member
  rw [called p member]
  rfl

/-- The object of a root is destroyed and all slaves leave. -/
theorem reach_destroy {comm : Comm} {before next : ℕ → Code} {leader : ℕ}
    (first : comm.members.head? = some leader)
    (root : before leader = destroy comm false (next leader))
    (slaves : ∀ p ∈ comm.members, p ≠ leader → before p = .invoke (.slave p comm) (next p)) :
    Reach before (within comm next before) [] := by
  let remarks (p requestedProcs : ℕ) : List Note :=
    if p = leader then [.destroyed comm] else if 0 < requestedProcs then [] else [.left comm]
  let onwards (p requestedProcs : ℕ) : Code :=
    if p = leader then next p
    else if 0 < requestedProcs then
      exec p comm false requestedProcs true none (.invoke (.slave p comm) (next p))
    else next p
  have released (p : ℕ) : onwards p 0 = next p := by
    simp only [onwards, Nat.lt_irrefl, if_false, ite_self]
  change Reach _ _ ((none : Option Execution).toList ++ [])
  refine reach_call (fun _ => .broadcast 0) remarks onwards first ?_
    (fun _ _ _ _ => trivial) ?_ fun time => ?_
  · intro p member
    by_cases here : p = leader
    · subst here
      simp only [root, remarks, onwards, if_true]
      rfl
    · simp only [slaves p member here, remarks, onwards, if_neg here]
      rfl
  · rintro event _ ⟨time, noted⟩
    refine sound_of_dissolved first fun p => ?_
    rw [noted p, answers_broadcast (fun _ => 0) first]
    simp only [remarks, Nat.lt_irrefl, if_false]
  · have same : (fun p => onwards p (answers comm (fun _ => .broadcast 0) time p)) = next := by
      funext p
      rw [answers_broadcast (fun _ => 0) first, released]
    exact same ▸ Reaches.refl _

/-- After that all free the communicator. -/
theorem reach_dissolve {comm : Comm} {before next : ℕ → Code} {leader : ℕ}
    (first : comm.members.head? = some leader)
    (root : before leader = destroy comm false (free comm (next leader)))
    (slaves : ∀ p ∈ comm.members, p ≠ leader →
      before p = .invoke (.slave p comm) (free comm (next p))) :
    Reach before (within comm next before) [] := by
  have freed : Reach (within comm (fun p => free comm (next p)) before)
      (within comm next (within comm (fun p => free comm (next p)) before)) [] :=
    reach_free first fun p member => within_of_mem member
  rw [within_within] at freed
  exact (reach_destroy first root slaves).trans freed

/-- One group after the other is dissolved. -/
theorem reach_returning (nodup : world.members.Nodup) (positive : 0 < requested)
    (enough : requested ≤ world.nprocs) :
    Reach (layout.stage outside back (layout.returning back))
      (within world (layout.leaving back) outside) [] := by
  let halfway (count : ℕ) : ℕ → Code := within world
    (fun p =>
      if world.pid p % requested < count then layout.leaving back p
      else if world.pid p < requested then layout.returning back p
      else layout.serving back p) outside
  have none : halfway 0 = layout.stage outside back (layout.returning back) := by
    simp only [halfway, Nat.not_lt_zero, if_false]
    rfl
  have all : halfway requested = within world (layout.leaving back) outside := by
    simp only [halfway, Nat.mod_lt _ positive, if_true]
  have nothing : ((List.range requested).flatMap fun _ => ([] : List Execution)) = [] := by simp
  rw [← none, ← all, ← nothing]
  refine Reaches.iterate requested fun pid below => ?_
  have inside : pid < world.members.length := Nat.lt_of_lt_of_le below enough
  have found : world.members[pid]? = some world.members[pid] := List.getElem?_eq_getElem inside
  have index : world.pid world.members[pid] = pid := idxOf_of_getElem? nodup found
  have leader : (layout.sub pid).members.head? = some world.members[pid] :=
    (head?_sub nodup below enough).trans found
  have stepped : within (layout.sub pid) (layout.leaving back) (halfway pid) =
      halfway (pid + 1) := by
    funext p
    by_cases member : p ∈ world.members
    · by_cases here : world.pid p % requested = pid
      · rw [within_of_mem (mem_sub.mpr ⟨member, here⟩)]
        simp only [halfway, within_of_mem member]
        rw [if_pos (by omega)]
      · have away : p ∉ (layout.sub pid).members := fun listed => here (mem_sub.mp listed).2
        have same : (world.pid p % requested < pid + 1) = (world.pid p % requested < pid) :=
          propext (by omega)
        rw [within_of_not_mem away]
        simp only [halfway, within_of_mem member, same]
    · have away : p ∉ (layout.sub pid).members := fun listed => member (mem_sub.mp listed).1
      rw [within_of_not_mem away]
      simp only [halfway, within_of_not_mem member]
  rw [← stepped]
  refine reach_dissolve leader ?_ ?_
  · have listed := List.mem_of_mem_head? leader
    simp only [halfway]
    rw [within_of_mem (mem_sub.mp listed).1, if_neg (by rw [(mem_sub.mp listed).2]; omega),
      if_pos (index.trans_lt below), returning, group_of_mem_sub listed]
  · intro p listed different
    rcases mem_sub.mp listed with ⟨member, remainder⟩
    have large : ¬world.pid p < requested := by
      intro small
      rw [Nat.mod_eq_of_lt small] at remainder
      apply different
      exact Option.some.inj ((getElem?_idxOf member).symm.trans (remainder ▸ found))
    simp only [halfway]
    rw [within_of_mem member, if_neg (by omega), if_neg large, serving, group_of_mem_sub listed]

/-- At the end of an exec the communicators of both parts of the world are freed. -/
theorem reach_leaving (nodup : world.members.Nodup) (positive : 0 < requested)
    (first : world.members.head? = some root) :
    Reach (within world (layout.leaving back) outside) (within world back outside) [] := by
  have machine_freed : Reach (within world (layout.leaving back) outside)
      (within layout.machine back (within world (layout.leaving back) outside)) [] := by
    refine reach_free ((head?_machine nodup positive).trans first) fun p listed => ?_
    rw [within_of_mem (mem_machine.mp listed).1]
    exact congrArg (fun comm => free comm (back p)) (if_pos (mem_machine.mp listed).2)
  refine machine_freed.trans ?_
  cases others : layout.others.members with
  | nil =>
      have same : within layout.machine back (within world (layout.leaving back) outside) =
          within world back outside := by
        funext p
        by_cases member : p ∈ world.members
        · have small : world.pid p < requested := by
            by_contra large
            have listed : p ∈ layout.others.members :=
              mem_others.mpr ⟨member, Nat.le_of_not_lt large⟩
            rw [others] at listed
            cases listed
          rw [within_of_mem (mem_machine.mpr ⟨member, small⟩), within_of_mem member]
        · have away : p ∉ layout.machine.members := fun listed => member (mem_machine.mp listed).1
          rw [within_of_not_mem away, within_of_not_mem member, within_of_not_mem member]
      exact same ▸ Reaches.refl _
  | cons leader rest =>
      have first_other : layout.others.members.head? = some leader := by rw [others]; rfl
      have others_freed : Reach
          (within layout.machine back (within world (layout.leaving back) outside))
          (within layout.others back
            (within layout.machine back (within world (layout.leaving back) outside))) [] := by
        refine reach_free first_other fun p listed => ?_
        rcases mem_others.mp listed with ⟨member, large⟩
        have away : p ∉ layout.machine.members := fun here =>
          Nat.not_lt_of_le large (mem_machine.mp here).2
        rw [within_of_not_mem away, within_of_mem member]
        exact congrArg (fun comm => free comm (back p)) (if_neg (Nat.not_lt_of_le large))
      have same : within layout.others back
          (within layout.machine back (within world (layout.leaving back) outside)) =
            within world back outside := by
        funext p
        by_cases member : p ∈ world.members
        · rw [within_of_mem member]
          by_cases small : world.pid p < requested
          · have away : p ∉ layout.others.members := fun here =>
              Nat.not_lt_of_le (mem_others.mp here).2 small
            rw [within_of_not_mem away, within_of_mem (mem_machine.mpr ⟨member, small⟩)]
          · rw [within_of_mem (mem_others.mpr ⟨member, Nat.le_of_not_lt small⟩)]
        · have away : p ∉ layout.machine.members := fun here => member (mem_machine.mp here).1
          have away' : p ∉ layout.others.members := fun here => member (mem_others.mp here).1
          rw [within_of_not_mem away', within_of_not_mem away, within_of_not_mem member,
            within_of_not_mem member]
      exact same ▸ others_freed

end Layout

section Exec

variable {world : Comm} {requested root : ℕ} {outside back : ℕ → Code} {seen : List Execution}

/-- The layout that results from two splits of the world. -/
def Layout.ofSplits (world : Comm) (requested time time' : ℕ) : Layout world requested where
  machine := .split world time (world.members.filter fun p => world.pid p < requested)
  others := .split world time (world.members.filter fun p => requested ≤ world.pid p)
  sub pid := .split world time' (subgroup world.members requested pid)
  machine_split := ⟨_, _, rfl⟩
  machine_members := rfl
  others_members := rfl
  sub_members _ := rfl

theorem answers_machine (time time' p : ℕ) :
    answers world (fun q => .split (if world.pid q < requested then 1 else 0)) time p =
      (Layout.ofSplits world requested time time').own p := by
  rw [answers_split]
  by_cases small : world.pid p < requested
  · have colored : (world.members.filter fun q =>
        (if world.pid q < requested then 1 else 0) = if world.pid p < requested then 1 else 0) =
        world.members.filter fun q => world.pid q < requested := by
      refine List.filter_congr fun q _ => ?_
      by_cases also : world.pid q < requested <;> simp [small, also]
    rw [colored]
    exact (if_pos small).symm
  · have colored : (world.members.filter fun q =>
        (if world.pid q < requested then 1 else 0) = if world.pid p < requested then 1 else 0) =
        world.members.filter fun q => requested ≤ world.pid q := by
      refine List.filter_congr fun q _ => ?_
      by_cases also : world.pid q < requested
      · simp [small, also]
      · simp [small, also, Nat.le_of_not_lt also]
    rw [colored]
    exact (if_neg small).symm

theorem answers_group (time time' p : ℕ) :
    answers world (fun q => .split (world.pid q % requested)) time' p =
      (Layout.ofSplits world requested time time').group p :=
  answers_split _

/-- The code of an exec after both splits. -/
def joined (layout : Layout world requested) (symbol : ℕ → Option Spmd) (back : ℕ → Code)
    (p : ℕ) : Code :=
  .call layout.machine (.broadcastSymbol (symbol p)) (fun _ => []) fun (symbol : Option Spmd) =>
    match symbol with
    | none => .fault
    | some spmd =>
        .invoke (.hook p layout.machine (layout.group p) false spmd) (layout.returning back p)

theorem reach_splits {after : ℕ → Code} (nodup : world.members.Nodup)
    (positive : 0 < requested) (enough : requested ≤ world.nprocs)
    (first : world.members.head? = some root) (symbol : ℕ → Option Spmd)
    (rest : ∀ layout : Layout world requested,
      Reach (layout.stage outside back (joined layout symbol back)) after seen) :
    Reach (within world (fun p => join p world requested (symbol p) (back p)) outside)
      after seen := by
  let settled (p : ℕ) (machine group : Comm) : Code :=
    construct p group fun aborted =>
      let leave := destroy group aborted (free group (free machine (back p)))
      if world.pid p < requested then
        .call machine (.broadcastSymbol (symbol p)) (fun _ => []) fun (symbol : Option Spmd) =>
          match symbol with
          | none => .fault
          | some spmd => .invoke (.hook p machine group aborted spmd) leave
      else leave
  let grouped (p : ℕ) (machine : Comm) : Code :=
    if world.pid p = 0 ∧ machine.pid p ≠ 0 then .fault
    else .call world (.split (world.pid p % requested)) (fun _ => []) (settled p machine)
  refine reach_silent (fun p => .split (if world.pid p < requested then 1 else 0))
    (fun _ _ => []) grouped first ?_ (fun _ _ _ _ => trivial) (fun _ _ _ => rfl) fun time => ?_
  · intro p member
    rw [within_of_mem member]
    rfl
  rw [within_within]
  refine reach_silent (fun p => .split (world.pid p % requested)) (fun _ _ => [])
    (fun p group => settled p ((Layout.ofSplits world requested time 0).own p) group) first ?_
    (fun _ _ _ _ => trivial) (fun _ _ _ => rfl) fun time' => ?_
  · intro p member
    have machine : answers world
        (fun q => .split (if world.pid q < requested then 1 else 0)) time p =
          (Layout.ofSplits world requested time 0).own p := answers_machine time 0 p
    have rooted : ¬(world.pid p = 0 ∧
        ((Layout.ofSplits world requested time 0).own p).pid p ≠ 0) := by
      rintro ⟨zero, wrong⟩
      have small : world.pid p < requested := zero ▸ positive
      apply wrong
      rw [Layout.own, if_pos small, Layout.machine_pid nodup member small, zero]
    rw [within_of_mem member, machine]
    simp only [grouped, if_neg rooted]
    rfl
  rw [within_within]
  let layout := Layout.ofSplits world requested time time'
  have split : within world (fun p => settled p ((Layout.ofSplits world requested time 0).own p)
      (answers world (fun q => .split (world.pid q % requested)) time' p)) outside =
      layout.stage outside back (joined layout symbol back) := by
    funext p
    by_cases member : p ∈ world.members
    · rw [within_of_mem member, answers_group time]
      change settled p (layout.own p) (layout.group p) = _
      by_cases small : world.pid p < requested
      · have leader : (layout.group p).pid p = 0 := by
          have found : (layout.group p).members.head? = some p := by
            rw [Layout.group, Nat.mod_eq_of_lt small, Layout.head?_sub nodup small enough]
            exact getElem?_idxOf member
          rcases List.head?_eq_some_iff.mp found with ⟨others, members⟩
          rw [Comm.pid, members, List.idxOf_cons_self]
        rw [Layout.stage_of_requested member small]
        simp only [settled, construct, leader, joined, Layout.returning, Layout.leaving,
          Layout.own, if_pos small]
        rfl
      · have slave : (layout.group p).pid p ≠ 0 := by
          intro zero
          have below : world.pid p % requested < requested := Nat.mod_lt _ positive
          have listed : p ∈ (layout.group p).members := Layout.mem_sub.mpr ⟨member, rfl⟩
          have found : (layout.group p).members.head? = some p := by
            rw [List.head?_eq_getElem?, ← zero]
            exact getElem?_idxOf listed
          rw [Layout.group, Layout.head?_sub nodup below enough] at found
          have index : world.pid p = world.pid p % requested := idxOf_of_getElem? nodup found
          exact small (index.trans_lt below)
        rw [Layout.stage_of_other member small]
        simp only [settled, construct, if_neg small]
        exact if_pos slave
    · rw [within_of_not_mem member, Layout.stage, within_of_not_mem member]
  exact split ▸ rest layout

/-- All processes of a world take part in an exec. -/
theorem reach_join (nodup : world.members.Nodup) (positive : 0 < requested)
    (enough : requested ≤ world.nprocs) (first : world.members.head? = some root)
    (symbol : ℕ → Option Spmd) {spmd : Spmd} (known : symbol root = some spmd)
    (serves : ∀ round < spmd.rounds, ∀ pid < requested, Serves (spmd.code round pid requested)) :
    Reach (within world (fun p => join p world requested (symbol p) (back p)) outside)
      (within world back outside)
      (⟨world.members, requested⟩ :: (List.range spmd.rounds).flatMap fun round =>
        (List.range requested).flatMap fun pid =>
          (spmd.code round pid requested).executions (subgroup world.members requested pid)) := by
  refine reach_splits nodup positive enough first symbol fun layout => ?_
  have left : Reach (layout.stage outside back (layout.returning back))
      (within world back outside) [] :=
    (Layout.reach_returning nodup positive enough).trans
      (Layout.reach_leaving nodup positive first)
  have ran := (Layout.reach_supersteps nodup positive first enough spmd (List.range spmd.rounds)
    (fun round member => serves round (List.mem_range.mp member)) _).trans left
  rw [List.append_nil] at ran
  exact (Layout.reach_broadcastSymbol nodup positive first known _).trans
    ((Layout.reach_hook nodup positive first enough spmd _).trans ran)

end Exec

theorem pid_eq_zero_iff {world : Comm} {root p : ℕ} (first : world.members.head? = some root)
    (member : p ∈ world.members) : world.pid p = 0 ↔ p = root := by
  rcases List.head?_eq_some_iff.mp first with ⟨others, members⟩
  constructor
  · intro zero
    have found := getElem?_idxOf member
    change world.members[world.pid p]? = some p at found
    rw [zero, members] at found
    exact (Option.some.inj found).symm
  · rintro rfl
    rw [Comm.pid, members, List.idxOf_cons_self]

theorem exec_root {p : ℕ} {world : Comm} (root : world.pid p = 0) (P : ℕ) (symbol : Option Spmd)
    (next : Code) :
    exec p world false P true symbol next =
      .call world (.broadcast (min world.nprocs P)) (fun _ => []) fun (requestedProcs : ℕ) =>
        join p world requestedProcs symbol next := by
  simp [exec, root]

theorem exec_slave {p : ℕ} {world : Comm} (slave : world.pid p ≠ 0) (P : ℕ)
    (symbol : Option Spmd) (next : Code) :
    exec p world false P true symbol next = join p world P symbol next := by
  simp [exec, slave]

theorem broadcast_congr {world : Comm} {value value' : ℕ} (same : value = value')
    (notes : ℕ → List Note) (next : ℕ → Code) :
    (⟨world, .broadcast value, notes, next⟩ : Call network Proc Note) =
      ⟨world, .broadcast value', notes, next⟩ := by
  subst same
  rfl

/-- The root wakes up its slaves, and all of them call `exec`. -/
theorem reach_wake {world : Comm} {root P : ℕ} {before : ℕ → Code} {symbol : ℕ → Option Spmd}
    {back : ℕ → Code} (first : world.members.head? = some root) (positive : 0 < P)
    (running : before root = exec root world false P true (symbol root) (back root))
    (slaves : ∀ p ∈ world.members, p ≠ root → symbol p = none ∧ back p = before p ∧
      ∃ later, before p = .invoke (.slave p world) later) :
    Reach before
      (within world (fun p => join p world (min world.nprocs P) (symbol p) (back p)) before)
      [] := by
  have root_member := List.mem_of_mem_head? first
  have zero : world.pid root = 0 := (pid_eq_zero_iff first root_member).mpr rfl
  have someone : 0 < world.nprocs := List.length_pos_of_mem root_member
  have requested : 0 < min world.nprocs P := Nat.lt_min.mpr ⟨someone, positive⟩
  have nonempty : Nonempty Code := ⟨.done⟩
  choose! quiet stay later waiting using slaves
  let remarks (p requestedProcs : ℕ) : List Note :=
    if p = root then [] else if 0 < requestedProcs then [] else [.left world]
  let onwards (p : ℕ) (requestedProcs : ℕ) : Code :=
    if p = root then join p world requestedProcs (symbol p) (back p)
    else if 0 < requestedProcs then
      exec p world false requestedProcs true none (.invoke (.slave p world) (later p))
    else later p
  have called (p : ℕ) (member : p ∈ world.members) : (before p).head body =
      some ⟨world, .broadcast (if p = root then min world.nprocs P else 0), remarks p,
        onwards p⟩ := by
    by_cases here : p = root
    · subst here
      rw [running, exec_root zero]
      simp only [remarks, onwards, if_true]
      exact congrArg some (broadcast_congr (if_pos rfl).symm _ _)
    · rw [waiting p member here]
      simp only [remarks, onwards, if_neg here]
      exact congrArg some (broadcast_congr (if_neg here).symm _ _)
  refine reach_silent (fun p => .broadcast (if p = root then min world.nprocs P else 0))
    remarks onwards first called (fun _ _ _ _ => trivial) ?_ fun time => ?_
  · intro time p _
    rw [answers_broadcast _ first, if_pos rfl]
    simp only [remarks, if_pos requested, ite_self]
  · have same : within world (fun p => onwards p (answers world
          (fun p => .broadcast (if p = root then min world.nprocs P else 0)) time p)) before =
        within world (fun p => join p world (min world.nprocs P) (symbol p) (back p)) before := by
      funext p
      by_cases member : p ∈ world.members
      · rw [within_of_mem member, within_of_mem member, answers_broadcast _ first, if_pos rfl]
        by_cases here : p = root
        · exact if_pos here
        · have slave : world.pid p ≠ 0 := fun zero => here ((pid_eq_zero_iff first member).mp zero)
          simp only [onwards, if_neg here, if_pos requested]
          rw [exec_slave slave, quiet p member here, stay p member here, waiting p member here]
      · rw [within_of_not_mem member, within_of_not_mem member]
    exact same ▸ Reaches.refl _

theorem serves (script : Script) : Serves script := by
  induction script with
  | finish =>
      intro world root before next _ _ running _
      have same : Function.update before root next = before :=
        (congrArg (Function.update before root) running.symm).trans
          (Function.update_eq_self root before)
      rw [same]
      exact Reaches.refl _
  | exec P found rounds code rest served ih =>
      intro world root before next nodup first running slaves
      cases found with
      | false => exact ih nodup first running slaves
      | true =>
          have root_member := List.mem_of_mem_head? first
          have someone : 0 < world.nprocs := List.length_pos_of_mem root_member
          have positive : 0 < min world.nprocs P := Nat.lt_min.mpr ⟨someone, P.pos⟩
          let symbol (p : ℕ) : Option Spmd := if p = root then some ⟨rounds, code⟩ else none
          let later : Code := rest.run root world false next
          let back : ℕ → Code := Function.update before root later
          have known : symbol root = some ⟨rounds, code⟩ := if_pos rfl
          have returned : back root = later := Function.update_self _ _ _
          have woken : Reach before (within world
              (fun p => join p world (min world.nprocs P) (symbol p) (back p)) before) [] := by
            refine reach_wake first P.pos ?_ fun p member different =>
              ⟨if_neg different, Function.update_of_ne different _ _, slaves p member different⟩
            rw [running, known, returned]
            rfl
          have joined : Reach (within world
              (fun p => join p world (min world.nprocs P) (symbol p) (back p)) before)
              (within world back before) _ :=
            reach_join nodup positive (Nat.min_le_left _ _) first symbol known
              fun round _ pid _ => served round pid _
          have same : within world back before = back := by
            funext p
            by_cases member : p ∈ world.members
            · exact within_of_mem member
            · have different : p ≠ root := fun here => member (here ▸ root_member)
              rw [within_of_not_mem member]
              exact (Function.update_of_ne different _ _).symm
          rw [same] at joined
          have finished : Reach back (Function.update back root next)
              (rest.executions world.members) := by
            refine ih nodup first (Function.update_self _ _ _) fun p member different => ?_
            rcases slaves p member different with ⟨after, waiting⟩
            exact ⟨after, (Function.update_of_ne different _ _).trans waiting⟩
          have idem : Function.update back root next = Function.update before root next :=
            Function.update_idem _ _ _
          rw [idem] at finished
          exact woken.trans (joined.trans finished)

theorem run_aborted (p : ℕ) (world : Comm) (script : Script) (next : Code) :
    script.run p world true next = next := by
  induction script with
  | finish => rfl
  | exec P found rounds code rest _ ih => exact ih

/-- In some order of the collectives, the root carries out its script and all processes end. -/
theorem reach_end {n : ℕ} (some : 0 < n) (script : Script) :
    Reach (start n script).program (fun _ => .done) (script.executions (List.range n)) := by
  let before : ℕ → Code := (start n script).program
  have first : (Comm.world n).members.head? = .some 0 := by
    rw [Comm.members, List.head?_range, if_neg (Nat.ne_of_gt some)]
  have pid (p : ℕ) (member : p ∈ (Comm.world n).members) : (Comm.world n).pid p = 0 ↔ p = 0 :=
    pid_eq_zero_iff first member
  have root : before 0 = script.run 0 (.world n) false (destroy (.world n) false .done) := by
    have zero := (pid 0 (List.mem_range.mpr some)).mpr rfl
    simp only [before, start, some, construct, zero, if_true]
    rfl
  have slaves (p : ℕ) (member : p ∈ (Comm.world n).members) (different : p ≠ 0) :
      before p = .invoke (.slave p (.world n)) .done := by
    have slave : (Comm.world n).pid p ≠ 0 := fun zero => different ((pid p member).mp zero)
    have below : p < n := List.mem_range.mp member
    simp only [before, start, if_pos below, construct, if_pos slave, run_aborted]
    rfl
  have nodup : (Comm.world n).members.Nodup := List.nodup_range
  have served := serves script nodup first root fun p member different =>
    ⟨_, slaves p member different⟩
  have ended := Layout.reach_destroy first
    (Function.update_self 0 (destroy (.world n) false .done) before) fun p member different =>
      (Function.update_of_ne different _ _).trans (slaves p member different)
  have same : within (.world n) (fun _ => .done)
      (Function.update before 0 (destroy (.world n) false .done)) = fun _ => .done := by
    funext p
    by_cases member : p ∈ (Comm.world n).members
    · exact within_of_mem member
    · have different : p ≠ 0 := fun here => member (here ▸ List.mem_range.mpr some)
      have above : ¬p < n := fun below => member (List.mem_range.mpr below)
      rw [within_of_not_mem member, Function.update_of_ne different]
      exact if_neg above
  rw [same] at ended
  have whole := served.trans ended
  rwa [List.append_nil] at whole

/-- The same collectives take place in every order.  The calls of the members of a communicator
match, and every run can go on until all processes have ended; an exec on a world of `n`
processes then has run the SPMD function on the first `min P n` of them. -/
theorem exec_protocol {n : ℕ} (some : 0 < n) (script : Script) :
    ∃ collectives : List (Event network Note),
      collectives.filterMap started = script.executions (List.range n) ∧
      (∀ event ∈ collectives, Sound event) ∧
      ∀ events state, Runs body (start n script) events state →
        (∀ comm p q op other, Waits body state p comm op → Waits body state q comm other →
          p ∈ comm.members ∧ op.Matches other) ∧
        ∃ later final, Runs body state later final ∧ (∀ p, final.program p = .done) ∧
          (events ++ later).Perm collectives := by
  rcases reach_end some script (start n script) rfl with
    ⟨collectives, final, run, done, sound, executed⟩
  have ended (p : ℕ) : final.program p = .done := congrFun done p
  have quiet : Quiet body final := fun p => by rw [ended p]; rfl
  refine ⟨collectives, executed, sound, fun events state partly => ?_⟩
  rcases run.complete quiet partly with ⟨later, onwards, shuffled⟩
  refine ⟨?_, later, final, onwards, ended, shuffled⟩
  intro comm p q op other waits waits'
  rcases onwards.matching quiet waits with ⟨ops, member, matching, agree⟩
  rcases onwards.matching quiet waits' with ⟨_, member', _⟩
  refine ⟨member, ?_⟩
  have op_eq : ops ⟨p, member⟩ = op := agree ⟨p, member⟩ op waits
  have other_eq : ops ⟨q, member'⟩ = other := agree ⟨q, member'⟩ other waits'
  exact op_eq ▸ other_eq ▸ matching ⟨p, member⟩ ⟨q, member'⟩

/-- Three processes; the root runs a function on two of them, which start one on all they have. -/
theorem exec_protocol_nested :
    ∃ collectives : List (Event network Note),
      collectives.filterMap started = [⟨[0, 1, 2], 2⟩, ⟨[0, 2], 2⟩, ⟨[1], 1⟩] ∧
      ∃ later final, Runs body
          (start 3 (.exec 2 true 1 (fun _ _ _ => .exec 5 true 0 (fun _ _ _ => .finish) .finish)
            (.exec 3 false 0 (fun _ _ _ => .finish) .finish))) later final ∧
        (∀ p, final.program p = .done) ∧ later.Perm collectives := by
  rcases exec_protocol (by decide : 0 < 3)
      (.exec 2 true 1 (fun _ _ _ => .exec 5 true 0 (fun _ _ _ => .finish) .finish)
        (.exec 3 false 0 (fun _ _ _ => .finish) .finish)) with
    ⟨collectives, executed, _, completes⟩
  rcases (completes [] _ (.refl _)).2 with ⟨later, final, run, ended, shuffled⟩
  exact ⟨collectives, executed.trans rfl, later, final, run, ended, shuffled⟩

end Talpf.Nesting

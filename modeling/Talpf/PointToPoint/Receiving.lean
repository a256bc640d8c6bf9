import Talpf.PointToPoint.Sending

/-!
# What a process has received

A receive buffer holds the bytes of the chunks received with its tag, and behind
them what it held before.  The number of messages that a process waits for in
`iwaitall` is the number of buffers that are not full.
-/

namespace Talpf

namespace PointToPoint

universe u

variable {n : ℕ} {Byte : Type u} {plan : Plan n Byte}

open Channels

/-- The process and the tag that the chunk is meant for. -/
def Chunk.target (chunk : Chunk n Byte) : Fin n × ℕ := (chunk.dst, chunk.tag)

/-- The bytes that a process has received with a tag. -/
def arrived (taken : List (Chunk n Byte)) (p : Fin n) (tag : ℕ) : List Byte :=
  (on Chunk.target (p, tag) taken).flatMap Chunk.bytes

/-- The number of messages that a process has not received completely. -/
def Plan.missing (plan : Plan n Byte) (p : Fin n) (taken : List (Chunk n Byte)) : ℕ :=
  (plan.irecvs p).zipIdx.countP fun item =>
    decide ((arrived taken p item.2).length < item.1.buf.length)

section Arrived

variable {taken : List (Chunk n Byte)} {p : Fin n} {chunk : Chunk n Byte}

theorem arrived_self (toHere : chunk.dst = p) :
    arrived (taken ++ [chunk]) p chunk.tag = arrived taken p chunk.tag ++ chunk.bytes := by
  have key : chunk.target = (p, chunk.tag) := by rw [← toHere]; rfl
  rw [arrived, on_append, on_cons, if_pos key, on_nil, List.flatMap_append,
    List.flatMap_singleton]
  rfl

theorem arrived_other {tag : ℕ} (other : chunk.target ≠ (p, tag)) :
    arrived (taken ++ [chunk]) p tag = arrived taken p tag := by
  rw [arrived, on_append, on_cons, if_neg other, on_nil, List.append_nil]
  rfl

theorem missing_other (other : chunk.dst ≠ p) :
    plan.missing p (taken ++ [chunk]) = plan.missing p taken := by
  unfold Plan.missing
  congr 1
  funext item
  rw [arrived_other fun same => other (congrArg Prod.fst same)]

theorem countP_succ {α : Type u} {items : List α} (distinct : items.Nodup) {a : α}
    (member : a ∈ items) {before after : α → Bool}
    (others : ∀ b ∈ items, b ≠ a → before b = after b) (counted : before a = true)
    (gone : after a = false) : items.countP before = items.countP after + 1 := by
  induction items with
  | nil => cases member
  | cons b items ih =>
      rw [List.nodup_cons] at distinct
      rcases List.mem_cons.mp member with rfl | later
      · have same : items.countP before = items.countP after := by
          apply List.countP_congr
          intro c listed
          rw [others c (List.mem_cons_of_mem _ listed)]
          rintro rfl
          exact distinct.1 listed
        rw [List.countP_cons_of_pos counted, List.countP_cons_of_neg (by simp [gone]), same]
      · have apart : b ≠ a := by
          rintro rfl
          exact distinct.1 later
        have tail := ih distinct.2 later fun c listed =>
          others c (List.mem_cons_of_mem _ listed)
        have head := others b List.mem_cons_self apart
        cases first : before b with
        | true =>
            rw [first] at head
            rw [List.countP_cons_of_pos first, List.countP_cons_of_pos head.symm, tail]
        | false =>
            rw [first] at head
            rw [List.countP_cons_of_neg (by simp [first]),
              List.countP_cons_of_neg (by simp [← head]), tail]

theorem zipIdx_nodup {α : Type u} (items : List α) : items.zipIdx.Nodup := by
  apply List.Nodup.of_map Prod.snd
  rw [List.zipIdx_map_snd]
  exact List.nodup_range'

/-- A chunk that does not complete its message leaves as many to wait for. -/
theorem missing_same (taken : List (Chunk n Byte)) {recv : Irecv n Byte}
    (found : (plan.irecvs p)[chunk.tag]? = some recv)
    (toHere : chunk.dst = p)
    (more : (arrived taken p chunk.tag).length + chunk.bytes.length < recv.buf.length) :
    plan.missing p (taken ++ [chunk]) = plan.missing p taken := by
  unfold Plan.missing
  apply List.countP_congr
  rintro ⟨other, tag⟩ member
  have foundOther := List.mem_zipIdx_iff_getElem?.mp member
  dsimp only
  by_cases same : chunk.tag = tag
  · subst same
    obtain rfl := Option.some.inj (found.symm.trans foundOther)
    rw [arrived_self toHere, List.length_append]
    simp only [decide_eq_true_eq]
    omega
  · rw [arrived_other fun equal => same (congrArg Prod.snd equal)]

theorem missing_succ (taken : List (Chunk n Byte)) {recv : Irecv n Byte}
    (found : (plan.irecvs p)[chunk.tag]? = some recv)
    (toHere : chunk.dst = p) (started : (arrived taken p chunk.tag).length < recv.buf.length)
    (full : recv.buf.length ≤ (arrived taken p chunk.tag).length + chunk.bytes.length) :
    plan.missing p taken = plan.missing p (taken ++ [chunk]) + 1 := by
  unfold Plan.missing
  have listed : (recv, chunk.tag) ∈ (plan.irecvs p).zipIdx :=
    List.mem_zipIdx_iff_getElem?.mpr found
  apply countP_succ (zipIdx_nodup _) listed
  · rintro ⟨other, tag⟩ member apart
    have foundOther := List.mem_zipIdx_iff_getElem?.mp member
    have different : chunk.tag ≠ tag := by
      rintro rfl
      obtain rfl := Option.some.inj (found.symm.trans foundOther)
      exact apart rfl
    dsimp only
    rw [arrived_other fun equal => different (congrArg Prod.snd equal)]
  · simpa using started
  · rw [arrived_self toHere, List.length_append]
    simpa using full

end Arrived

namespace Local

section

variable (plan : Plan n Byte) (p : Fin n) (taken : List (Chunk n Byte)) (process : Local n Byte)

/-- The receive buffers hold what has been received. -/
structure Filled : Prop where
  recvd : (plan.irecvs p).drop process.memory.length = process.todo.filterMap Call.irecv?
  bound : process.memory.length ≤ (plan.irecvs p).length
  memory : ∀ (tag : ℕ) recv, (plan.irecvs p)[tag]? = some recv → tag < process.memory.length →
    process.memory[tag]? =
      some (arrived taken p tag ++ recv.buf.drop (arrived taken p tag).length)

/-- The table says where the next chunk of an unfinished message goes. -/
structure Tabled : Prop where
  length : process.irecvs.length = process.memory.length
  next : ∀ (tag : ℕ) recv, (plan.irecvs p)[tag]? = some recv → tag < process.memory.length →
    ∃ offset size, process.irecvs[tag]? = some (⟨tag, offset⟩, size) ∧
      ((arrived taken p tag).length < recv.buf.length →
        offset = (arrived taken p tag).length ∧
          size = recv.buf.length - (arrived taken p tag).length)

/-- The process is in the loop of `iwaitall`. -/
def Looping : Prop :=
  process.phase = .testing ∨ process.phase = .continuing ∨ process.phase = .probing

structure Receives : Prop where
  filled : process.Filled plan p taken
  tabled : process.phase = .posting ∨ process.Looping → process.Tabled plan p taken
  quiet : process.phase = .posting → on Chunk.dst p taken = [] ∧
    process.emptyRecvs =
      ((plan.irecvs p).take process.memory.length).countP fun recv => recv.buf.length = 0
  counted : process.Looping → process.nMsgs = plan.missing p taken
  closed : process.phase = .waiting ∨ process.Entered →
    plan.missing p taken = 0 ∧ process.irecvs = [] ∧ process.emptyRecvs = 0
  imsgs : process.Entered → process.imsgs = []

end

variable {p : Fin n} {taken : List (Chunk n Byte)} {process : Local n Byte}

theorem head_receives (filled : process.Filled plan p taken)
    (tabled : process.Tabled plan p taken) (counted : process.nMsgs = plan.missing p taken) :
    process.head.Receives plan p taken := by
  unfold head
  split
  · exact ⟨⟨filled.recvd, filled.bound, filled.memory⟩, fun _ => ⟨tabled.length, tabled.next⟩,
      by simp, fun _ => counted, by simp [Entered], by simp [Entered]⟩
  · rename_i done
    have none : process.nMsgs = 0 := by
      by_contra some
      exact done (Or.inl (Nat.pos_of_ne_zero some))
    exact ⟨⟨filled.recvd, filled.bound, filled.memory⟩, by simp [Looping], by simp,
      by simp [Looping], fun _ => ⟨counted ▸ none, rfl, rfl⟩, by simp [Entered]⟩

theorem isend_receives {send : Isend n Byte} {rest : List (Call n Byte)}
    (receives : process.Receives plan p taken) (posting : process.phase = .posting)
    (next : process.todo = .isend send :: rest) :
    ({ process with todo := rest }.isend plan.maxMpiMsgSize p send).1.Receives plan p taken := by
  have filled := receives.filled
  have recvd := filled.recvd
  rw [next, List.filterMap_cons_none (show Call.irecv? (.isend send) = none from rfl)] at recvd
  have outside : ¬process.Entered := by simp [Entered, posting]
  have unlooped : ¬process.Looping := by simp [Looping, posting]
  have tabled := receives.tabled (Or.inl posting)
  have quiet := receives.quiet posting
  unfold isend
  dsimp only
  split
  · exact ⟨⟨recvd, filled.bound, filled.memory⟩, fun _ => ⟨tabled.length, tabled.next⟩,
      fun _ => quiet, fun now => absurd now unlooped,
      fun now => absurd now (not_or.mpr ⟨by simp [posting], outside⟩),
      fun now => absurd now outside⟩
  · exact ⟨⟨recvd, filled.bound, filled.memory⟩, fun _ => ⟨tabled.length, tabled.next⟩,
      fun _ => quiet, fun now => absurd now unlooped,
      fun now => absurd now (not_or.mpr ⟨by simp [posting], outside⟩),
      fun now => absurd now outside⟩

theorem Receives.next {recv : Irecv n Byte} {rest : List (Call n Byte)}
    (receives : process.Receives plan p taken) (next : process.todo = .irecv recv :: rest) :
    (plan.irecvs p)[process.memory.length]? = some recv ∧
      (plan.irecvs p).drop (process.memory.length + 1) = rest.filterMap Call.irecv? := by
  have recvd := receives.filled.recvd
  rw [next, List.filterMap_cons_some (show Call.irecv? (.irecv recv) = some recv from rfl)]
    at recvd
  constructor
  · have first := congrArg (fun items => items[0]?) recvd
    simpa using first
  · have later := congrArg List.tail recvd
    simpa using later

theorem arrived_quiet (quiet : on Chunk.dst p taken = []) (tag : ℕ) :
    arrived taken p tag = [] := by
  have none : on Chunk.target (p, tag) taken = [] := by
    apply on_eq_nil
    intro chunk member same
    have listed : chunk ∈ on Chunk.dst p taken := mem_on.mpr ⟨member, congrArg Prod.fst same⟩
    rw [quiet] at listed
    cases listed
  rw [arrived, none, List.flatMap_nil]

/-- The tag of a receive is its number, so that the assertion holds. -/
theorem irecv_tag (paired : plan.Paired) {recv : Irecv n Byte} {rest : List (Call n Byte)}
    (receives : process.Receives plan p taken) (posting : process.phase = .posting)
    (next : process.todo = .irecv recv :: rest) : recv.tag = process.irecvs.length := by
  have found := (receives.next next).1
  have tags := paired.tags p
  have inside := (List.getElem?_eq_some_iff.mp found).1
  have listed := congrArg (fun tags => tags[process.memory.length]?) tags
  rw [List.getElem?_map, found, List.getElem?_range inside] at listed
  rw [(receives.tabled (Or.inl posting)).length]
  exact Option.some.inj listed

theorem irecv_receives (paired : plan.Paired) {recv : Irecv n Byte} {rest : List (Call n Byte)}
    (receives : process.Receives plan p taken) (posting : process.phase = .posting)
    (next : process.todo = .irecv recv :: rest) :
    ({ process with todo := rest }.irecv recv).Receives plan p taken := by
  rcases receives.next next with ⟨found, remaining⟩
  have tabled := receives.tabled (Or.inl posting)
  have quiet := receives.quiet posting
  have filled := receives.filled
  have none : ∀ tag, arrived taken p tag = [] := arrived_quiet quiet.1
  have inside := (List.getElem?_eq_some_iff.mp found).1
  unfold irecv
  rw [if_pos (irecv_tag paired receives posting next)]
  refine ⟨⟨?_, ?_, ?_⟩, fun _ => ⟨?_, ?_⟩, fun _ => ⟨quiet.1, ?_⟩, ?_, ?_, ?_⟩
  · simpa using remaining
  · simpa using Nat.succ_le_of_lt inside
  · intro tag other foundOther bound
    dsimp only at bound ⊢
    rcases Nat.lt_or_ge tag process.memory.length with earlier | now
    · rw [List.getElem?_append_left earlier]
      exact filled.memory tag other foundOther earlier
    · rw [List.length_append, List.length_singleton] at bound
      obtain rfl : tag = process.memory.length := by omega
      obtain rfl := Option.some.inj (found.symm.trans foundOther)
      rw [List.getElem?_concat_length, none]
      rfl
  · simp [tabled.length]
  · intro tag other foundOther bound
    dsimp only at bound ⊢
    rcases Nat.lt_or_ge tag process.memory.length with earlier | now
    · rw [List.getElem?_append_left (tabled.length ▸ earlier)]
      exact tabled.next tag other foundOther earlier
    · rw [List.length_append, List.length_singleton] at bound
      obtain rfl : tag = process.memory.length := by omega
      obtain rfl := Option.some.inj (found.symm.trans foundOther)
      refine ⟨0, recv.buf.length, ?_, fun _ => by simp [none]⟩
      rw [← tabled.length, List.getElem?_concat_length]
  · dsimp only
    rw [List.length_append, List.length_singleton, List.take_add_one, found, List.countP_append,
      ← quiet.2]
    rw [Option.toList_some, List.countP_singleton]
    split <;> simp_all
  · simp [Looping, posting]
  · simp [Entered, posting]
  · simp [Entered, posting]

theorem iwaitall_receives (receives : process.Receives plan p taken)
    (posting : process.phase = .posting) (done : process.todo = []) :
    process.iwaitall.Receives plan p taken := by
  have filled := receives.filled
  have tabled := receives.tabled (Or.inl posting)
  rcases receives.quiet posting with ⟨quiet, empty⟩
  have recvd := filled.recvd
  rw [done, List.filterMap_nil, List.drop_eq_nil_iff] at recvd
  refine head_receives ⟨filled.recvd, filled.bound, filled.memory⟩
    ⟨tabled.length, tabled.next⟩ ?_
  have whole : process.memory.length = (plan.irecvs p).length := le_antisymm filled.bound recvd
  dsimp only
  rw [tabled.length, empty, whole, List.take_length]
  unfold Plan.missing
  have none : ∀ tag, arrived taken p tag = [] := arrived_quiet quiet
  simp only [none, List.length_nil]
  have unzipped : (plan.irecvs p).zipIdx.countP (fun item => decide (0 < item.1.buf.length)) =
      (plan.irecvs p).countP fun recv => decide (0 < recv.buf.length) := by
    conv => rhs; rw [← List.zipIdx_map_fst 0 (plan.irecvs p)]
    rw [List.countP_map]
    rfl
  have parts := List.length_eq_countP_add_countP (fun recv : Irecv n Byte => recv.buf.length = 0)
    (l := plan.irecvs p)
  have positive : (plan.irecvs p).countP (fun recv => decide (0 < recv.buf.length)) =
      (plan.irecvs p).countP fun recv => ¬(decide (recv.buf.length = 0)) = true := by
    apply List.countP_congr
    intro recv _
    simp [Nat.pos_iff_ne_zero]
  rw [unzipped, positive]
  omega

/-- A step in the loop of `iwaitall` that does not receive anything. -/
theorem Receives.loop {after : Local n Byte} (receives : process.Receives plan p taken)
    (looping : process.Looping) (now : after.Looping) (todo : after.todo = process.todo)
    (memory : after.memory = process.memory) (irecvs : after.irecvs = process.irecvs)
    (nMsgs : after.nMsgs = process.nMsgs) : after.Receives plan p taken := by
  have filled := receives.filled
  have tabled := receives.tabled (Or.inr looping)
  refine ⟨⟨?_, ?_, ?_⟩, fun _ => ⟨?_, ?_⟩, ?_, fun _ => ?_, ?_, ?_⟩
  · rw [memory, todo]
    exact filled.recvd
  · rw [memory]
    exact filled.bound
  · rw [memory]
    exact filled.memory
  · rw [irecvs, memory]
    exact tabled.length
  · rw [irecvs, memory]
    exact tabled.next
  · intro posting
    simp [Looping, posting] at now
  · rw [nMsgs]
    exact receives.counted looping
  · rintro (waiting | entered | returned)
    · simp [Looping, waiting] at now
    · simp [Looping, entered] at now
    · simp [Looping, returned] at now
  · rintro (entered | returned)
    · simp [Looping, entered] at now
    · simp [Looping, returned] at now

theorem write_next {earlier bytes buffer : List Byte} :
    write (earlier ++ buffer.drop earlier.length) earlier.length bytes =
      earlier ++ bytes ++ buffer.drop (earlier ++ bytes).length := by
  unfold write
  rw [List.take_left, List.drop_append, List.drop_drop, List.length_append]
  have nothing : earlier.drop (earlier.length + bytes.length) = [] :=
    List.drop_eq_nil_of_le (Nat.le_add_right _ _)
  have rest : earlier.length + (earlier.length + bytes.length - earlier.length) =
      earlier.length + bytes.length := by omega
  rw [nothing, List.nil_append, rest]

section Receive

variable {chunk : Chunk n Byte} {recv : Irecv n Byte}

/-- The chunk is the next part of the message with its tag. -/
structure Expected (plan : Plan n Byte) (taken : List (Chunk n Byte)) (chunk : Chunk n Byte)
    (recv : Irecv n Byte) : Prop where
  found : (plan.irecvs chunk.dst)[chunk.tag]? = some recv
  started : (arrived taken chunk.dst chunk.tag).length < recv.buf.length
  size : chunk.bytes.length =
    min plan.maxMpiMsgSize (recv.buf.length - (arrived taken chunk.dst chunk.tag).length)

/-- The bytes of a chunk follow those that have arrived before. -/
theorem Filled.take (filled : process.Filled plan chunk.dst taken)
    (found : (plan.irecvs chunk.dst)[chunk.tag]? = some recv)
    (inside : chunk.tag < process.memory.length) (irecvs : List (Pointer × ℕ)) (nMsgs : ℕ) :
    ({ process with
      memory := process.memory.modify chunk.tag fun buffer =>
        write buffer (arrived taken chunk.dst chunk.tag).length chunk.bytes
      irecvs := irecvs
      nMsgs := nMsgs } : Local n Byte).Filled plan chunk.dst (taken ++ [chunk]) := by
  refine ⟨?_, ?_, ?_⟩
  · dsimp only
    rw [List.length_modify]
    exact filled.recvd
  · dsimp only
    rw [List.length_modify]
    exact filled.bound
  · dsimp only
    rw [List.length_modify]
    intro tag other foundOther bound
    by_cases same : chunk.tag = tag
    · subst same
      obtain rfl := Option.some.inj (found.symm.trans foundOther)
      rw [List.getElem?_modify_eq, filled.memory chunk.tag recv found inside, arrived_self rfl,
        Option.map_eq_map, Option.map_some, write_next]
    · have apart : chunk.target ≠ (chunk.dst, tag) := fun equal => same (congrArg Prod.snd equal)
      rw [List.getElem?_modify_ne _ _ same, arrived_other apart]
      exact filled.memory tag other foundOther bound

/-- Only the entry of the message that a chunk belongs to has to be brought up to date. -/
theorem Tabled.take (tabled : process.Tabled plan chunk.dst taken)
    (found : (plan.irecvs chunk.dst)[chunk.tag]? = some recv) (memory : List (List Byte))
    (irecvs : List (Pointer × ℕ)) (nMsgs : ℕ) (sameMemory : memory.length = process.memory.length)
    (sameIrecvs : irecvs.length = process.irecvs.length)
    (others : ∀ tag, chunk.tag ≠ tag → irecvs[tag]? = process.irecvs[tag]?)
    (itself : ∃ offset size, irecvs[chunk.tag]? = some (⟨chunk.tag, offset⟩, size) ∧
      ((arrived taken chunk.dst chunk.tag).length + chunk.bytes.length < recv.buf.length →
        offset = (arrived taken chunk.dst chunk.tag).length + chunk.bytes.length ∧
          size = recv.buf.length -
            ((arrived taken chunk.dst chunk.tag).length + chunk.bytes.length))) :
    ({ process with memory := memory, irecvs := irecvs, nMsgs := nMsgs } : Local n Byte).Tabled
      plan chunk.dst (taken ++ [chunk]) := by
  refine ⟨sameIrecvs.trans (tabled.length.trans sameMemory.symm), ?_⟩
  intro tag other foundOther bound
  dsimp only at bound ⊢
  by_cases same : chunk.tag = tag
  · subst same
    obtain rfl := Option.some.inj (found.symm.trans foundOther)
    rw [arrived_self rfl, List.length_append]
    exact itself
  · have apart : chunk.target ≠ (chunk.dst, tag) := fun equal => same (congrArg Prod.snd equal)
    rw [others tag same, arrived_other apart]
    exact tabled.next tag other foundOther (sameMemory ▸ bound)

theorem receive_eq (receives : process.Receives plan p taken) (probing : process.phase = .probing)
    (called : process.todo = []) (toHere : chunk.dst = p)
    (expected : Expected plan taken chunk recv) :
    ∃ memory irecvs nMsgs, process.receive plan.maxMpiMsgSize chunk =
        ({ process with memory := memory, irecvs := irecvs, nMsgs := nMsgs } : Local n Byte).head ∧
      ({ process with memory := memory, irecvs := irecvs, nMsgs := nMsgs } : Local n Byte).Filled
        plan p (taken ++ [chunk]) ∧
      ({ process with memory := memory, irecvs := irecvs, nMsgs := nMsgs } : Local n Byte).Tabled
        plan p (taken ++ [chunk]) ∧
      nMsgs = plan.missing p (taken ++ [chunk]) := by
  subst toHere
  have filled := receives.filled
  have looping : process.Looping := Or.inr (Or.inr probing)
  have tabled := receives.tabled (Or.inr looping)
  have counted := receives.counted looping
  have recvd := filled.recvd
  rw [called, List.filterMap_nil, List.drop_eq_nil_iff] at recvd
  rcases expected with ⟨found, started, size⟩
  have inside : chunk.tag < process.memory.length :=
    (List.getElem?_eq_some_iff.mp found).1.trans_le recvd
  rcases tabled.next chunk.tag recv found inside with ⟨offset, rest, entry, next⟩
  obtain ⟨rfl, rfl⟩ := next started
  unfold receive
  rw [entry]
  dsimp only
  rw [if_neg (by omega)]
  by_cases more : plan.maxMpiMsgSize <
      recv.buf.length - (arrived taken chunk.dst chunk.tag).length
  · -- the rest of the message is entered in the table
    rw [if_pos more]
    have still := missing_same taken found rfl (by omega)
    refine ⟨_, _, _, rfl, filled.take found inside _ _, ?_, counted.trans still.symm⟩
    refine tabled.take found _ _ _ (List.length_modify _ _ _) List.length_set
      (fun tag other => List.getElem?_set_ne other) ?_
    refine ⟨_, _, List.getElem?_set_self (tabled.length ▸ inside), fun _ => ?_⟩
    rw [size, Nat.min_eq_left more.le]
    exact ⟨rfl, Nat.sub_sub _ _ _⟩
  · -- the message is complete
    rw [if_neg more]
    have done := missing_succ taken found rfl started (by omega)
    refine ⟨_, _, _, rfl, filled.take found inside _ _, ?_, by omega⟩
    refine tabled.take found _ _ _ (List.length_modify _ _ _) rfl (fun _ _ => rfl) ?_
    exact ⟨_, _, entry, fun unfinished => by omega⟩

/-- A chunk for another process. -/
theorem Receives.elsewhere (receives : process.Receives plan p taken) (other : chunk.dst ≠ p) :
    process.Receives plan p (taken ++ [chunk]) := by
  have same : ∀ tag, arrived (taken ++ [chunk]) p tag = arrived taken p tag :=
    fun tag => arrived_other fun equal => other (congrArg Prod.fst equal)
  refine ⟨⟨receives.filled.recvd, receives.filled.bound, ?_⟩, fun now => ⟨?_, ?_⟩, ?_, ?_, ?_,
    receives.imsgs⟩
  · simp only [same]
    exact receives.filled.memory
  · exact (receives.tabled now).length
  · simp only [same]
    exact (receives.tabled now).next
  · intro posting
    rw [on_append, on_cons, if_neg other, on_nil, List.append_nil]
    exact receives.quiet posting
  · rw [missing_other other]
    exact receives.counted
  · rw [missing_other other]
    exact receives.closed

end Receive

end Local

end PointToPoint

end Talpf

import Talpf.AllToAll

/-!
# The messages that a process is sending

A process posts the chunks of each message in their order.  The chunks that it
has posted and those that its list of entries still stands for are together the
whole message, although the list is compacted by swaps and its messages are
continued in any order.
-/

namespace Talpf

namespace AllToAll

universe u

variable {n : ℕ} {Byte : Type u}

open Channels

/-- Swapping the finished entries out leaves the others, in some order. -/
theorem compact_perm (kept entries : List (Entry n Byte)) :
    (compact kept entries).Perm (kept ++ entries.filter fun entry => !entry.finished) := by
  induction kept, entries using compact.induct with
  | case1 kept => simp [compact]
  | case2 kept entry rest finished none =>
      have empty : rest = [] := List.getLast?_eq_none_iff.mp none
      subst empty
      simp [compact, finished]
  | case3 kept entry rest finished last found ih =>
      have moved : (last :: rest.dropLast).Perm rest := by
        conv => rhs; rw [← List.dropLast_append_getLast? last found]
        exact (List.perm_append_singleton last rest.dropLast).symm
      rw [compact, if_pos finished]
      split
      · rename_i none
        rw [found] at none
        cases none
      · rename_i other found'
        obtain rfl : last = other := Option.some.inj (found.symm.trans found')
        refine ih.trans (List.Perm.append_left kept ?_)
        simpa [finished] using moved.filter fun entry => !entry.finished
  | case4 kept entry rest unfinished ih =>
      rw [compact, if_neg unfinished]
      refine ih.trans ?_
      simp [unfinished]

theorem mem_compact {entries : List (Entry n Byte)} {entry : Entry n Byte} :
    entry ∈ compact [] entries ↔ entry ∈ entries ∧ entry.finished = false := by
  rw [(compact_perm [] entries).mem_iff]
  simp

namespace Local

variable (plan : Plan n Byte) (p : Fin n) (process : Local n Byte)

/-- The buffer that the current call sends from. -/
def data : ℕ → Byte := (plan.exchange process.call p).sendData

/-- What becomes of an entry whose last chunk has been received. -/
def continued (entry : Entry n Byte) : Entry n Byte × List (Chunk n Byte) :=
  entry.continue_ plan.maxMsgSize p process.call (process.data plan p)

theorem continueAll_entry {ready : List ℕ} {entries : List (Entry n Byte)} (distinct : ready.Nodup)
    (j : ℕ) :
    (process.continueAll plan p ready entries).1[j]? =
      entries[j]?.map fun entry =>
        if j ∈ ready then (process.continued plan p entry).1 else entry := by
  induction ready generalizing entries with
  | nil => simp [continueAll]
  | cons i ready ih =>
      rw [List.nodup_cons] at distinct
      unfold continueAll
      cases found : entries[i]? with
      | none =>
          dsimp only
          rw [ih distinct.2]
          by_cases same : j = i
          · subst same
            simp [found]
          · simp [same]
      | some entry =>
          dsimp only
          rw [ih distinct.2, List.getElem?_set]
          by_cases same : i = j
          · subst same
            have bound := (List.getElem?_eq_some_iff.mp found).1
            rw [found]
            simp [bound, distinct.1, continued, data]
          · simp [same, Ne.symm same]

theorem continueAll_new {ready : List ℕ} {entries : List (Entry n Byte)} (distinct : ready.Nodup) :
    (process.continueAll plan p ready entries).2 =
      (ready.filterMap fun j => entries[j]?).flatMap fun entry =>
        (process.continued plan p entry).2 := by
  induction ready generalizing entries with
  | nil => rfl
  | cons i ready ih =>
      rw [List.nodup_cons] at distinct
      unfold continueAll
      cases found : entries[i]? with
      | none => simpa [found] using ih distinct.2
      | some entry =>
          have others : (ready.filterMap fun j => (entries.set i
              (process.continued plan p entry).1)[j]?) = ready.filterMap fun j => entries[j]? := by
            apply List.filterMap_congr
            intro j later
            apply List.getElem?_set_ne
            rintro rfl
            exact distinct.1 later
          rw [List.filterMap_cons, found]
          dsimp only
          rw [List.flatMap_cons, ← others, ← ih distinct.2]
          rfl

end Local

section

variable {maxMsgSize call : ℕ} {src : Fin n} {data : ℕ → Byte} {entry : Entry n Byte}

theorem chunks_empty (none : min maxMsgSize entry.count = 0) :
    chunks maxMsgSize src call data entry = [] := by
  rw [chunks, if_neg (by omega)]

theorem chunks_eq (some : 0 < min maxMsgSize entry.count) :
    chunks maxMsgSize src call data entry =
      entry.chunk maxMsgSize src call data ::
        chunks maxMsgSize src call data (entry.issend maxMsgSize src call data) := by
  rw [chunks, if_pos some]

theorem begin_chunks :
    (entry.begin maxMsgSize src call data).2 ++
        chunks maxMsgSize src call data (entry.begin maxMsgSize src call data).1 =
      chunks maxMsgSize src call data entry := by
  unfold Entry.begin
  split
  · rename_i some
    exact (chunks_eq some).symm
  · rfl

theorem begin_mesg : (entry.begin maxMsgSize src call data).1.mesg = entry.mesg := by
  unfold Entry.begin
  split <;> rfl

theorem continue_mesg : (entry.continue_ maxMsgSize src call data).1.mesg = entry.mesg := by
  unfold Entry.continue_
  split <;> rfl

/-- A posted chunk is the request of its entry. -/
theorem begin_new : ∀ chunk ∈ (entry.begin maxMsgSize src call data).2,
    (entry.begin maxMsgSize src call data).1.request = some chunk ∧
      chunk.message = (src, call, entry.mesg) := by
  unfold Entry.begin
  split
  · intro chunk member
    obtain rfl := List.mem_singleton.mp member
    exact ⟨rfl, rfl⟩
  · simp

theorem begin_request (fresh : entry.request = none) {chunk : Chunk n Byte}
    (request : (entry.begin maxMsgSize src call data).1.request = some chunk) :
    chunk.message = (src, call, entry.mesg) := by
  unfold Entry.begin at request
  split at request
  · obtain rfl := Option.some.inj request
    rfl
  · rw [fresh] at request
    cases request

theorem begin_pending (positive : 0 < maxMsgSize)
    (none : (entry.begin maxMsgSize src call data).1.request = none) :
    (entry.begin maxMsgSize src call data).1.count = 0 := by
  unfold Entry.begin at none ⊢
  split at none
  · cases none
  · rename_i empty
    rw [if_neg empty]
    change entry.count = 0
    omega

theorem continue_pending (none : (entry.continue_ maxMsgSize src call data).1.request = none) :
    (entry.continue_ maxMsgSize src call data).1.count = 0 := by
  unfold Entry.continue_ at none ⊢
  split at none
  · cases none
  · rename_i empty
    rw [if_neg empty]
    exact Nat.eq_zero_of_not_pos empty

theorem continue_request {chunk : Chunk n Byte}
    (request : (entry.continue_ maxMsgSize src call data).1.request = some chunk) :
    chunk.message = (src, call, entry.mesg) := by
  unfold Entry.continue_ at request
  split at request
  · obtain rfl := Option.some.inj request
    rfl
  · cases request

theorem continue_new : ∀ chunk ∈ (entry.continue_ maxMsgSize src call data).2,
    (entry.continue_ maxMsgSize src call data).1.request = some chunk ∧
      chunk.message = (src, call, entry.mesg) := by
  unfold Entry.continue_
  split
  · intro chunk member
    obtain rfl := List.mem_singleton.mp member
    exact ⟨rfl, rfl⟩
  · simp

theorem chunks_request {request : Option (Chunk n Byte)} :
    chunks maxMsgSize src call data { entry with request := request } =
      chunks maxMsgSize src call data entry := by
  by_cases some : 0 < min maxMsgSize entry.count
  · have same : 0 < min maxMsgSize ({ entry with request := request } : Entry n Byte).count := some
    rw [chunks_eq some, chunks_eq same]
    rfl
  · have none : min maxMsgSize entry.count = 0 := by omega
    have same : min maxMsgSize ({ entry with request := request } : Entry n Byte).count = 0 := none
    rw [chunks_empty none, chunks_empty same]

theorem continue_chunks (positive : 0 < maxMsgSize) :
    (entry.continue_ maxMsgSize src call data).2 ++
        chunks maxMsgSize src call data (entry.continue_ maxMsgSize src call data).1 =
      chunks maxMsgSize src call data entry := by
  unfold Entry.continue_
  split
  · rename_i some
    exact (chunks_eq (lt_min positive some)).symm
  · exact chunks_request

theorem labelled : ∀ chunk ∈ chunks maxMsgSize src call data entry,
    chunk.message = (src, call, entry.mesg) ∧ chunk.dst = entry.pid := by
  induction entry using chunks.induct maxMsgSize src call data with
  | case1 entry some ih =>
      intro chunk member
      rw [chunks_eq some] at member
      rcases List.mem_cons.mp member with rfl | later
      · exact ⟨rfl, rfl⟩
      · exact ih chunk later
  | case2 entry none =>
      intro chunk member
      rw [chunks, if_neg none] at member
      cases member

end

namespace Local

variable (plan : Plan n Byte) (p : Fin n) (process : Local n Byte)

/-- What is left of the message of an entry. -/
def left (entry : Entry n Byte) : List (Chunk n Byte) :=
  chunks plan.maxMsgSize p process.call (process.data plan p) entry

/-- The chunks of a message that the process has not posted. -/
def unsent (call mesg : ℕ) : List (Chunk n Byte) :=
  if call < process.call then []
  else if process.call < call ∨ process.phase = .outside then plan.message call p mesg
  else (on Entry.mesg mesg process.entries).flatMap (process.left plan p)

/-- The bookkeeping of one process is in order. -/
structure Fine : Prop where
  distinct : (process.entries.map Entry.mesg).Nodup
  request : ∀ entry ∈ process.entries, ∀ chunk, entry.request = some chunk →
    chunk.message = (p, process.call, entry.mesg)
  pending : ∀ entry ∈ process.entries, entry.request = none → entry.count = 0
  outside : process.phase = .outside →
    process.entries = [] ∧ process.barrierActive = false ∧ process.log = []
  active : process.barrierActive → process.entries = []
  barriers : process.barriers = process.call + if process.barrierActive then 1 else 0

variable {plan p process}

theorem unsent_of_lt {call mesg : ℕ} (later : process.call < call) :
    process.unsent plan p call mesg = plan.message call p mesg := by
  have notPast : ¬call < process.call := by omega
  rw [unsent, if_neg notPast, if_pos (Or.inl later)]

theorem unsent_of_gt {call mesg : ℕ} (past : call < process.call) :
    process.unsent plan p call mesg = [] := by
  rw [unsent, if_pos past]

theorem unsent_of_inside {mesg : ℕ} (inside : process.phase ≠ .outside) :
    process.unsent plan p process.call mesg =
      (on Entry.mesg mesg process.entries).flatMap (process.left plan p) := by
  rw [unsent, if_neg (lt_irrefl _), if_neg (by simp [inside])]

theorem unsent_of_outside {mesg : ℕ} (outside : process.phase = .outside) :
    process.unsent plan p process.call mesg = plan.message process.call p mesg := by
  rw [unsent, if_neg (lt_irrefl _), if_pos (Or.inr outside)]

/-- What has not been sent depends on the entries, and on whether the call has begun. -/
theorem unsent_congr {other : Local n Byte} (call : other.call = process.call)
    (entries : other.entries = process.entries)
    (phase : other.phase = .outside ↔ process.phase = .outside) :
    other.unsent plan p = process.unsent plan p := by
  funext k mesg
  simp only [unsent, call, entries, phase]
  have left : other.left plan p = process.left plan p := by
    funext entry
    simp only [Local.left, data, call]
  rw [left]

/-- The posted chunks are the next ones of their messages. -/
def Advances (plan : Plan n Byte) (p : Fin n) (before after : Local n Byte)
    (new : List (Chunk n Byte)) : Prop :=
  (∀ chunk ∈ new, chunk.src = p) ∧
  ∀ call mesg, on Chunk.message (p, call, mesg) new ++ after.unsent plan p call mesg =
    before.unsent plan p call mesg

theorem advances_of_unsent {other : Local n Byte}
    (same : other.unsent plan p = process.unsent plan p) :
    Advances plan p process other [] := by
  refine ⟨by simp, fun call mesg => ?_⟩
  rw [same]
  rfl

theorem opened_entry {item : Entry n Byte × List (Chunk n Byte)}
    (member : item ∈ process.opened plan p) :
    ∃ send, (plan.exchange process.call p).sends[item.1.mesg]? = some send ∧
      item = (entry send item.1.mesg).begin plan.maxMsgSize p process.call
        (process.data plan p) := by
  rcases List.mem_mapIdx.mp member with ⟨mesg, bound, rfl⟩
  rw [begin_mesg]
  exact ⟨_, List.getElem?_eq_getElem bound, rfl⟩

theorem opened_mesgs : (process.opened plan p).map (fun item => item.1.mesg) =
    List.range (plan.exchange process.call p).sends.length := by
  apply List.ext_getElem
  · simp [opened]
  · intro i _ _
    simp [opened, begin_mesg, entry]

/-- Chunks of one call of one process do not belong to another call. -/
theorem on_other_call {new : List (Chunk n Byte)}
    (labelled : ∀ chunk ∈ new, ∃ mesg, chunk.message = (p, process.call, mesg)) {call mesg : ℕ}
    (other : call ≠ process.call) : on Chunk.message (p, call, mesg) new = [] := by
  apply on_eq_nil
  intro chunk member same
  rcases labelled chunk member with ⟨mesg', equal⟩
  rw [equal] at same
  simp only [Prod.mk.injEq] at same
  exact other same.2.1.symm

theorem start_advances (outside : process.phase = .outside) :
    Advances plan p process (process.start plan p)
      ((process.opened plan p).flatMap Prod.snd) := by
  have batches : ∀ item ∈ process.opened plan p, ∀ chunk ∈ item.2,
      chunk.message = (p, process.call, item.1.mesg) := by
    intro item member chunk new
    rcases opened_entry member with ⟨send, found, equal⟩
    rw [equal] at new
    exact (begin_new chunk new).2
  have mesgs : ((process.opened plan p).map fun item => item.1.mesg).Nodup := by
    rw [opened_mesgs]
    exact List.nodup_range
  have keys : ((process.opened plan p).map fun item => (p, process.call, item.1.mesg)).Nodup := by
    have pairs : Function.Injective fun mesg : ℕ => (p, process.call, mesg) := by
      intro a b same
      simpa using same
    have paired := mesgs.map pairs
    rw [List.map_map] at paired
    exact paired
  have labelled : ∀ chunk ∈ (process.opened plan p).flatMap Prod.snd,
      ∃ mesg, chunk.message = (p, process.call, mesg) := by
    intro chunk new
    rcases List.mem_flatMap.mp new with ⟨item, member, inside⟩
    exact ⟨_, batches item member chunk inside⟩
  refine ⟨?_, fun call mesg => ?_⟩
  · intro chunk new
    rcases labelled chunk new with ⟨mesg, equal⟩
    exact congrArg Prod.fst equal
  · have begun : (process.start plan p).call = process.call := rfl
    rcases lt_trichotomy call process.call with past | rfl | later
    · rw [on_other_call labelled past.ne, unsent_of_gt past, unsent_of_gt (begun ▸ past)]
      rfl
    · have inside : (process.start plan p).phase ≠ .outside := by simp [start]
      rw [unsent_of_outside outside, ← begun, unsent_of_inside inside, begun]
      have distinct : ((process.start plan p).entries.map Entry.mesg).Nodup := by
        simpa [start, Function.comp_def] using mesgs
      by_cases bound : mesg < (plan.exchange process.call p).sends.length
      · have listed : mesg ∈ (process.opened plan p).map fun item => item.1.mesg := by
          rw [opened_mesgs]
          exact List.mem_range.mpr bound
        rcases List.mem_map.mp listed with ⟨item, member, rfl⟩
        rcases opened_entry member with ⟨send, found, equal⟩
        have entered : item.1 ∈ (process.start plan p).entries :=
          List.mem_map.mpr ⟨item, member, rfl⟩
        rw [on_flatMap batches keys member, on_of_nodup distinct entered]
        simp only [Plan.message, found, List.flatMap_singleton]
        conv => lhs; rw [equal]
        exact begin_chunks
      · have none : (plan.exchange process.call p).sends[mesg]? = none :=
          List.getElem?_eq_none (by omega)
        have absent : ∀ item ∈ process.opened plan p, item.1.mesg ≠ mesg := by
          rintro item member rfl
          rcases opened_entry member with ⟨send, found, _⟩
          rw [none] at found
          cases found
        have first : on Chunk.message (p, process.call, mesg)
            ((process.opened plan p).flatMap Prod.snd) = [] := by
          apply on_flatMap_of_not_mem batches
          intro item member same
          simp only [Prod.mk.injEq, true_and] at same
          exact absent item member same
        have second : on Entry.mesg mesg (process.start plan p).entries = [] := by
          apply on_eq_nil
          intro entry member
          rcases List.mem_map.mp member with ⟨item, among, rfl⟩
          exact absent item among
        rw [first, second]
        simp [Plan.message, none]
    · rw [on_other_call labelled later.ne', unsent_of_lt later, unsent_of_lt (begun ▸ later)]
      rfl

section Test

variable {ready : List ℕ}

theorem test_entries : (process.test plan p ready).entries =
    compact [] (process.continueAll plan p ready process.entries).1 := by
  unfold test
  dsimp only
  split <;> rfl

theorem test_call : (process.test plan p ready).call = process.call := by
  unfold test
  dsimp only
  split <;> rfl

theorem test_phase : (process.test plan p ready).phase = .probing := by
  unfold test
  dsimp only
  split <;> rfl

theorem test_results : (process.test plan p ready).results = process.results := by
  unfold test
  dsimp only
  split <;> rfl

/-- The entry at an index after the sends at the given indices have been continued. -/
theorem continueAll_of_entry (distinct : ready.Nodup) {j : ℕ} {entry : Entry n Byte}
    (found : process.entries[j]? = some entry) :
    (if j ∈ ready then (process.continued plan p entry).1 else entry) ∈
      (process.continueAll plan p ready process.entries).1 := by
  apply List.mem_of_getElem? (i := j)
  rw [continueAll_entry plan p process distinct, found]
  rfl

theorem mem_continueAll (distinct : ready.Nodup) {after : Entry n Byte}
    (member : after ∈ (process.continueAll plan p ready process.entries).1) :
    ∃ j entry, process.entries[j]? = some entry ∧
      after = if j ∈ ready then (process.continued plan p entry).1 else entry := by
  rcases List.mem_iff_getElem?.mp member with ⟨j, found⟩
  rw [continueAll_entry plan p process distinct] at found
  rcases Option.map_eq_some_iff.mp found with ⟨entry, before, equal⟩
  exact ⟨j, entry, before, equal.symm⟩

theorem continueAll_mesgs (distinct : ready.Nodup) :
    (process.continueAll plan p ready process.entries).1.map Entry.mesg =
      process.entries.map Entry.mesg := by
  apply List.ext_getElem?
  intro j
  rw [List.getElem?_map, List.getElem?_map, continueAll_entry plan p process distinct,
    Option.map_map]
  congr 1
  funext entry
  simp only [Function.comp_apply]
  split
  · exact continue_mesg
  · rfl

theorem entry_at (fine : process.Fine p) {i j : ℕ} {first second : Entry n Byte}
    (foundFirst : process.entries[i]? = some first)
    (foundSecond : process.entries[j]? = some second) (same : first.mesg = second.mesg) :
    i = j := by
  have bound : i < (process.entries.map Entry.mesg).length := by
    simpa using (List.getElem?_eq_some_iff.mp foundFirst).1
  apply (List.getElem?_inj bound fine.distinct).mp
  simp [foundFirst, foundSecond, same]

/-- The entries at the given indices. -/
def picked (process : Local n Byte) (ready : List ℕ) : List (Entry n Byte) :=
  ready.filterMap fun j => process.entries[j]?

theorem mem_picked {entry : Entry n Byte} :
    entry ∈ process.picked ready ↔ ∃ j ∈ ready, process.entries[j]? = some entry :=
  List.mem_filterMap

theorem picked_keys (fine : process.Fine p) (distinct : ready.Nodup) :
    ((process.picked ready).map fun entry => (p, process.call, entry.mesg)).Nodup := by
  unfold picked
  rw [List.map_filterMap]
  apply distinct.filterMap
  intro i j key first second
  rcases Option.map_eq_some_iff.mp first with ⟨a, foundA, rfl⟩
  rcases Option.map_eq_some_iff.mp second with ⟨b, foundB, same⟩
  simp only [Prod.mk.injEq, true_and] at same
  exact entry_at fine foundA foundB same.symm

theorem picked_new (distinct : ready.Nodup) :
    (process.continueAll plan p ready process.entries).2 =
      (process.picked ready).flatMap fun entry => (process.continued plan p entry).2 :=
  continueAll_new plan p process distinct

theorem continued_labelled : ∀ entry ∈ process.picked ready,
    ∀ chunk ∈ (process.continued plan p entry).2,
      chunk.message = (p, process.call, entry.mesg) :=
  fun _ _ chunk new => (continue_new chunk new).2

theorem compact_mesgs {entries : List (Entry n Byte)} (distinct : (entries.map Entry.mesg).Nodup) :
    ((compact [] entries).map Entry.mesg).Nodup := by
  rw [((compact_perm [] entries).map Entry.mesg).nodup_iff]
  exact distinct.sublist (List.filter_sublist.map Entry.mesg)

/-- A finished entry has nothing left, so that it makes no difference to swap it out. -/
theorem on_compact {entries : List (Entry n Byte)} (distinct : (entries.map Entry.mesg).Nodup)
    {entry : Entry n Byte} (member : entry ∈ entries) :
    (on Entry.mesg entry.mesg (compact [] entries)).flatMap (process.left plan p) =
      process.left plan p entry := by
  cases finished : entry.finished with
  | false =>
      have stays : entry ∈ compact [] entries := mem_compact.mpr ⟨member, finished⟩
      rw [on_of_nodup (compact_mesgs distinct) stays, List.flatMap_singleton]
  | true =>
      have gone : on Entry.mesg entry.mesg (compact [] entries) = [] := by
        apply on_eq_nil
        intro other stays same
        rcases mem_compact.mp stays with ⟨among, unfinished⟩
        have equal := List.inj_on_of_nodup_map distinct among member same
        rw [equal, finished] at unfinished
        cases unfinished
      have count : entry.count = 0 := by
        simp only [Entry.finished, Bool.and_eq_true, beq_iff_eq] at finished
        exact finished.1
      rw [gone, List.flatMap_nil, left, chunks_empty (by simp [count])]

theorem test_advances (fine : process.Fine p) (inside : process.phase ≠ .outside)
    (distinct : ready.Nodup) :
    Advances plan p process (process.test plan p ready)
      (process.continueAll plan p ready process.entries).2 := by
  have labelled : ∀ chunk ∈ (process.continueAll plan p ready process.entries).2,
      ∃ mesg, chunk.message = (p, process.call, mesg) := by
    intro chunk new
    rw [picked_new distinct] at new
    rcases List.mem_flatMap.mp new with ⟨entry, picked, inside⟩
    exact ⟨_, continued_labelled entry picked chunk inside⟩
  have same_left : (process.test plan p ready).left plan p = process.left plan p := by
    funext entry
    simp only [left, data, test_call]
  have mesgs : (process.continueAll plan p ready process.entries).1.map Entry.mesg =
      process.entries.map Entry.mesg := continueAll_mesgs distinct
  have distinctAfter : ((process.continueAll plan p ready process.entries).1.map
      Entry.mesg).Nodup := by
    rw [mesgs]
    exact fine.distinct
  refine ⟨?_, fun call mesg => ?_⟩
  · intro chunk new
    rcases labelled chunk new with ⟨mesg, equal⟩
    exact congrArg Prod.fst equal
  · rcases lt_trichotomy call process.call with past | rfl | later
    · rw [on_other_call labelled past.ne, unsent_of_gt past, unsent_of_gt (by rwa [test_call])]
      rfl
    · have still : (process.test plan p ready).phase ≠ .outside := by simp [test_phase]
      have after : (process.test plan p ready).unsent plan p (process.test plan p ready).call mesg =
          _ := unsent_of_inside still
      rw [test_call, test_entries, same_left] at after
      rw [after, unsent_of_inside inside, picked_new distinct]
      by_cases listed : ∃ entry ∈ process.entries, entry.mesg = mesg
      · rcases listed with ⟨entry, member, rfl⟩
        rcases List.mem_iff_getElem?.mp member with ⟨j, found⟩
        have now : _ ∈ (process.continueAll plan p ready process.entries).1 :=
          continueAll_of_entry distinct found
        rw [on_of_nodup fine.distinct member, List.flatMap_singleton]
        by_cases chosen : j ∈ ready
        · rw [if_pos chosen] at now
          have alike : (process.continued plan p entry).1.mesg = entry.mesg := continue_mesg
          have kept : _ = process.left plan p (process.continued plan p entry).1 :=
            on_compact distinctAfter now
          rw [alike] at kept
          rw [kept, on_flatMap continued_labelled (picked_keys fine distinct)
            (mem_picked.mpr ⟨j, chosen, found⟩)]
          exact continue_chunks plan.max_pos
        · rw [if_neg chosen] at now
          have nothing : on Chunk.message (p, process.call, entry.mesg)
              ((process.picked ready).flatMap fun entry =>
                (process.continued plan p entry).2) = [] := by
            apply on_flatMap_of_not_mem continued_labelled
            intro other picked same
            simp only [Prod.mk.injEq, true_and] at same
            rcases mem_picked.mp picked with ⟨i, ofReady, foundOther⟩
            exact chosen (entry_at fine foundOther found same ▸ ofReady)
          rw [on_compact distinctAfter now, nothing]
          rfl
      · have absent : on Entry.mesg mesg process.entries = [] :=
          on_eq_nil fun entry member same => listed ⟨entry, member, same⟩
        have nothing : on Chunk.message (p, process.call, mesg)
            ((process.picked ready).flatMap fun entry =>
              (process.continued plan p entry).2) = [] := by
          apply on_flatMap_of_not_mem continued_labelled
          intro other picked same
          simp only [Prod.mk.injEq, true_and] at same
          rcases mem_picked.mp picked with ⟨i, _, found⟩
          exact listed ⟨other, List.mem_of_getElem? found, same⟩
        have gone : on Entry.mesg mesg
            (compact [] (process.continueAll plan p ready process.entries).1) = [] := by
          apply on_eq_nil
          intro after stays same
          have inMesgs : mesg ∈ process.entries.map Entry.mesg := by
            rw [← mesgs, ← same]
            exact List.mem_map_of_mem (mem_compact.mp stays).1
          rcases List.mem_map.mp inMesgs with ⟨entry, member, equal⟩
          exact listed ⟨entry, member, equal⟩
        rw [absent, nothing, gone]
        rfl
    · rw [on_other_call labelled later.ne', unsent_of_lt later,
        unsent_of_lt (by rwa [test_call])]
      rfl

end Test

end Local

end AllToAll

end Talpf

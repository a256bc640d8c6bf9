import Mathlib.Algebra.BigOperators.Group.List.Basic
import Mathlib.Algebra.GroupWithZero.Nat
import Talpf.IBVerbs.State

/-!
# Work requests

Every operation hands a list of work requests to the device.  Puts and gets are
cut into segments of at most `m_maxMsgSize` bytes, which the device limits to
32 bits; only the last request of a list is signalled and carries an immediate
value.  Reads and atomics cannot carry one, and so they are followed by a write
of no bytes that does.
-/

namespace Talpf

/-- `struct ibv_sge`: a local buffer. -/
structure Sge where
  addr : ℕ
  length : ℕ
  lkey : ℕ
deriving DecidableEq, Repr

/-- `enum ibv_wr_opcode` -/
inductive Opcode where
  | rdmaWrite
  | rdmaWriteWithImm
  | rdmaRead
  | atomicFetchAndAdd
  | atomicCmpAndSwp
deriving DecidableEq, Repr

/-- `struct ibv_send_wr`.  Requests are linked by their order in a list. -/
structure SendWr where
  wrId : ℕ
  sge : Sge
  /-- How many local buffers there are: one or none. -/
  numSge : ℕ
  opcode : Opcode
  /-- `IBV_SEND_SIGNALED` -/
  signaled : Bool
  immData : BitVec 32
  remoteAddr : ℕ
  rkey : ℕ
  /-- `compare_add` and `swap` of an atomic -/
  compareAdd : ℕ
  swap : ℕ
deriving DecidableEq, Repr

namespace IBVerbs

variable {n : ℕ}

/-- The loop that `put` and `get` share: `left` segments of what remains. -/
def segments (maxMsgSize : ℕ) (request : Bool → ℕ → ℕ → ℕ → SendWr) :
    (left localOffset remoteOffset size : ℕ) → List SendWr
  | 0, _, _, _ => []
  | left + 1, localOffset, remoteOffset, size =>
      -- `sge->length` has 32 bits
      let length := min size maxMsgSize % 2 ^ 32
      request (left == 0) localOffset remoteOffset length ::
        segments maxMsgSize request left (localOffset + length) (remoteOffset + length)
          (size - length)

/-- How many segments an area is cut into; the last one may be smaller than the others. -/
def segmentCount (maxMsgSize size : ℕ) : ℕ :=
  size / maxMsgSize + if size % maxMsgSize > 0 then 1 else 0

/-- The largest `int` -/
def intMax : ℕ := 2 ^ 31 - 1

/-- One request of a `put`. -/
def putRequest (pid : Fin n) (verbs : IBVerbs n) (task : Task) (src dst : MemorySlot n) (mr : Mr)
    (dstPid : Fin n) (lastMsg : Bool) (srcOffset dstOffset length : ℕ) : SendWr where
  wrId := task
  sge := ⟨(src.glob pid).addr + srcOffset, length, mr.lkey⟩
  numSge := 1
  opcode := if lastMsg then .rdmaWriteWithImm else .rdmaWrite
  signaled := lastMsg
  immData := verbs.immData
  remoteAddr := (dst.glob dstPid).addr + dstOffset
  rkey := (dst.glob dstPid).rkey
  compareAdd := 0
  swap := 0

/-- The requests of a `put`.  `none` is a failed assertion, an access beyond an array, or a number
of requests that no `int` holds. -/
def putRequests (pid : Fin n) (verbs : IBVerbs n) (maxMsgSize : ℕ) (task : Task)
    (srcSlot srcOffset : ℕ) (dstPid : Fin n) (dstSlot dstOffset size : ℕ) :
    Option (List SendWr) :=
  match verbs.memreg.lookup srcSlot, verbs.memreg.lookup dstSlot with
  | some src, some dst =>
      src.mr.bind fun mr =>
        let numMsgs := if size = 0 then 1 else segmentCount maxMsgSize size
        if numMsgs ≤ intMax then
          some (segments maxMsgSize (putRequest pid verbs task src dst mr dstPid) numMsgs srcOffset
            dstOffset size)
        else none
  | _, _ => none

/-- One read of a `get`. -/
def getRequest (pid : Fin n) (src dst : MemorySlot n) (mr : Mr) (srcPid : Fin n) (_lastMsg : Bool)
    (dstOffset srcOffset length : ℕ) : SendWr where
  wrId := pid
  sge := ⟨(dst.glob pid).addr + dstOffset, length, mr.lkey⟩
  numSge := 1
  opcode := .rdmaRead
  signaled := false
  immData := 0
  remoteAddr := (src.glob srcPid).addr + srcOffset
  rkey := (src.glob srcPid).rkey
  compareAdd := 0
  swap := 0

/-- The extra message that does the local and the remote completion. -/
def completionRequest (verbs : IBVerbs n) (task : Task) (localAddr lkey remoteAddr rkey : ℕ) :
    SendWr where
  wrId := task
  sge := ⟨localAddr, 0, lkey⟩
  numSge := 0
  opcode := .rdmaWriteWithImm
  signaled := true
  immData := verbs.immData
  remoteAddr := remoteAddr
  rkey := rkey
  compareAdd := 0
  swap := 0

/-- The requests of a `get`.  `none` is as for `putRequests`. -/
def getRequests (pid : Fin n) (verbs : IBVerbs n) (maxMsgSize : ℕ) (task : Task) (srcPid : Fin n)
    (srcSlot srcOffset dstSlot dstOffset size : ℕ) : Option (List SendWr) :=
  match verbs.memreg.lookup srcSlot, verbs.memreg.lookup dstSlot with
  | some src, some dst =>
      dst.mr.bind fun mr =>
        let numMsgs := segmentCount maxMsgSize size
        if numMsgs + 1 ≤ intMax then
          some (segments maxMsgSize (getRequest pid src dst mr srcPid) numMsgs dstOffset srcOffset
              size ++
            [completionRequest verbs task (dst.glob pid).addr mr.lkey (src.glob srcPid).addr
              (src.glob srcPid).rkey])
        else none
  | _, _ => none

/-- The requests of an atomic operation on 64 bits.  `none` is a failed assertion, a null pointer or
an access beyond an array. -/
def atomicRequests (opcode : Opcode) (compareAdd swap : ℕ) (pid : Fin n) (verbs : IBVerbs n)
    (task : Task) (srcSlot srcOffset : ℕ) (dstPid : Fin n) (dstSlot dstOffset : ℕ) :
    Option (List SendWr) :=
  match verbs.memreg.lookup srcSlot, verbs.memreg.lookup dstSlot with
  | some src, some dst =>
      dst.mr.bind fun dstMr => src.mr.map fun srcMr =>
        let localAddr := (src.glob pid).addr + srcOffset
        let remoteAddr := (dst.glob dstPid).addr + dstOffset
        [{  wrId := 0
            sge := ⟨localAddr, 8, srcMr.lkey⟩
            numSge := 1
            opcode := opcode
            signaled := false
            immData := 0
            remoteAddr := remoteAddr
            rkey := (dst.glob dstPid).rkey
            compareAdd := compareAdd
            swap := swap },
          -- the key is that of the source slot
          completionRequest verbs task localAddr dstMr.lkey remoteAddr (src.glob dstPid).rkey]
  | _, _ => none

def atomicFetchAndAddRequests (pid : Fin n) (verbs : IBVerbs n) (task : Task)
    (srcSlot srcOffset : ℕ) (dstPid : Fin n) (dstSlot dstOffset value : ℕ) :
    Option (List SendWr) :=
  atomicRequests .atomicFetchAndAdd value 0 pid verbs task srcSlot srcOffset dstPid dstSlot
    dstOffset

def atomicCmpAndSwpRequests (pid : Fin n) (verbs : IBVerbs n) (task : Task)
    (srcSlot srcOffset : ℕ) (dstPid : Fin n) (dstSlot dstOffset cmp swp : ℕ) :
    Option (List SendWr) :=
  atomicRequests .atomicCmpAndSwp cmp swp pid verbs task srcSlot srcOffset dstPid dstSlot dstOffset

section Posted

variable {pid peer : Fin n} {verbs : IBVerbs n} {maxMsgSize : ℕ} {task : Task}
  {srcSlot srcOffset dstSlot dstOffset size : ℕ} {requests : List SendWr}

theorem putRequests_cases (posted : putRequests pid verbs maxMsgSize task srcSlot srcOffset peer
    dstSlot dstOffset size = some requests) :
    ∃ src dst mr, verbs.memreg.lookup srcSlot = some src ∧
      verbs.memreg.lookup dstSlot = some dst ∧ src.mr = some mr ∧
      requests = segments maxMsgSize (putRequest pid verbs task src dst mr peer)
        (if size = 0 then 1 else segmentCount maxMsgSize size) srcOffset dstOffset size := by
  rw [putRequests] at posted
  split at posted
  next src dst foundSrc foundDst =>
    rcases Option.bind_eq_some_iff.mp posted with ⟨mr, isMr, fits⟩
    rcases Option.ite_none_right_eq_some.mp fits with ⟨_, same⟩
    rw [Option.some.injEq] at same
    exact ⟨src, dst, mr, foundSrc, foundDst, isMr, same.symm⟩
  next => cases posted

theorem getRequests_cases (posted : getRequests pid verbs maxMsgSize task peer srcSlot srcOffset
    dstSlot dstOffset size = some requests) :
    ∃ src dst mr, verbs.memreg.lookup srcSlot = some src ∧
      verbs.memreg.lookup dstSlot = some dst ∧ dst.mr = some mr ∧
      requests = segments maxMsgSize (getRequest pid src dst mr peer)
          (segmentCount maxMsgSize size) dstOffset srcOffset size ++
        [completionRequest verbs task (dst.glob pid).addr mr.lkey (src.glob peer).addr
          (src.glob peer).rkey] := by
  rw [getRequests] at posted
  split at posted
  next src dst foundSrc foundDst =>
    rcases Option.bind_eq_some_iff.mp posted with ⟨mr, isMr, fits⟩
    rcases Option.ite_none_right_eq_some.mp fits with ⟨_, same⟩
    rw [Option.some.injEq] at same
    exact ⟨src, dst, mr, foundSrc, foundDst, isMr, same.symm⟩
  next => cases posted

end Posted

/-- How many bytes a list of requests moves. -/
def totalLength (requests : List SendWr) : ℕ := (requests.map fun request => request.sge.length).sum

/-- Segments that cover `size` bytes from a local and a remote address on: each one begins where
those before it end. -/
structure Segmentation (maxMsgSize localAddr remoteAddr size : ℕ) (requests : List SendWr) :
    Prop where
  localAddr : ∀ (k : ℕ) (request : SendWr), requests[k]? = some request →
    request.sge.addr = localAddr + totalLength (requests.take k)
  remoteAddr : ∀ (k : ℕ) (request : SendWr), requests[k]? = some request →
    request.remoteAddr = remoteAddr + totalLength (requests.take k)
  total : totalLength requests = size
  bounded : ∀ request ∈ requests, request.sge.length ≤ maxMsgSize
  numSge : ∀ request ∈ requests, request.numSge = 1

variable {maxMsgSize : ℕ} {request : Bool → ℕ → ℕ → ℕ → SendWr}

@[simp]
theorem length_segments (left localOffset remoteOffset size : ℕ) :
    (segments maxMsgSize request left localOffset remoteOffset size).length = left := by
  induction left generalizing localOffset remoteOffset size with
  | zero => rfl
  | succ left ih => simp only [segments, List.length_cons, ih]

theorem totalLength_cons (first : SendWr) (rest : List SendWr) :
    totalLength (first :: rest) = first.sge.length + totalLength rest := by
  simp only [totalLength, List.map_cons, List.sum_cons]

/-- Only the last segment knows that it is the last one. -/
theorem getElem?_segments {left localOffset remoteOffset size k : ℕ} {found : SendWr}
    (entry : (segments maxMsgSize request left localOffset remoteOffset size)[k]? = some found) :
    ∃ localAt remoteAt length, found = request (k + 1 == left) localAt remoteAt length := by
  induction left generalizing localOffset remoteOffset size k with
  | zero => simp [segments] at entry
  | succ left ih =>
      cases k with
      | zero =>
          have isLast : (0 + 1 == left + 1) = (left == 0) := by
            rw [Bool.eq_iff_iff, beq_iff_eq, beq_iff_eq]
            omega
          simp only [segments, List.getElem?_cons_zero, Option.some.injEq] at entry
          rw [isLast]
          exact ⟨_, _, _, entry.symm⟩
      | succ k =>
          simp only [segments, List.getElem?_cons_succ] at entry
          rcases ih entry with ⟨localAt, remoteAt, length, same⟩
          refine ⟨localAt, remoteAt, length, same.trans ?_⟩
          simp

/-- The segments cover as much as fits into them. -/
theorem segmentation_segments {localBase remoteBase : ℕ} (device : maxMsgSize < 2 ^ 32)
    (places : ∀ last localOffset remoteOffset length,
      (request last localOffset remoteOffset length).sge.addr = localBase + localOffset ∧
        (request last localOffset remoteOffset length).remoteAddr = remoteBase + remoteOffset ∧
        (request last localOffset remoteOffset length).sge.length = length ∧
        (request last localOffset remoteOffset length).numSge = 1)
    (left localOffset remoteOffset size : ℕ) :
    Segmentation maxMsgSize (localBase + localOffset) (remoteBase + remoteOffset)
      (min size (left * maxMsgSize))
      (segments maxMsgSize request left localOffset remoteOffset size) := by
  induction left generalizing localOffset remoteOffset size with
  | zero =>
      refine ⟨?_, ?_, ?_, ?_, ?_⟩ <;> simp [segments, totalLength]
  | succ left ih =>
      have short : min size maxMsgSize % 2 ^ 32 = min size maxMsgSize :=
        Nat.mod_eq_of_lt (Nat.lt_of_le_of_lt (Nat.min_le_right _ _) device)
      simp only [segments, short]
      generalize isLength : min size maxMsgSize = length
      rcases places (left == 0) localOffset remoteOffset length with
        ⟨itsAddr, itsRemote, itsLength, itsSge⟩
      have rest := ih (localOffset + length) (remoteOffset + length) (size - length)
      generalize segments maxMsgSize request left (localOffset + length) (remoteOffset + length)
        (size - length) = others at rest
      generalize request (left == 0) localOffset remoteOffset length = first
        at itsAddr itsRemote itsLength itsSge
      refine ⟨?_, ?_, ?_, ?_, ?_⟩
      · intro k found entry
        cases k with
        | zero =>
            rw [List.getElem?_cons_zero, Option.some.injEq] at entry
            rw [← entry, itsAddr]
            simp [totalLength]
        | succ k =>
            rw [List.getElem?_cons_succ] at entry
            rw [rest.localAddr k found entry, List.take_succ_cons, totalLength_cons, itsLength]
            omega
      · intro k found entry
        cases k with
        | zero =>
            rw [List.getElem?_cons_zero, Option.some.injEq] at entry
            rw [← entry, itsRemote]
            simp [totalLength]
        | succ k =>
            rw [List.getElem?_cons_succ] at entry
            rw [rest.remoteAddr k found entry, List.take_succ_cons, totalLength_cons, itsLength]
            omega
      · rw [totalLength_cons, itsLength, rest.total, Nat.add_mul, Nat.one_mul]
        omega
      · rw [List.forall_mem_cons, itsLength, ← isLength]
        exact ⟨Nat.min_le_right _ _, rest.bounded⟩
      · rw [List.forall_mem_cons]
        exact ⟨itsSge, rest.numSge⟩

/-- There are enough segments for the whole area. -/
theorem le_segmentCount_mul (positive : 0 < maxMsgSize) (size : ℕ) :
    size ≤ segmentCount maxMsgSize size * maxMsgSize := by
  have division := Nat.div_add_mod size maxMsgSize
  have remainder := Nat.mod_lt size positive
  rw [Nat.mul_comm] at division
  rw [segmentCount, Nat.add_mul]
  split
  next => omega
  next => omega

/-- Exactly the last request is signalled, and exactly the last one carries an immediate value. -/
structure Notifies (immData : BitVec 32) (requests : List SendWr) : Prop where
  nonempty : requests ≠ []
  signaled : ∀ (k : ℕ) (request : SendWr), requests[k]? = some request →
    (request.signaled = true ↔ k + 1 = requests.length)
  carries : ∀ (k : ℕ) (request : SendWr), requests[k]? = some request →
    (request.opcode = .rdmaWriteWithImm ↔ k + 1 = requests.length)
  immData : ∀ (k : ℕ) (request : SendWr), requests[k]? = some request →
    k + 1 = requests.length → request.immData = immData

/-- Requests that neither are signalled nor carry an immediate value, and a completion. -/
theorem notifies_completion {immData : BitVec 32} {reads : List SendWr} {last : SendWr}
    (silent : ∀ read ∈ reads, read.signaled = false ∧ read.opcode ≠ .rdmaWriteWithImm)
    (signaled : last.signaled = true) (carries : last.opcode = .rdmaWriteWithImm)
    (value : last.immData = immData) : Notifies immData (reads ++ [last]) := by
  have cases : ∀ (k : ℕ) (request : SendWr), (reads ++ [last])[k]? = some request →
      (request ∈ reads ∧ k + 1 ≠ (reads ++ [last]).length) ∨
        (request = last ∧ k + 1 = (reads ++ [last]).length) := by
    intro k request entry
    have bound := (List.getElem?_eq_some_iff.mp entry).1
    rw [List.length_append, List.length_singleton] at bound ⊢
    by_cases early : k < reads.length
    · rw [List.getElem?_append_left early] at entry
      exact Or.inl ⟨List.mem_of_getElem? entry, by omega⟩
    · have here : k = reads.length := by omega
      rw [here, List.getElem?_concat_length, Option.some.injEq] at entry
      exact Or.inr ⟨entry.symm, by omega⟩
  refine ⟨by simp, ?_, ?_, ?_⟩
  · intro k request entry
    rcases cases k request entry with ⟨member, early⟩ | ⟨rfl, atEnd⟩
    · rw [(silent request member).1]
      exact iff_of_false Bool.false_ne_true early
    · exact iff_of_true signaled atEnd
  · intro k request entry
    rcases cases k request entry with ⟨member, early⟩ | ⟨rfl, atEnd⟩
    · exact iff_of_false (silent request member).2 early
    · exact iff_of_true carries atEnd
  · intro k request entry atEnd
    rcases cases k request entry with ⟨_, early⟩ | ⟨rfl, _⟩
    · exact absurd atEnd early
    · exact value

section Lists

variable (pid peer : Fin n) (verbs : IBVerbs n) (src dst : MemorySlot n) (mr : Mr)

theorem putSegments (positive : 0 < maxMsgSize) (device : maxMsgSize < 2 ^ 32) (task : Task)
    (srcOffset dstOffset size : ℕ) {count : ℕ}
    (isCount : count = if size = 0 then 1 else segmentCount maxMsgSize size) :
    Segmentation maxMsgSize ((src.glob pid).addr + srcOffset) ((dst.glob peer).addr + dstOffset)
        size (segments maxMsgSize (putRequest pid verbs task src dst mr peer) count srcOffset
          dstOffset size) ∧
      Notifies verbs.immData
        (segments maxMsgSize (putRequest pid verbs task src dst mr peer) count srcOffset dstOffset
          size) := by
  have enough : min size (count * maxMsgSize) = size := by
    apply Nat.min_eq_left
    rw [isCount]
    split
    next empty => omega
    next => exact le_segmentCount_mul positive size
  have nonzero : 0 < count := by
    rw [isCount]
    split
    next => exact Nat.one_pos
    next nonempty =>
      by_contra none
      have := le_segmentCount_mul positive size
      rw [Nat.eq_zero_of_not_pos none, Nat.zero_mul] at this
      omega
  have covers := @segmentation_segments _ (putRequest pid verbs task src dst mr peer) _ _
    device (fun _ _ _ _ => ⟨rfl, rfl, rfl, rfl⟩) count srcOffset dstOffset size
  rw [enough] at covers
  refine ⟨covers, ?_, ?_, ?_, ?_⟩
  · apply List.ne_nil_of_length_pos
    rw [length_segments]
    exact nonzero
  · intro k request entry
    rcases getElem?_segments entry with ⟨_, _, _, rfl⟩
    simp [putRequest]
  · intro k request entry
    rcases getElem?_segments entry with ⟨_, _, _, rfl⟩
    simp [putRequest]
  · intro k request entry _
    rcases getElem?_segments entry with ⟨_, _, _, rfl⟩
    rfl

theorem getSegments (positive : 0 < maxMsgSize) (device : maxMsgSize < 2 ^ 32)
    (dstOffset srcOffset size : ℕ) :
    Segmentation maxMsgSize ((dst.glob pid).addr + dstOffset) ((src.glob peer).addr + srcOffset)
        size (segments maxMsgSize (getRequest pid src dst mr peer) (segmentCount maxMsgSize size)
          dstOffset srcOffset size) ∧
      ∀ read ∈ segments maxMsgSize (getRequest pid src dst mr peer) (segmentCount maxMsgSize size)
          dstOffset srcOffset size, read.signaled = false ∧ read.opcode ≠ .rdmaWriteWithImm := by
  have covers := @segmentation_segments _ (getRequest pid src dst mr peer) _ _ device
    (fun _ _ _ _ => ⟨rfl, rfl, rfl, rfl⟩) (segmentCount maxMsgSize size) dstOffset srcOffset size
  rw [Nat.min_eq_left (le_segmentCount_mul positive size)] at covers
  refine ⟨covers, ?_⟩
  intro read member
  rcases List.mem_iff_getElem?.mp member with ⟨k, entry⟩
  rcases getElem?_segments entry with ⟨_, _, _, rfl⟩
  exact ⟨rfl, by simp [getRequest]⟩

end Lists

/-- The lists of puts and gets cover the requested areas and notify once, at their end.  That of a
get has a request without bytes for its completion, which counts in the bound on its length. -/
theorem requests_cover {pid peer : Fin n} {verbs : IBVerbs n} {src dst : MemorySlot n}
    {srcSlot dstSlot : ℕ}
    (foundSrc : verbs.memreg.lookup srcSlot = some src)
    (foundDst : verbs.memreg.lookup dstSlot = some dst) (positive : 0 < maxMsgSize)
    (device : maxMsgSize < 2 ^ 32) (task : Task) (srcOffset dstOffset size : ℕ) :
    (src.mr.isSome → (if size = 0 then 1 else segmentCount maxMsgSize size) ≤ intMax →
      ∃ requests, putRequests pid verbs maxMsgSize task srcSlot srcOffset peer dstSlot dstOffset
          size = some requests ∧
        Segmentation maxMsgSize ((src.glob pid).addr + srcOffset)
          ((dst.glob peer).addr + dstOffset) size requests ∧
        Notifies verbs.immData requests) ∧
    (dst.mr.isSome → segmentCount maxMsgSize size + 1 ≤ intMax →
      ∃ reads last, getRequests pid verbs maxMsgSize task peer srcSlot srcOffset dstSlot dstOffset
          size = some (reads ++ [last]) ∧
        Segmentation maxMsgSize ((dst.glob pid).addr + dstOffset)
          ((src.glob peer).addr + srcOffset) size reads ∧
        last.numSge = 0 ∧ last.sge.length = 0 ∧ Notifies verbs.immData (reads ++ [last])) := by
  constructor
  · intro registered fits
    rcases Option.isSome_iff_exists.mp registered with ⟨mr, isMr⟩
    rcases putSegments pid peer verbs src dst mr positive device task srcOffset dstOffset size rfl
      with ⟨covers, notifies⟩
    refine ⟨_, ?_, covers, notifies⟩
    simp only [putRequests, foundSrc, foundDst, isMr, Option.bind_some, if_pos fits]
  · intro registered fits
    rcases Option.isSome_iff_exists.mp registered with ⟨mr, isMr⟩
    rcases getSegments pid peer src dst mr positive device dstOffset srcOffset size
      with ⟨covers, silent⟩
    refine ⟨_, completionRequest verbs task (dst.glob pid).addr mr.lkey (src.glob peer).addr
      (src.glob peer).rkey, ?_, covers, rfl, rfl, notifies_completion silent rfl rfl rfl⟩
    simp only [getRequests, foundSrc, foundDst, isMr, Option.bind_some, if_pos fits]

/-- One process with a registered area of ten bytes. -/
def tenBytes : IBVerbs 1 :=
  { IBVerbs.initial (.generous 1) with
    memreg := ⟨⟨[⟨some ⟨3, 3⟩, fun _ => ⟨100, 10, 3, 3⟩⟩], [], 1, 1⟩, .empty⟩ }

/-- Ten bytes need three requests of at most four bytes, and no bytes need one. -/
theorem requests_cover_tenBytes :
    (∃ requests, putRequests 0 tenBytes 4 7 1 0 0 1 0 10 = some requests ∧
      Segmentation 4 100 100 10 requests ∧ Notifies 0 requests) ∧
    ∃ reads last, getRequests 0 tenBytes 4 7 0 1 10 1 10 0 = some (reads ++ [last]) ∧
      Segmentation 4 110 110 0 reads ∧ last.numSge = 0 ∧ last.sge.length = 0 ∧
        Notifies 0 (reads ++ [last]) :=
  ⟨(@requests_cover 1 4 0 0 tenBytes _ _ 1 1 rfl rfl (by decide) (by decide) 7 0 0 10).1 rfl
      (by decide),
    (@requests_cover 1 4 0 0 tenBytes _ _ 1 1 rfl rfl (by decide) (by decide) 7 10 10 0).2 rfl
      (by decide)⟩

end IBVerbs

end Talpf

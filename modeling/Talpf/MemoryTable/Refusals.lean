import Talpf.MemoryTable.Exchange

/-!
# Refused registrations

A device may refuse to register an area.  In a global registration the process
with such a device reports it in another reduction than the one in which the
others ask for refusals, so that the calls match only if all devices refuse or
none does.
-/

namespace Talpf

open Spmd

namespace Comm

variable {n : ℕ} {α : Type}

theorem executes_allreduceAnd {flags : Fin n → Bool} {nexts : Fin n → Bool → Comm n α}
    {rounds : List (Fin n → Collective n)} {values : Fin n → α}
    (rest : Executes (fun p => nexts p (decide (∀ q, flags q = true))) rounds values) :
    Executes (fun p => (.call (.allreduceAnd (flags p)) (nexts p) : Comm n α))
      ((fun p => .allreduceAnd (flags p)) :: rounds) values :=
  .of_call (fun _ _ => rfl) rest

end Comm

namespace IBVerbs

variable {n : ℕ} {verbs : Fin n → IBVerbs n} {addr size : Fin n → ℕ}

/-- The device refuses an area of the given size. -/
def Refuses (verbs : IBVerbs n) (size : ℕ) : Prop := size > 0 ∧ (verbs.openMr size).1.isNone

instance (verbs : IBVerbs n) (size : ℕ) : Decidable (verbs.Refuses size) :=
  inferInstanceAs (Decidable (_ ∧ _))

/-- Register an area of every process. -/
def regAll (verbs : Fin n → IBVerbs n) (addr size : Fin n → ℕ) (p : Fin n) :
    Comm n (IBVerbs n × Except Exn ℕ) :=
  (verbs p).regGlobal (addr p) (size p)

/-- All processes take part in the same collectives.  If some device refuses, then all processes
throw and add no slot, and otherwise all add the same slot. -/
def RegisteredTogether (verbs : Fin n → IBVerbs n) (addr size : Fin n → ℕ) : Prop :=
  ∃ rounds results, Executes (regAll verbs addr size) rounds results ∧
    (∀ p q, Collective.kinds p rounds = Collective.kinds q rounds) ∧
    ((∃ p, (verbs p).Refuses (size p)) → ∀ p, (results p).2 = .error .exception ∧
      (results p).1.memreg = (verbs p).memreg) ∧
    ((∀ p, ¬(verbs p).Refuses (size p)) → ∃ slot, ∀ p, (results p).2 = .ok slot ∧
      ∃ memreg, (verbs p).memreg.addGlobalReg
          ⟨((verbs p).openMr (size p)).1, fun _ => .null⟩ = some (slot, memreg) ∧
        ∃ areas,
          (results p).1.memreg = memreg.update slot fun entry => { entry with glob := areas })

/-- A process whose device refuses reports it in a conjunction. -/
theorem regGlobal_refused {verbs : IBVerbs n} {size : ℕ} (refuses : verbs.Refuses size)
    (addr : ℕ) : verbs.regGlobal addr size =
      .call (.allreduceAnd true) fun _ => .done ((verbs.openMr size).2, .error .exception) := by
  unfold Refuses at refuses
  simp only [regGlobal, if_pos refuses]

/-- A process whose device does not refuse asks for refusals in a disjunction. -/
theorem regGlobal_accepted {verbs : IBVerbs n} {size : ℕ} (accepts : ¬verbs.Refuses size)
    (addr : ℕ) : ∃ next, verbs.regGlobal addr size = .call (.allreduceOr false) next := by
  unfold Refuses at accepts
  simp only [regGlobal, if_neg accepts]
  exact ⟨_, rfl⟩

theorem not_executes_regAll {p q : Fin n} (refuses : (verbs p).Refuses (size p))
    (accepts : ¬(verbs q).Refuses (size q)) {rounds : List (Fin n → Collective n)}
    {results : Fin n → IBVerbs n × Except Exn ℕ} :
    ¬Executes (regAll verbs addr size) rounds results := by
  rcases regGlobal_accepted accepts (addr q) with ⟨next, asks⟩
  exact Comm.not_of_kinds (regGlobal_refused refuses (addr p)) asks
    (by simp [Collective.kind])

theorem regAll_refused (refuses : ∀ p, (verbs p).Refuses (size p)) :
    Executes (regAll verbs addr size) [fun _ => .allreduceAnd true]
      fun p => (((verbs p).openMr (size p)).2, .error .exception) := by
  have programs : regAll verbs addr size = fun p => .call (.allreduceAnd true) fun _ =>
      .done (((verbs p).openMr (size p)).2, .error .exception) :=
    funext fun p => regGlobal_refused (refuses p) (addr p)
  rw [programs]
  apply Comm.executes_allreduceAnd
  exact .of_done _

/-- Registers that have dealt the same slots and have room deal the same next slot. -/
theorem addGlobalReg_dealt {dealer : SlotDealer} {verbs : IBVerbs n}
    (aligned : verbs.memreg.globalRegister.dealer = dealer)
    (room : dealer.deal.1 < verbs.memreg.globalRegister.capacity) (entry : MemorySlot n) :
    ∃ memreg, verbs.memreg.addGlobalReg entry =
      some (CombinedMemoryRegister.toGlobal dealer.deal.1, memreg) := by
  subst aligned
  have adds := MemoryRegister.add_eq _ entry room
  rw [CombinedMemoryRegister.addGlobalReg, adds]
  exact ⟨_, rfl⟩

/-- A global registration is all-or-none exactly if all devices refuse or none does. -/
theorem registeredTogether_iff (dealer : SlotDealer)
    (aligned : ∀ p, (verbs p).memreg.globalRegister.dealer = dealer)
    (room : ∀ p, dealer.deal.1 < (verbs p).memreg.globalRegister.capacity) :
    RegisteredTogether verbs addr size ↔
      (∀ p, (verbs p).Refuses (size p)) ∨ ∀ p, ¬(verbs p).Refuses (size p) := by
  constructor
  · rintro ⟨rounds, results, execution, _⟩
    by_contra mixed
    rw [not_or, not_forall, not_forall] at mixed
    rcases mixed with ⟨⟨q, accepts⟩, ⟨p, refuses⟩⟩
    exact not_executes_regAll (not_not.mp refuses) accepts execution
  · rintro (refuses | accepts)
    · refine ⟨_, _, regAll_refused refuses, fun _ _ => rfl, ?_, ?_⟩
      · intro _ p
        exact ⟨rfl, memreg_openMr (verbs p) (size p)⟩
      · intro accepts
        refine ⟨CombinedMemoryRegister.toGlobal dealer.deal.1, ?_⟩
        intro p
        exact absurd (refuses p) (accepts p)
    · choose memreg added using fun p => addGlobalReg_dealt (aligned p) (room p)
        ⟨((verbs p).openMr (size p)).1, fun _ => .null⟩
      refine ⟨_, _, regGlobal_executes accepts added, fun _ _ => rfl, ?_, ?_⟩
      · rintro ⟨p, refuses⟩
        exact absurd refuses (accepts p)
      · intro _
        refine ⟨CombinedMemoryRegister.toGlobal dealer.deal.1, ?_⟩
        intro p
        exact ⟨rfl, memreg p, added p, announced verbs addr size, rfl⟩

/-- Two processes of which the device of the first one refuses everything. -/
def halfRefusing (p : Fin 2) : IBVerbs 2 :=
  ((initial { Device.generous 2 with
    regMr := fun k => if p.val = 0 then none else some ⟨k, k⟩ }).resizeMemreg .none .none 1).1

theorem registeredTogether_two :
    RegisteredTogether (fun _ => halfRefusing 1) (fun _ => 100) (fun _ => 8) :=
  (registeredTogether_iff .initial (fun _ => rfl) (fun _ => by decide)).mpr
    (Or.inr fun _ => by decide)

/-- The first of two devices refuses. -/
theorem not_registeredTogether_two :
    ¬RegisteredTogether halfRefusing (fun _ => 100) (fun _ => 8) := by
  rintro ⟨rounds, results, execution, _⟩
  exact not_executes_regAll (p := 0) (q := 1) (by decide) (by decide) execution

end IBVerbs

end Talpf

import ByteMachine.Machine.Run
import Mathlib.Logic.Function.Iterate
/-!
# The page register is never read

The page register would select a bank of RAM, but the machine has a single bank of 256 bytes.
The one instruction that reads the register, a load through a register, adds the page as the
high byte of the address and then masks the address to its low byte, which drops the page
again. So the page register is write-only: two machines that differ only in it take the same
steps, write the same outputs and stay equal but for it, and `set r rampage` changes nothing
that any later step can see.

The statements compare machines through `Machine.erasePage`, which clears the page register:
two machines differ at most in their page registers when their erasures are equal.

## Main statements

* `exec_loadIndirect`: a load through a register reads the RAM byte the register names.
* `step_erasePage`: a step commutes with clearing the page register.
* `runFrom_congr_erasePage`: so do bounded runs.
* `page_never_observed`: two machines that differ only in their page registers run alike, step
  for step and in bounded runs, and setting the page register is never observed.
-/

namespace ByteMachine

namespace Machine

/-- The machine with its page register cleared. -/
def erasePage (m : Machine) : Machine := { m with page := 0 }

end Machine

/-- A step's result with the page register of its machine cleared. -/
def Stepped.erasePage (s : Stepped) : Stepped := { s with machine := s.machine.erasePage }

/-- A run's result with the page register of its machine cleared. -/
def RunResult.erasePage (r : RunResult) : RunResult := { r with machine := r.machine.erasePage }

@[simp] theorem Stepped.erasePage_machine (s : Stepped) :
    s.erasePage.machine = s.machine.erasePage := rfl

@[simp] theorem Stepped.erasePage_output (s : Stepped) : s.erasePage.output = s.output := rfl

@[simp] theorem Stepped.erasePage_running (s : Stepped) : s.erasePage.running = s.running := rfl

/-- Two steps' results agree but for the page register when their machines do and they write the
same output and give the same result; stated on the fields, so that no step is unfolded. -/
theorem Stepped.erasePage_eq_iff {s₁ s₂ : Stepped} :
    s₁.erasePage = s₂.erasePage ↔
      s₁.machine.erasePage = s₂.machine.erasePage ∧ s₁.output = s₂.output ∧
        s₁.running = s₂.running := by
  obtain ⟨m₁, o₁, r₁⟩ := s₁
  obtain ⟨m₂, o₂, r₂⟩ := s₂
  simp [Stepped.erasePage]

theorem RunResult.erasePage_mk {m₁ m₂ : Machine} (outputs : List Int) (outcome : Outcome)
    (hm : m₁.erasePage = m₂.erasePage) :
    (RunResult.mk m₁ outputs outcome).erasePage = (RunResult.mk m₂ outputs outcome).erasePage := by
  simp only [RunResult.erasePage, hm]

namespace Machine

/-! ## The masked address -/

/-- Adding a page as the high byte and masking to the low byte gives back the low byte. -/
theorem paged_mask (r p : UInt8) : ((r.toNat + (p.toNat <<< 8)) &&& 0xFF).toUInt8 = r := by
  have hmask : (r.toNat + (p.toNat <<< 8)) &&& 0xFF = (r.toNat + p.toNat * 256) % 256 := by
    rw [Nat.shiftLeft_eq, show (0xFF : Nat) = 2 ^ 8 - 1 from rfl, Nat.and_two_pow_sub_one_eq_mod]
  have hlow : (r.toNat + p.toNat * 256) % 256 = r.toNat := by
    have := r.toNat_lt
    omega
  rw [hmask, hlow]
  exact UInt8.ofNat_toNat

/-- A load through a register reads the RAM byte that the register names, whatever the page. -/
theorem exec_loadIndirect (m : Machine) (x t : Register) :
    m.exec (.loadIndirect x t) = ⟨m.setReg t (m.read (m.reg x)), none, true⟩ := by
  simp only [exec, paged_mask]

/-! ## What clearing the page register keeps -/

variable (m : Machine)

@[simp] theorem erasePage_erasePage : m.erasePage.erasePage = m.erasePage := rfl

@[simp] theorem erasePage_reg (r : Register) : m.erasePage.reg r = m.reg r := by
  cases r <;> rfl

@[simp] theorem erasePage_read (addr : UInt8) : m.erasePage.read addr = m.read addr := rfl

@[simp] theorem erasePage_flags : m.erasePage.flags = m.flags := rfl

@[simp] theorem erasePage_modes : m.erasePage.modes = m.modes := rfl

@[simp] theorem erasePage_pc : m.erasePage.pc = m.pc := rfl

@[simp] theorem erasePage_input : m.erasePage.input = m.input := rfl

/-- Fetching reads the ROM at the program counter, which clearing the page register keeps. -/
theorem erasePage_fetch : m.erasePage.fetch = (m.fetch.1, m.fetch.2.erasePage) := rfl

theorem setReg_erasePage (r : Register) (v : UInt8) :
    (m.erasePage.setReg r v).erasePage = (m.setReg r v).erasePage := by
  cases r <;> rfl

theorem signedValue_erasePage (r : Register) : m.erasePage.signedValue r = m.signedValue r := by
  simp [signedValue, value]

theorem takeInput_erasePage : m.erasePage.takeInput = (m.takeInput.1, m.takeInput.2.erasePage) := by
  unfold takeInput
  cases h : m.input with
  | nil => simp only [erasePage_input, h]
  | cons v rest => simp only [erasePage_input, h]; rfl

/-- No ALU operation reads or writes the page register. -/
theorem execAlu_erasePage (op : AluOp) : m.erasePage.execAlu op = (m.execAlu op).erasePage := by
  have hsettle : ∀ (r : Register) (v : Int),
      m.erasePage.settle r v = (m.settle r v).erasePage := by
    intro r v
    cases r <;> rfl
  have hvalue : m.erasePage.aluValue op = m.aluValue op := by
    cases op with
    | binary op x y => cases op <;> simp [aluValue, value]
    | _ => simp [aluValue, value]
  cases op with
  | binary op x y =>
      cases op
      case div =>
        simp only [execAlu, erasePage_reg]
        split
        · cases x <;> rfl
        · rw [hvalue, hsettle]
      all_goals simp only [execAlu, hvalue, hsettle]
  | clear | carryOff | carryOn | signOff | signOn => rfl
  | _ => simp only [execAlu, hvalue, hsettle]

/-- An operation executed without the page register does what it does with it, but for the
page register itself: only `set r rampage` writes it, and a load through a register masks it
away. -/
theorem exec_erasePage (op : Op) : (m.erasePage.exec op).erasePage = (m.exec op).erasePage := by
  cases op with
  | loadIndirect x t =>
      rw [exec_loadIndirect, exec_loadIndirect]
      simp only [Stepped.erasePage, erasePage_reg, erasePage_read, setReg_erasePage]
  | jump c =>
      simp only [exec, erasePage_fetch, erasePage_flags]
      by_cases hc : c.holds m.fetch.2.fetch.2.flags
      · simp only [hc, if_true]
        rfl
      · simp only [hc]
        rfl
  | jumpRelative c =>
      simp only [exec, erasePage_fetch, erasePage_flags, erasePage_pc]
      by_cases hc : c.holds m.fetch.2.flags
      · simp only [hc, if_true]
        rfl
      · simp only [hc]
        rfl
  | alu op =>
      simp only [exec, Stepped.erasePage, execAlu_erasePage, erasePage_erasePage]
  | input t =>
      simp only [exec, takeInput_erasePage, Stepped.erasePage, setReg_erasePage]
  | output r =>
      simp only [exec, Stepped.erasePage, signedValue_erasePage, erasePage_erasePage]
  | move x y =>
      simp only [exec, Stepped.erasePage, erasePage_reg, setReg_erasePage]
  | loadImmediate t | loadDirect t =>
      simp only [exec, erasePage_fetch, Stepped.erasePage, erasePage_read, setReg_erasePage]
  | saveDirect r | outputImmediate | outputDirect =>
      simp only [exec, erasePage_fetch, erasePage_reg, erasePage_read]
      rfl
  | saveIndirect s x | saveCurrent r | outputIndirect r =>
      simp only [exec, erasePage_reg, erasePage_read]
      rfl
  | nop | halt | compare r rhs | setPage r | saveMar r => rfl

/-! ## Steps and runs -/

/-- A step commutes with clearing the page register: the fetch reads the ROM at the program
counter, which the page register does not touch. -/
theorem step_erasePage : m.erasePage.step.erasePage = m.step.erasePage := by
  unfold step
  rw [erasePage_fetch]
  generalize m.fetch = f
  obtain ⟨opcode, m'⟩ := f
  dsimp only
  cases opAt opcode with
  | none => rfl
  | some op => exact exec_erasePage m' op

variable {m₁ m₂ : Machine}

/-- Machines that differ only in their page registers take the same step. -/
theorem step_congr_erasePage (h : m₁.erasePage = m₂.erasePage) :
    m₁.step.erasePage = m₂.step.erasePage := by
  rw [← step_erasePage m₁, h, step_erasePage]

/-- Machines that differ only in their page registers run alike, for any budget. -/
theorem runFrom_congr_erasePage (h : m₁.erasePage = m₂.erasePage) (done : Nat)
    (outs : Array Int) (fuel : Nat) :
    (m₁.runFrom done outs fuel).erasePage = (m₂.runFrom done outs fuel).erasePage := by
  induction fuel generalizing m₁ m₂ done outs with
  | zero =>
      simp only [runFrom, RunResult.erasePage, h]
  | succ fuel ih =>
      -- the two steps agree in output and result, and leave machines that differ only in page
      obtain ⟨hm, hout, hrun⟩ := Stepped.erasePage_eq_iff.1 (step_congr_erasePage h)
      simp only [runFrom, hout, hrun]
      split
      · exact ih hm _ _
      · exact RunResult.erasePage_mk _ _ hm

/-- Machines that differ only in their page registers are still so after any number of steps. -/
theorem iterate_congr_erasePage (h : m₁.erasePage = m₂.erasePage) (k : Nat) :
    ((fun m : Machine => m.step.machine)^[k] m₁).erasePage =
      ((fun m : Machine => m.step.machine)^[k] m₂).erasePage := by
  induction k with
  | zero => exact h
  | succ k ih =>
      rw [Function.iterate_succ_apply', Function.iterate_succ_apply']
      exact (Stepped.erasePage_eq_iff.1 (step_congr_erasePage ih)).1

/-- The page register is never observed. Two machines that differ only in their page registers,
run on the same ROM and input, take the same steps: after any number of steps, halts included,
the next step writes the same output and gives the same result on both, and leaves machines
that differ only in their page registers; and bounded runs report the same outputs and outcome.
A load through a register reads the RAM byte the register names whatever the page, and setting
the page register changes no later run. -/
theorem page_never_observed :
    (∀ m₁ m₂ : Machine, m₁.erasePage = m₂.erasePage →
      (∀ k, ((fun m : Machine => m.step.machine)^[k] m₁).step.erasePage =
        ((fun m : Machine => m.step.machine)^[k] m₂).step.erasePage) ∧
      ∀ n, (m₁.run n).erasePage = (m₂.run n).erasePage) ∧
    (∀ (m : Machine) (x t : Register),
      m.exec (.loadIndirect x t) = ⟨m.setReg t (m.read (m.reg x)), none, true⟩) ∧
    ∀ (m : Machine) (r : Register) (n : Nat),
      ((m.exec (.setPage r)).machine.run n).erasePage = (m.run n).erasePage := by
  refine ⟨fun m₁ m₂ h => ⟨fun k => step_congr_erasePage (iterate_congr_erasePage h k),
    fun n => runFrom_congr_erasePage h 0 #[] n⟩, exec_loadIndirect, fun m r n => ?_⟩
  -- setting the page register changes the page register alone
  have hset : (m.exec (.setPage r)).machine.erasePage = m.erasePage := rfl
  exact runFrom_congr_erasePage hset 0 #[] n

end Machine

end ByteMachine

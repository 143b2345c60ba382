import ByteMachine.Machine.Run
/-!
# Runs of the machine

A run of `n` steps takes the machine from one state to another without halting, and collects
what the steps write to the output port. Runs compose and split at any step, and no step writes
the ROM. A bounded run reads the first steps of any run from its start: it reports the step
limit inside the run, and it halts one step after a run that ends at a halting step.

## Main statements

* `Runs.trans`, `Runs.split`: runs compose and split.
* `Runs.rom`: a run keeps the ROM; only fetches and jumps move the program counter.
* `run_of_runs_le`, `run_of_runs_halt`: what a bounded run reports inside a run, and after a run
  that ends where the machine halts.
-/

namespace ByteMachine.Machine

/-- `Runs m n outs m'`: the machine goes from `m` to `m'` in `n` steps, none of which halts, and
the steps write `outs` to the output port. -/
inductive Runs : Machine → Nat → List Int → Machine → Prop
  | refl (m : Machine) : Runs m 0 [] m
  | step {m m' : Machine} {n : Nat} {outs : List Int} (hrun : m.step.running = true)
      (rest : Runs m.step.machine n outs m') : Runs m (n + 1) (m.step.output.toList ++ outs) m'

namespace Runs

variable {m m₁ m₂ m₃ : Machine} {n n₁ n₂ : Nat} {outs o₁ o₂ : List Int}

/-- One step that keeps the machine running. -/
theorem single {out : Option Int} (h : m.step = ⟨m₁, out, true⟩) : Runs m 1 out.toList m₁ := by
  have hrun := @Runs.step m m₁ 0 [] (by rw [h]) (by rw [h]; exact refl m₁)
  simpa [h] using hrun

theorem trans (h₁ : Runs m₁ n₁ o₁ m₂) (h₂ : Runs m₂ n₂ o₂ m₃) :
    Runs m₁ (n₁ + n₂) (o₁ ++ o₂) m₃ := by
  induction h₁ with
  | refl => simpa using h₂
  | step hrun _ ih =>
      have hstep := Runs.step hrun (ih h₂)
      rwa [List.append_assoc, Nat.add_right_comm]

/-- A run splits after any of its steps. -/
theorem split (h : Runs m n outs m') {k : Nat} (hk : k ≤ n) :
    ∃ m₁ o₁ o₂, Runs m k o₁ m₁ ∧ Runs m₁ (n - k) o₂ m' ∧ outs = o₁ ++ o₂ := by
  induction h generalizing k with
  | refl m =>
      obtain rfl : k = 0 := Nat.le_zero.1 hk
      exact ⟨m, [], [], refl m, refl m, rfl⟩
  | @step m m' n outs hrun rest ih =>
      cases k with
      | zero => exact ⟨_, [], _, refl _, Runs.step hrun rest, (List.nil_append _).symm⟩
      | succ k =>
          obtain ⟨m₁, o₁, o₂, h₁, h₂, rfl⟩ := ih (Nat.le_of_succ_le_succ hk)
          refine ⟨m₁, _ ++ o₁, o₂, Runs.step hrun h₁, ?_, (List.append_assoc _ _ _).symm⟩
          rw [Nat.add_sub_add_right]
          exact h₂

end Runs

/-! ## The ROM -/

@[simp] theorem setReg_rom (m : Machine) (r : Register) (v : UInt8) :
    (m.setReg r v).rom = m.rom := by
  cases r <;> unfold setReg <;> rfl

@[simp] theorem write_rom (m : Machine) (addr v : UInt8) : (m.write addr v).rom = m.rom := by
  unfold write
  rfl

@[simp] theorem takeInput_rom (m : Machine) : m.takeInput.2.rom = m.rom := by
  unfold takeInput
  split <;> rfl

@[simp] theorem execAlu_rom (m : Machine) (op : AluOp) : (m.execAlu op).rom = m.rom := by
  unfold execAlu settle
  split
  all_goals (try split) <;> simp

/-- No operation writes the ROM. -/
@[simp] theorem exec_rom (m : Machine) (op : Op) : (m.exec op).machine.rom = m.rom := by
  cases op
  case jump c =>
    by_cases h : c.holds ({ m with pc := m.pc + 1 + 1 } : Machine).flags <;> simp [exec, fetch, h]
  case jumpRelative c =>
    by_cases h : c.holds ({ m with pc := m.pc + 1 } : Machine).flags <;> simp [exec, fetch, h]
  all_goals simp [exec, fetch]

@[simp] theorem step_rom (m : Machine) : m.step.machine.rom = m.rom := by
  unfold step fetch
  dsimp only
  split
  · exact exec_rom _ _
  · rfl

theorem Runs.rom {m m' : Machine} {n : Nat} {outs : List Int} (h : Runs m n outs m') :
    m'.rom = m.rom := by
  induction h with
  | refl => rfl
  | step _ _ ih => rw [ih, step_rom]

/-! ## The program counter -/

@[simp] theorem setReg_pc (m : Machine) (r : Register) (v : UInt8) :
    (m.setReg r v).pc = m.pc := by
  cases r <;> rfl

@[simp] theorem write_pc (m : Machine) (addr v : UInt8) : (m.write addr v).pc = m.pc := rfl

@[simp] theorem takeInput_pc (m : Machine) : m.takeInput.2.pc = m.pc := by
  unfold takeInput
  split <;> rfl

@[simp] theorem execAlu_pc (m : Machine) (op : AluOp) : (m.execAlu op).pc = m.pc := by
  unfold execAlu settle
  split
  all_goals (try split) <;> simp

/-! ## Bounded runs -/

/-- A bounded run goes through every run from where it starts. -/
theorem runFrom_of_runs {m m' : Machine} {n : Nat} {outs : List Int} (h : Runs m n outs m')
    (done : Nat) (acc : Array Int) (fuel : Nat) :
    m.runFrom done acc (n + fuel) = m'.runFrom (done + n) (acc ++ outs.toArray) fuel := by
  induction h generalizing done acc with
  | refl => simp
  | @step m m' n outs hrun rest ih =>
      rw [Nat.add_right_comm, runFrom]
      simp only [hrun, ↓reduceIte, ih]
      -- the step's own output goes in front of the rest's
      generalize m.step.output = out
      cases out <;> simp [Nat.add_assoc, Nat.add_comm 1 n]

/-- A bounded run as long as a run ends where the run does, at the step limit. -/
theorem run_of_runs {m m' : Machine} {n : Nat} {outs : List Int} (h : Runs m n outs m') :
    m.run n = ⟨m', outs, .stepLimit n⟩ := by
  rw [run, ← Nat.add_zero n, runFrom_of_runs h]
  simp [runFrom]

/-- Within a run, a bounded run reports the step limit with a prefix of the run's outputs. -/
theorem run_of_runs_le {m m' : Machine} {n : Nat} {outs : List Int} (h : Runs m n outs m')
    {k : Nat} (hk : k ≤ n) :
    (m.run k).outputs <+: outs ∧ (m.run k).outcome = .stepLimit k := by
  obtain ⟨m₁, o₁, o₂, h₁, -, rfl⟩ := h.split hk
  rw [run_of_runs h₁]
  exact ⟨List.prefix_append o₁ o₂, rfl⟩

/-- After a run to a step that halts, a bounded run with room for that step halts there, with
the run's outputs and the halting step's. -/
theorem run_of_runs_halt {m m' : Machine} {n : Nat} {outs : List Int} (h : Runs m n outs m')
    (hhalt : m'.step.running = false) (extra : Nat) :
    m.run (n + 1 + extra) =
      ⟨m'.step.machine, outs ++ m'.step.output.toList, .halted (n + 1)⟩ := by
  rw [run, Nat.add_assoc, runFrom_of_runs h, Nat.add_comm 1 extra, runFrom]
  simp only [hhalt, Bool.false_eq_true, ↓reduceIte]
  generalize m'.step.output = out
  cases out <;> simp

end ByteMachine.Machine

import ByteMachine.Fixture.Check
/-!
# The checker runs the machine as a bounded run does

Checking a program against an expectation steps a fresh machine with its own counter. With a
step budget it is the machine's bounded run of that many steps: it halts at the same step, with
the same outputs, and leaves the same machine for the RAM comparison. Open-ended, it may stop
as soon as it holds as many outputs as expected; what it holds then is a prefix of the outputs
of the full bounded run of 5000 steps, long enough that the expected outputs start it exactly
when they start that run's outputs.

## Main statements

* `runChecked_bounded`: a check with a budget is the bounded run.
* `runChecked_openEnded`: an open-ended check stops with a prefix of the bounded run's outputs,
  either all of them or at least as many as it wanted.
* `check_agrees_with_run`: the report of a check, read off the machine's bounded run.
-/

namespace ByteMachine

namespace Outcome

/-- The steps a run took, however it ended. -/
def steps : Outcome → Nat
  | .halted k | .stepLimit k => k

/-- Whether a run ended at a halt. -/
def isHalt : Outcome → Bool
  | .halted _ => true
  | .stepLimit _ => false

end Outcome

namespace Machine

variable (m : Machine) (done : Nat) (outs : Array Int)

/-- A bounded run only adds to the outputs it started with. -/
theorem runFrom_extends_outputs (fuel : Nat) : outs.toList <+: (m.runFrom done outs fuel).outputs := by
  induction fuel generalizing m done outs with
  | zero => exact List.prefix_refl _
  | succ fuel ih =>
      rw [runFrom]
      generalize m.step = s
      obtain ⟨m', out, running⟩ := s
      -- the step's own output, if any, goes after the ones before it
      cases running
      · cases out <;> simp
      · cases out with
        | none => exact ih _ _ _
        | some v =>
            exact (List.prefix_append _ [v]).trans (by simpa using ih m' (done + 1) (outs.push v))

/-- A bounded run that ends at its limit has taken every step of its budget. -/
theorem runFrom_stepLimit {fuel k : Nat} (h : (m.runFrom done outs fuel).outcome = .stepLimit k) :
    k = done + fuel := by
  induction fuel generalizing m done outs with
  | zero =>
      simp only [runFrom, Outcome.stepLimit.injEq] at h
      omega
  | succ fuel ih =>
      rw [runFrom] at h
      generalize m.step = s at h
      obtain ⟨m', out, running⟩ := s
      cases running
      · cases h
      · have := ih _ _ _ h
        omega

end Machine

namespace Fixture

open Machine

variable (wanted : Nat) (m : Machine) (outs : Array Int) (steps : Nat)

/-- A check with a step budget is the machine's bounded run: the same machine and outputs at
the end, and the same count of steps and way of ending. -/
theorem runChecked_bounded (fuel : Nat) :
    runChecked false wanted m outs steps fuel =
      ((m.runFrom steps outs fuel).machine, (m.runFrom steps outs fuel).outputs.toArray,
        (m.runFrom steps outs fuel).outcome.steps, (m.runFrom steps outs fuel).outcome.isHalt) := by
  induction fuel generalizing m outs steps with
  | zero => simp [runChecked, runFrom, Outcome.steps, Outcome.isHalt]
  | succ fuel ih =>
      rw [runChecked, runFrom]
      generalize m.step = s
      obtain ⟨m', out, running⟩ := s
      -- only a halt stops a check with a budget before its last step; the two runs collect
      -- the step's output alike once it is known
      cases running
      · cases out <;> simp [Outcome.steps, Outcome.isHalt, ← List.push_toArray]
      · cases out <;> exact ih _ _ _

/-- An open-ended check stops with a prefix of the outputs that the bounded run over the same
budget collects: all of them, or at least as many as it wanted. -/
theorem runChecked_openEnded (fuel : Nat) :
    (runChecked true wanted m outs steps fuel).2.1.toList <+: (m.runFrom steps outs fuel).outputs ∧
      (wanted ≤ (runChecked true wanted m outs steps fuel).2.1.size ∨
        (runChecked true wanted m outs steps fuel).2.1.toList =
          (m.runFrom steps outs fuel).outputs) := by
  induction fuel generalizing m outs steps with
  | zero => simp [runChecked, runFrom]
  | succ fuel ih =>
      rw [runChecked, runFrom]
      generalize m.step = s
      obtain ⟨m', out, running⟩ := s
      cases running
      · cases out <;> exact ⟨List.prefix_refl _, .inr rfl⟩
      · cases out
        all_goals
          simp only [Bool.not_true, Bool.false_eq_true, Bool.true_and, ↓reduceIte]
          split
          · -- stopped early: enough outputs, and the run goes on from them
            rename_i henough
            exact ⟨runFrom_extends_outputs _ _ _ fuel, .inl (of_decide_eq_true henough)⟩
          · exact ih _ _ _

/-- Expected outputs start a prefix of a run's outputs that is either all of them or no shorter
than the expected ones exactly when they start the run's outputs. -/
theorem prefix_iff_of_stop {expected seen full : List Int} (hseen : seen <+: full)
    (hstop : expected.length ≤ seen.length ∨ seen = full) :
    expected <+: seen ↔ expected <+: full := by
  refine ⟨fun h => h.trans hseen, fun h => ?_⟩
  rcases hstop with hlen | rfl
  · exact List.prefix_of_prefix_length_le h hseen hlen
  · exact h

section Report

variable (program : List UInt8) (x : Expectation)

/-- The run a check makes: open-ended, or over its budget of steps. -/
def checkedRun : Machine × Array Int × Nat × Bool :=
  runChecked (decide (x.maxSteps < 0)) x.outputs.length (boot program x.inputs) #[] 0
    (if decide (x.maxSteps < 0) then openEndedLimit else x.maxSteps.toNat)

/-! The fields of a report, each read off the run. The proofs below rewrite with these rather
than unfold `check`: a report taken apart by definition would have the kernel run a literal
budget of steps. -/

theorem check_steps : (check program x).steps = (checkedRun program x).2.2.1 := rfl

theorem check_halted : (check program x).halted = (checkedRun program x).2.2.2 := rfl

theorem check_outputs : (check program x).outputs = (checkedRun program x).2.1.toList := rfl

theorem check_expectedOutputs : (check program x).expectedOutputs = x.outputs := rfl

theorem check_mismatches :
    (check program x).mismatches = mismatches x.ram (checkedRun program x).1 := rfl

theorem check_openEnded : (check program x).openEnded = decide (x.maxSteps < 0) := rfl

end Report

/-- The report of a check, read off the machine's bounded run. With a budget of `s ≥ 0` steps the
check halts at the step where the bounded run of `s` steps halts, or reports `s` steps without a
halt where that run reaches its limit; its outputs and RAM mismatches are those of the machine
that run leaves. Open-ended, it stops with a prefix of the outputs of the bounded run of 5000
steps, and the expected outputs start its outputs exactly when they start that run's. -/
theorem check_agrees_with_run (program : List UInt8) (x : Expectation) :
    (0 ≤ x.maxSteps →
      (∀ k, ((check program x).halted = true ∧ (check program x).steps = k) ↔
          ((boot program x.inputs).run x.maxSteps.toNat).outcome = .halted k) ∧
      (((check program x).halted = false ∧ (check program x).steps = x.maxSteps.toNat) ↔
          ((boot program x.inputs).run x.maxSteps.toNat).outcome = .stepLimit x.maxSteps.toNat) ∧
      (check program x).outputs = ((boot program x.inputs).run x.maxSteps.toNat).outputs ∧
      (check program x).mismatches =
        mismatches x.ram ((boot program x.inputs).run x.maxSteps.toNat).machine) ∧
    (x.maxSteps < 0 →
      (check program x).outputs <+: ((boot program x.inputs).run 5000).outputs ∧
      (check program x).outputsMatch = x.outputs.isPrefixOf ((boot program x.inputs).run 5000).outputs) := by
  refine ⟨fun hs => ?_, fun hs => ?_⟩
  · have hopen : decide (x.maxSteps < 0) = false := decide_eq_false (by omega)
    have hrun : checkedRun program x = runChecked false x.outputs.length (boot program x.inputs) #[] 0
        x.maxSteps.toNat := by
      rw [checkedRun, hopen, if_neg Bool.false_ne_true]
    rw [check_steps, check_halted, check_outputs, check_mismatches, hrun, runChecked_bounded, run,
      List.toList_toArray]
    -- the outcome decides both the halt flag and the steps
    generalize hout : ((boot program x.inputs).runFrom 0 #[] x.maxSteps.toNat).outcome = out
    have hlimit : ∀ k, out = .stepLimit k → k = x.maxSteps.toNat := fun k hk =>
      (runFrom_stepLimit _ _ _ (hout.trans hk)).trans (Nat.zero_add _)
    refine ⟨fun k => ?_, ?_, rfl, rfl⟩
    · cases out <;> simp [Outcome.steps, Outcome.isHalt]
    · cases out with
      | halted k => simp [Outcome.isHalt]
      | stepLimit k => simp [Outcome.steps, Outcome.isHalt, hlimit k rfl]
  · have hopen : decide (x.maxSteps < 0) = true := decide_eq_true hs
    have hrun : checkedRun program x = runChecked true x.outputs.length (boot program x.inputs) #[] 0
        openEndedLimit := by
      rw [checkedRun, hopen, if_pos rfl]
    -- the run of 5000 steps by the name of its budget, so that no step makes the kernel run it
    have hlimit : (boot program x.inputs).run 5000 =
        (boot program x.inputs).runFrom 0 #[] openEndedLimit := rfl
    obtain ⟨hpre, hstop⟩ := runChecked_openEnded x.outputs.length (boot program x.inputs) #[] 0
      openEndedLimit
    rw [Report.outputsMatch, check_openEnded, hopen, if_pos rfl, check_expectedOutputs,
      check_outputs, hrun, hlimit]
    refine ⟨hpre, ?_⟩
    rw [Bool.eq_iff_iff, List.isPrefixOf_iff_prefix, List.isPrefixOf_iff_prefix]
    exact prefix_iff_of_stop hpre (hstop.imp_left (by simpa using ·))

end Fixture

end ByteMachine

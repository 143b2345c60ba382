import ByteMachine.Machine.Step
/-!
# What a register comparison leaves for the signed branches

A comparison subtracts the two bytes as they stand, each read from 0 to 255, and sets the flags
from the unmasked difference. In signed mode the overflow flag marks a difference outside
-128..127, and the signed branches read "less" as the sign flag differing from it.

## Main statements

* `sign_ne_overflow_iff`: in signed mode, the sign and overflow flags of a result between -255
  and 255 differ exactly when it is negative.
* `signed_conditions_follow_unsigned_order`: after `cmp r s` in signed mode, the four signed
  conditions hold exactly when the bytes stand in the matching unsigned order.
* `signed_less_not_twos_complement`: so they do not follow the two's-complement order. At the
  bytes 0 and 128 (read as 0 and -128) the difference is -128, whose sign flag is set while the
  overflow flag is clear, and `.<` holds although 0 is the larger.

## Implementation notes

The difference `x - y` of two bytes lies in -255..255. Below zero, either it lies in -128..-1 and
sets the sign flag but not the overflow flag, or it lies in -255..-129, wraps to 1..127 and sets
the overflow flag but not the sign flag. From zero up, both flags agree. So the sign and overflow
flags differ exactly when `x < y`, whatever the bytes' top bits are.
-/

namespace ByteMachine

/-- In signed mode the sign and overflow flags of a result within a byte's distance of zero
differ exactly when the result is negative. -/
theorem sign_ne_overflow_iff {r : Int} (hlo : -256 < r) (hhi : r < 256) :
    ((Flags.ofResult true r).sign != (Flags.ofResult true r).overflow) = decide (r < 0) := by
  simp only [Flags.ofResult, Bool.true_and]
  -- the four ranges: wrapped negative, negative, small positive, large positive
  by_cases hneg : r < 0
  · by_cases hwrap : r < -128
    · have hsign : ¬ 128 ≤ r % 256 := by omega
      have hover : ¬ -128 ≤ r := by omega
      simp [hsign, hover, hneg]
    · have hsign : 128 ≤ r % 256 := by omega
      have hover : -128 ≤ r ∧ r ≤ 127 := by omega
      simp [hsign, hover, hneg]
  · by_cases hsmall : r ≤ 127
    · have hsign : ¬ 128 ≤ r % 256 := by omega
      have hover : -128 ≤ r := by omega
      simp [hsign, hover, hsmall, hneg]
    · have hsign : 128 ≤ r % 256 := by omega
      simp [hsign, hsmall, hneg]

/-- In signed mode the sign and overflow flags of such a result agree exactly when it is not
negative. -/
theorem sign_eq_overflow_iff {r : Int} (hlo : -256 < r) (hhi : r < 256) :
    ((Flags.ofResult true r).sign == (Flags.ofResult true r).overflow) = decide (0 ≤ r) := by
  have hne := sign_ne_overflow_iff hlo hhi
  rw [bne, Bool.not_eq_eq_eq_not] at hne
  rw [hne, Bool.eq_iff_iff]
  simp only [Bool.not_eq_eq_eq_not, Bool.not_true, decide_eq_false_iff_not, decide_eq_true_eq]
  omega

/-- The zero flag of a result marks zero. -/
theorem zero_ofResult (s : Bool) (r : Int) : (Flags.ofResult s r).zero = decide (r = 0) := rfl

/-! The signed conditions read the sign, overflow and zero flags. -/

theorem Condition.holds_signedLess (f : Flags) :
    Condition.signedLess.holds f = (f.sign != f.overflow) := rfl

theorem Condition.holds_signedLessEqual (f : Flags) :
    Condition.signedLessEqual.holds f = (f.sign != f.overflow || f.zero) := rfl

theorem Condition.holds_signedGreater (f : Flags) :
    Condition.signedGreater.holds f = (f.sign == f.overflow && !f.zero) := rfl

theorem Condition.holds_signedGreaterEqual (f : Flags) :
    Condition.signedGreaterEqual.holds f = (f.sign == f.overflow) := rfl

section Bytes

variable (a b : Nat) (ha : a < 256) (hb : b < 256)
include ha hb

/-- After a signed-mode difference of two bytes, `.<` holds exactly when the first is smaller. -/
theorem signedLess_ofResult_sub :
    Condition.signedLess.holds (Flags.ofResult true ((a : Int) - b)) = decide (a < b) := by
  rw [Condition.holds_signedLess, sign_ne_overflow_iff (by omega) (by omega), Bool.eq_iff_iff]
  simp only [decide_eq_true_eq]
  omega

/-- After a signed-mode difference of two bytes, `.<=` holds exactly when the first is no
larger. -/
theorem signedLessEqual_ofResult_sub :
    Condition.signedLessEqual.holds (Flags.ofResult true ((a : Int) - b)) = decide (a ≤ b) := by
  rw [Condition.holds_signedLessEqual, sign_ne_overflow_iff (by omega) (by omega), zero_ofResult,
    Bool.eq_iff_iff]
  simp only [Bool.or_eq_true, decide_eq_true_eq]
  omega

/-- After a signed-mode difference of two bytes, `.>` holds exactly when the first is larger. -/
theorem signedGreater_ofResult_sub :
    Condition.signedGreater.holds (Flags.ofResult true ((a : Int) - b)) = decide (b < a) := by
  rw [Condition.holds_signedGreater, sign_eq_overflow_iff (by omega) (by omega), zero_ofResult,
    Bool.eq_iff_iff]
  simp only [Bool.and_eq_true, Bool.not_eq_eq_eq_not, Bool.not_true, decide_eq_true_eq,
    decide_eq_false_iff_not]
  omega

/-- After a signed-mode difference of two bytes, `.>=` holds exactly when the first is no
smaller. -/
theorem signedGreaterEqual_ofResult_sub :
    Condition.signedGreaterEqual.holds (Flags.ofResult true ((a : Int) - b)) =
      decide (b ≤ a) := by
  rw [Condition.holds_signedGreaterEqual, sign_eq_overflow_iff (by omega) (by omega),
    Bool.eq_iff_iff]
  simp only [decide_eq_true_eq]
  omega

end Bytes

namespace Machine

/-- A step whose opcode decodes to an operation executes that operation after the fetch. -/
theorem step_of_decode {m : Machine} {op : Op} (h : decode (m.romAt m.pc) = some op) :
    m.step = m.fetch.2.exec op := by
  unfold step
  simp only [fetch]
  rw [opAt_eq_decode, h]

/-- Fetching moves only the program counter, so the registers read as before. -/
theorem fetch_reg (m : Machine) (r : Register) : m.fetch.2.reg r = m.reg r := by
  cases r <;> rfl

/-- A register comparison sets the flags from the difference of the two bytes. -/
theorem exec_compare_flags (m : Machine) (r s : Register) :
    (m.exec (.compare r (.register s))).machine.flags =
      Flags.ofResult m.modes.signed ((m.reg r).toNat - (m.reg s).toNat) := rfl

/-- The flags that a step executing `cmp r s` leaves. -/
theorem step_compare_flags {m : Machine} {r s : Register}
    (hop : decode (m.romAt m.pc) = some (.compare r (.register s))) :
    m.step.machine.flags =
      Flags.ofResult m.modes.signed ((m.reg r).toNat - (m.reg s).toNat) := by
  rw [step_of_decode hop, exec_compare_flags, fetch_reg, fetch_reg]
  rfl

/-- After `cmp r s` in signed mode, the four signed conditions follow the unsigned order of the
two bytes: the difference is taken of the bytes from 0 to 255, and the sign and overflow flags
differ exactly when it is negative. -/
theorem signed_conditions_follow_unsigned_order (m : Machine) (r s : Register)
    (hs : m.modes.signed = true)
    (hop : decode (m.romAt m.pc) = some (.compare r (.register s))) :
    (Condition.signedLess.holds m.step.machine.flags = true ↔ m.reg r < m.reg s) ∧
    (Condition.signedLessEqual.holds m.step.machine.flags = true ↔ m.reg r ≤ m.reg s) ∧
    (Condition.signedGreater.holds m.step.machine.flags = true ↔ m.reg s < m.reg r) ∧
    (Condition.signedGreaterEqual.holds m.step.machine.flags = true ↔ m.reg s ≤ m.reg r) := by
  have hr := (m.reg r).toNat_lt
  have hs' := (m.reg s).toNat_lt
  rw [step_compare_flags hop, hs, signedLess_ofResult_sub _ _ hr hs',
    signedLessEqual_ofResult_sub _ _ hr hs', signedGreater_ofResult_sub _ _ hr hs',
    signedGreaterEqual_ofResult_sub _ _ hr hs']
  simp [UInt8.lt_iff_toNat_lt, UInt8.le_iff_toNat_le]

/-- A machine in signed mode about to run `cmp a b` with 0 in A and 128 in B. -/
def signedCompareProbe : Machine :=
  { rom := (Vector.replicate romSize 0).set 0 0x21, b := 128, modes := { signed := true } }

/-- The probe meets both hypotheses, and after its step `.<` holds because 0 is below 128 as
unsigned bytes. -/
theorem signedCompareProbe_follows_unsigned_order :
    (signedCompareProbe.modes.signed = true ∧
      decode (signedCompareProbe.romAt signedCompareProbe.pc) =
        some (.compare .a (.register .b))) ∧
    ((Condition.signedLess.holds signedCompareProbe.step.machine.flags = true ↔
        signedCompareProbe.reg .a < signedCompareProbe.reg .b) ∧
      (Condition.signedLessEqual.holds signedCompareProbe.step.machine.flags = true ↔
        signedCompareProbe.reg .a ≤ signedCompareProbe.reg .b) ∧
      (Condition.signedGreater.holds signedCompareProbe.step.machine.flags = true ↔
        signedCompareProbe.reg .b < signedCompareProbe.reg .a) ∧
      (Condition.signedGreaterEqual.holds signedCompareProbe.step.machine.flags = true ↔
        signedCompareProbe.reg .b ≤ signedCompareProbe.reg .a)) :=
  ⟨⟨rfl, by decide⟩,
    signed_conditions_follow_unsigned_order signedCompareProbe .a .b rfl (by decide)⟩

/-- The signed branches do not compare bytes in two's complement: at the probe, A holds 0 and B
holds 128, read as -128, yet `.<` holds after `cmp a b`. -/
theorem signed_less_not_twos_complement :
    ¬ ∀ (m : Machine) (r s : Register), m.modes.signed = true →
      decode (m.romAt m.pc) = some (.compare r (.register s)) →
      (Condition.signedLess.holds m.step.machine.flags = true ↔
        signedByte (m.reg r) < signedByte (m.reg s)) := by
  intro h
  have hp := h signedCompareProbe .a .b rfl (by decide)
  rw [@step_compare_flags signedCompareProbe .a .b (by decide)] at hp
  revert hp
  decide

end Machine

end ByteMachine

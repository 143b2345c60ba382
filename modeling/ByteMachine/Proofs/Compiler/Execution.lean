import ByteMachine.Proofs.Machine.InstructionStarts
/-!
# What placed code does on the machine

The machine's operations on registers, RAM and the input port change only what they name. With
carry chaining off, the ALU computes the byte operations: the low byte of a sum, difference,
product, quotient, negation or complement is the wrapped byte result, and a division by zero
gives zero. An instruction placed by `CodeAt` at the program counter is the step the machine
takes there: loads, stores, moves, ALU operations, comparisons, input and output move the program
counter over the instruction, and a jump to a label goes to the label's offset when its
condition holds.

## Main statements

* `step_instrAt`: a step at a placed instruction executes it after the fetch.
* `step_loadImmediate`, `step_loadDirect`, `step_saveDirect`, `step_jump`: the steps of the
  instructions with an operand, as the machines they leave.
* `execAlu_add`, `execAlu_div` and their siblings: the byte an ALU operation leaves in A.
-/

namespace ByteMachine

/-- A result's low byte is the byte it is congruent to. -/
theorem lowByte_eq {r : Int} {v : UInt8} (h : r % 256 = v.toNat) : lowByte r = v := by
  apply UInt8.toNat_inj.1
  rw [lowByte, h]
  simp [Nat.toUInt8]

namespace Machine

variable (m : Machine)

/-! ## What each operation changes -/

@[simp] theorem setReg_a_a (v : UInt8) : (m.setReg .a v).a = v := rfl

@[simp] theorem setReg_a_b (v : UInt8) : (m.setReg .a v).b = m.b := rfl

@[simp] theorem setReg_b_a (v : UInt8) : (m.setReg .b v).a = m.a := rfl

@[simp] theorem setReg_b_b (v : UInt8) : (m.setReg .b v).b = v := rfl

@[simp] theorem setReg_ram (r : Register) (v : UInt8) : (m.setReg r v).ram = m.ram := by
  cases r <;> rfl

@[simp] theorem setReg_flags (r : Register) (v : UInt8) : (m.setReg r v).flags = m.flags := by
  cases r <;> rfl

@[simp] theorem setReg_modes (r : Register) (v : UInt8) : (m.setReg r v).modes = m.modes := by
  cases r <;> rfl

@[simp] theorem setReg_input (r : Register) (v : UInt8) : (m.setReg r v).input = m.input := by
  cases r <;> rfl

@[simp] theorem write_a (addr v : UInt8) : (m.write addr v).a = m.a := rfl

@[simp] theorem write_b (addr v : UInt8) : (m.write addr v).b = m.b := rfl

@[simp] theorem write_modes (addr v : UInt8) : (m.write addr v).modes = m.modes := rfl

@[simp] theorem write_input (addr v : UInt8) : (m.write addr v).input = m.input := rfl

/-- A RAM write changes the byte it names and no other. -/
theorem read_write (addr v addr' : UInt8) :
    (m.write addr v).read addr' = if addr' = addr then v else m.read addr' := by
  have h' : addr'.toNat < ramSize := addr'.toNat_lt
  change (m.ram.set addr.toNat v addr.toNat_lt)[addr'.toNat] =
    if addr' = addr then v else m.ram[addr'.toNat]
  rw [Vector.getElem_set]
  simp only [UInt8.toNat_inj, eq_comm]

/-- RAM reads see only the RAM. -/
theorem read_congr {m' : Machine} (h : m'.ram = m.ram) (addr : UInt8) :
    m'.read addr = m.read addr := by
  simp only [read, h]

theorem takeInput_fst : m.takeInput.1 = m.input.headD 0 := by
  unfold takeInput
  split <;> simp_all

@[simp] theorem takeInput_input : m.takeInput.2.input = m.input.tail := by
  unfold takeInput
  split <;> simp_all

@[simp] theorem takeInput_a : m.takeInput.2.a = m.a := by
  unfold takeInput
  split <;> rfl

@[simp] theorem takeInput_b : m.takeInput.2.b = m.b := by
  unfold takeInput
  split <;> rfl

@[simp] theorem takeInput_ram : m.takeInput.2.ram = m.ram := by
  unfold takeInput
  split <;> rfl

@[simp] theorem takeInput_modes : m.takeInput.2.modes = m.modes := by
  unfold takeInput
  split <;> rfl

@[simp] theorem takeInput_flags : m.takeInput.2.flags = m.flags := by
  unfold takeInput
  split <;> rfl

/-- No ALU operation writes RAM. -/
@[simp] theorem execAlu_ram (op : AluOp) : (m.execAlu op).ram = m.ram := by
  unfold execAlu settle
  split
  all_goals (try split) <;> simp

/-- No ALU operation reads the input port. -/
@[simp] theorem execAlu_input (op : AluOp) : (m.execAlu op).input = m.input := by
  unfold execAlu settle
  split
  all_goals (try split) <;> simp

@[simp] theorem execAlu_binary_modes (op : BinaryOp) (x y : Register) :
    (m.execAlu (.binary op x y)).modes = m.modes := by
  cases op <;> simp only [execAlu, settle, setReg_modes]
  split <;> simp

@[simp] theorem execAlu_negate_modes (r : Register) : (m.execAlu (.negate r)).modes = m.modes := by
  simp [execAlu, settle]

@[simp] theorem execAlu_complement_modes (r : Register) :
    (m.execAlu (.complement r)).modes = m.modes := by
  simp [execAlu, settle]

/-! ## What the code of expressions never writes -/

/-- `m'` holds what `m` holds in registers C and D, the page register and the MAR. -/
structure Untouched (m m' : Machine) : Prop where
  c : m'.c = m.c
  d : m'.d = m.d
  page : m'.page = m.page
  mar : m'.mar = m.mar

theorem Untouched.refl : Untouched m m := ⟨rfl, rfl, rfl, rfl⟩

theorem Untouched.trans {m₁ m₂ m₃ : Machine} (h₁ : Untouched m₁ m₂) (h₂ : Untouched m₂ m₃) :
    Untouched m₁ m₃ :=
  ⟨h₂.c.trans h₁.c, h₂.d.trans h₁.d, h₂.page.trans h₁.page, h₂.mar.trans h₁.mar⟩

theorem takeInput_untouched : Untouched m m.takeInput.2 := by
  unfold takeInput
  split <;> exact ⟨rfl, rfl, rfl, rfl⟩

/-- An ALU operation into A writes none of C, D, the page register and the MAR. -/
theorem execAlu_untouched {op : AluOp} (h : op.destination = .a) : Untouched m (m.execAlu op) := by
  cases op with
  | binary op x y =>
      obtain rfl : x = .a := h
      cases op
      case div =>
        simp only [execAlu]
        split <;> exact ⟨rfl, rfl, rfl, rfl⟩
      all_goals exact ⟨rfl, rfl, rfl, rfl⟩
  | copy r | increment r | decrement r =>
      obtain rfl : r = .a := h
      exact ⟨rfl, rfl, rfl, rfl⟩
  | _ => exact ⟨rfl, rfl, rfl, rfl⟩

/-! ## Flags and the ALU on bytes -/

/-- The difference of two bytes carries exactly when the first is below the second. -/
theorem ofResult_sub_carry (s : Bool) (a b : UInt8) :
    (Flags.ofResult s ((a.toNat : Int) - b.toNat)).carry = decide (a < b) := by
  have ha := a.toNat_lt
  have hb := b.toNat_lt
  simp only [Flags.ofResult, UInt8.lt_iff_toNat_lt, Bool.not_eq_eq_eq_not]
  by_cases h : a.toNat < b.toNat
  · simp [h]
  · simp [h]
    omega

/-- The difference of two bytes is zero exactly when they are equal. -/
theorem ofResult_sub_zero (s : Bool) (a b : UInt8) :
    (Flags.ofResult s ((a.toNat : Int) - b.toNat)).zero = decide (a = b) := by
  simp only [Flags.ofResult, ← UInt8.toNat_inj]
  by_cases h : a.toNat = b.toNat
  · simp [h]
  · simp [h]
    omega

/-! ## The ALU on bytes, with carry chaining off -/

variable {m} (hc : m.modes.carryChain = false)

include hc in
theorem execAlu_add : (m.execAlu (.binary .add .a .b)).a = m.a + m.b := by
  show lowByte (m.a.toNat + m.b.toNat + if m.modes.carryChain && m.flags.carry then 1 else 0) = _
  rw [hc, Bool.false_and, if_neg Bool.false_ne_true, Int.add_zero]
  apply lowByte_eq
  rw [UInt8.toNat_add]
  omega

theorem execAlu_sub : (m.execAlu (.binary .sub .a .b)).a = m.a - m.b := by
  show lowByte (m.a.toNat - m.b.toNat) = _
  have hb : m.b.toNat < 256 := m.b.toNat_lt
  apply lowByte_eq
  rw [UInt8.toNat_sub]
  omega

theorem execAlu_mul : (m.execAlu (.binary .mul .a .b)).a = m.a * m.b := by
  show lowByte (m.a.toNat * m.b.toNat) = _
  apply lowByte_eq
  rw [UInt8.toNat_mul, ← Int.natCast_mul]
  generalize m.a.toNat * m.b.toNat = x
  omega

/-- A division by zero leaves zero, as the byte division does. -/
theorem execAlu_div : (m.execAlu (.binary .div .a .b)).a = m.a / m.b := by
  simp only [execAlu]
  by_cases hz : m.reg .a = 0 ∧ m.reg .b = 0
  · rw [if_pos hz]
    obtain ⟨ha, hb⟩ := hz
    simp only [reg] at ha hb
    rw [ha, hb]
    rfl
  rw [if_neg hz]
  show lowByte (if m.b = 0 then 256 else (m.a.toNat : Int) / m.b.toNat) = _
  by_cases hb : m.b = 0
  · rw [if_pos hb, hb, UInt8.div_zero]
    exact lowByte_eq (by decide)
  · rw [if_neg hb]
    apply lowByte_eq
    have ha : m.a.toNat < 256 := m.a.toNat_lt
    rw [UInt8.toNat_div, ← Int.natCast_ediv]
    have hq : m.a.toNat / m.b.toNat ≤ m.a.toNat := Nat.div_le_self _ _
    generalize m.a.toNat / m.b.toNat = q at hq ⊢
    omega

theorem execAlu_bitAnd : (m.execAlu (.binary .bitAnd .a .b)).a = m.a &&& m.b := by
  show lowByte ((m.a &&& m.b).toNat : Int) = _
  have h := (m.a &&& m.b).toNat_lt
  exact lowByte_eq (by omega)

theorem execAlu_bitOr : (m.execAlu (.binary .bitOr .a .b)).a = m.a ||| m.b := by
  show lowByte ((m.a ||| m.b).toNat : Int) = _
  have h := (m.a ||| m.b).toNat_lt
  exact lowByte_eq (by omega)

theorem execAlu_negate : (m.execAlu (.negate .a)).a = -m.a := by
  show lowByte (-(m.a.toNat : Int)) = _
  have ha : m.a.toNat < 256 := m.a.toNat_lt
  apply lowByte_eq
  rw [UInt8.toNat_neg]
  simp only [UInt8.size]
  omega

theorem execAlu_complement : (m.execAlu (.complement .a)).a = ~~~m.a := by
  show lowByte (-(m.a.toNat : Int) - 1) = _
  have ha : m.a.toNat < 256 := m.a.toNat_lt
  apply lowByte_eq
  rw [UInt8.toNat_not]
  simp only [UInt8.size]
  omega

end Machine

/-! ## Steps at placed instructions -/

namespace Compiler

open Machine Assembly

theorem lt_of_getElem?_eq_some {rom : Vector UInt8 romSize} {o : Nat} {b : UInt8}
    (h : rom[o]? = some b) : o < romSize :=
  (Vector.getElem?_eq_some_iff.1 h).1

/-- The program counter moves one byte on inside the ROM. -/
theorem toNat_add_one {p : UInt16} {n : Nat} (hp : p.toNat = n) (h : n + 1 < romSize) :
    (p + 1).toNat = n + 1 := by
  rw [UInt16.toNat_add, hp, UInt16.toNat_one]
  exact Nat.mod_eq_of_lt h

section Placed

variable {rom : Vector UInt8 romSize} {pos : String → Option Nat} {m : Machine} {o : Nat}

theorem romAt_of_getElem? {a : UInt16} {b : UInt8} (hrom : m.rom = rom) (ha : a.toNat = o)
    (h : rom[o]? = some b) : m.romAt a = b := by
  subst hrom ha
  rw [Vector.getElem?_eq_getElem a.toNat_lt, Option.some.injEq] at h
  exact h

/-- A step at a placed instruction executes it after the fetch. -/
theorem step_instrAt {op : Op} {arg : Arg} (hrom : m.rom = rom) (hpc : m.pc.toNat = o)
    (h : InstrAt rom pos o op arg) : m.step = ({ m with pc := m.pc + 1 } : Machine).exec op := by
  obtain ⟨b, hb, hrb, -⟩ := h
  rw [step_of_decode (by rw [romAt_of_getElem? hrom hpc hrb]; exact hb)]
  rfl

/-- The operand byte of a placed instruction. -/
theorem romAt_operand {op : Op} {v : UInt8} (hrom : m.rom = rom) (hpc : m.pc.toNat = o)
    (h : InstrAt rom pos o op (.byte v)) : m.romAt (m.pc + 1) = v := by
  obtain ⟨-, -, -, hv⟩ := h
  exact romAt_of_getElem? hrom (toNat_add_one hpc (lt_of_getElem?_eq_some hv)) hv

theorem step_loadImmediate {r : Register} {v : UInt8} (hrom : m.rom = rom) (hpc : m.pc.toNat = o)
    (h : InstrAt rom pos o (.loadImmediate r) (.byte v)) :
    m.step = ⟨({ m with pc := m.pc + 1 + 1 } : Machine).setReg r v, none, true⟩ := by
  have hv := romAt_operand hrom hpc h
  rw [step_instrAt hrom hpc h]
  simp only [exec, fetch, romAt] at hv ⊢
  rw [hv]

theorem step_loadDirect {r : Register} {addr : UInt8} (hrom : m.rom = rom) (hpc : m.pc.toNat = o)
    (h : InstrAt rom pos o (.loadDirect r) (.byte addr)) :
    m.step = ⟨({ m with pc := m.pc + 1 + 1 } : Machine).setReg r (m.read addr), none, true⟩ := by
  have hv := romAt_operand hrom hpc h
  rw [step_instrAt hrom hpc h]
  simp only [exec, fetch, romAt] at hv ⊢
  rw [hv]
  rfl

theorem step_saveDirect {r : Register} {addr : UInt8} (hrom : m.rom = rom) (hpc : m.pc.toNat = o)
    (h : InstrAt rom pos o (.saveDirect r) (.byte addr)) :
    m.step = ⟨({ m with pc := m.pc + 1 + 1 } : Machine).write addr (m.reg r), none, true⟩ := by
  have hv := romAt_operand hrom hpc h
  rw [step_instrAt hrom hpc h]
  simp only [exec, fetch, romAt] at hv ⊢
  rw [hv]
  cases r <;> rfl

/-- A jump to a label reads the label's offset from its two operand bytes. -/
theorem step_jump {c : Condition} {name : String} {t : Nat} (hrom : m.rom = rom)
    (hpc : m.pc.toNat = o) (h : InstrAt rom pos o (.jump c) (.label name)) (ht : pos name = some t) :
    m.step = ⟨{ m with pc := if c.holds m.flags then t.toUInt16 else m.pc + 1 + 1 + 1 },
      none, true⟩ := by
  rw [step_instrAt hrom hpc h]
  obtain ⟨-, -, -, t', ht', -, hhi, hlo⟩ := h
  rw [ht, Option.some.injEq] at ht'
  subst ht'
  have hlt := lt_of_getElem?_eq_some hlo
  have hhi' : m.romAt (m.pc + 1) = (t / 256).toUInt8 :=
    romAt_of_getElem? hrom (toNat_add_one hpc (by omega)) hhi
  have hlo' : m.romAt (m.pc + 1 + 1) = (t % 256).toUInt8 :=
    romAt_of_getElem? hrom (toNat_add_one (toNat_add_one hpc (by omega)) hlt) hlo
  simp only [exec, fetch, romAt] at hhi' hlo' ⊢
  rw [hhi', hlo']
  by_cases hc : c.holds m.flags
  · -- the two bytes are the offset's high and low byte
    have haddr : (t / 256).toUInt8.toUInt16 * 256 + (t % 256).toUInt8.toUInt16 = t.toUInt16 := by
      apply UInt16.toNat_inj.1
      rw [address_toNat]
      simp [Nat.toUInt8]
      omega
    simp only [hc, if_true, haddr]
  · simp only [hc]
    rfl

theorem step_move {x y : Register} (hrom : m.rom = rom) (hpc : m.pc.toNat = o)
    (h : InstrAt rom pos o (.move x y) .none) :
    m.step = ⟨({ m with pc := m.pc + 1 } : Machine).setReg y (m.reg x), none, true⟩ := by
  rw [step_instrAt hrom hpc h]
  cases x <;> rfl

theorem step_alu {op : AluOp} (hrom : m.rom = rom) (hpc : m.pc.toNat = o)
    (h : InstrAt rom pos o (.alu op) .none) :
    m.step = ⟨({ m with pc := m.pc + 1 } : Machine).execAlu op, none, true⟩ := by
  rw [step_instrAt hrom hpc h]
  rfl

theorem step_compare_register {r s : Register} (hrom : m.rom = rom) (hpc : m.pc.toNat = o)
    (h : InstrAt rom pos o (.compare r (.register s)) .none) :
    m.step = ⟨{ m with
      pc := m.pc + 1, flags := Flags.ofResult m.modes.signed ((m.reg r).toNat - (m.reg s).toNat) },
      none, true⟩ := by
  rw [step_instrAt hrom hpc h]
  cases r <;> cases s <;> rfl

theorem step_compare_constant {r : Register} {k : Int} (hrom : m.rom = rom) (hpc : m.pc.toNat = o)
    (h : InstrAt rom pos o (.compare r (.constant k)) .none) :
    m.step = ⟨{ m with pc := m.pc + 1, flags := Flags.ofResult m.modes.signed ((m.reg r).toNat - k) },
      none, true⟩ := by
  rw [step_instrAt hrom hpc h]
  cases r <;> rfl

theorem step_input {r : Register} (hrom : m.rom = rom) (hpc : m.pc.toNat = o)
    (h : InstrAt rom pos o (.input r) .none) :
    m.step = ⟨(({ m with pc := m.pc + 1 } : Machine).takeInput.2).setReg r (m.input.headD 0),
      none, true⟩ := by
  rw [step_instrAt hrom hpc h]
  change (⟨(({ m with pc := m.pc + 1 } : Machine).takeInput.2).setReg r
    ({ m with pc := m.pc + 1 } : Machine).takeInput.1, none, true⟩ : Stepped) = _
  rw [takeInput_fst]

theorem step_output {r : Register} (hrom : m.rom = rom) (hpc : m.pc.toNat = o)
    (h : InstrAt rom pos o (.output r) .none) :
    m.step = ⟨{ m with pc := m.pc + 1 }, some (m.signedValue r), true⟩ := by
  rw [step_instrAt hrom hpc h]
  cases r <;> rfl

theorem step_halt (hrom : m.rom = rom) (hpc : m.pc.toNat = o) (h : InstrAt rom pos o .halt .none) :
    m.step = ⟨{ m with pc := m.pc + 1 }, none, false⟩ := by
  rw [step_instrAt hrom hpc h]
  rfl

end Placed

end Compiler

end ByteMachine

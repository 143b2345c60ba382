import Mathlib
import ByteMachine.Proofs.Compiler.Execution
import ByteMachine.Proofs.Listing.Assembled
import ByteMachine.Proofs.Machine.Runs
/-!
# Carry chaining adds numbers of many bytes

With carry chaining on, an addition takes the carry flag in, and every addition sets the carry
flag exactly when its unmasked sum passes 255. A program that adds two numbers byte by byte,
least significant first, and writes each byte of the sum to the output port, is then the
schoolbook addition of the two numbers: it writes the bytes of the sum modulo `256 ^ n` and
leaves the carry out of the top byte in the carry flag.

## Main statements

* `rippleAdd_littleEndian`: byte-serial addition with a carry adds the numbers.
* `limbs_run`: the machine runs the additions of the bytes as byte-serial addition.
* `carry_chain_adds`: the whole program assembles, fits in ROM, halts, and writes the bytes of
  the sum.
-/

namespace ByteMachine

/-! ## Byte-serial addition -/

/-- The `n` bytes of a number, least significant first. -/
def littleEndian : Nat → Nat → List UInt8
  | 0, _ => []
  | n + 1, x => (x % 256).toUInt8 :: littleEndian n (x / 256)

/-- Adds pairs of bytes, least significant first, from a carry in: each byte of the sum, and the
carry out of the last pair. -/
def rippleAdd : Bool → List (UInt8 × UInt8) → List UInt8 × Bool
  | c, [] => ([], c)
  | c, (x, y) :: rest =>
    let s := x.toNat + y.toNat + c.toNat
    ((s % 256).toUInt8 :: (rippleAdd (decide (256 ≤ s)) rest).1,
      (rippleAdd (decide (256 ≤ s)) rest).2)

theorem littleEndian_zero (x : Nat) : littleEndian 0 x = [] := rfl

theorem littleEndian_succ (n x : Nat) :
    littleEndian (n + 1) x = (x % 256).toUInt8 :: littleEndian n (x / 256) := rfl

theorem rippleAdd_nil (c : Bool) : rippleAdd c [] = ([], c) := rfl

theorem rippleAdd_cons (c : Bool) (x y : UInt8) (rest : List (UInt8 × UInt8)) :
    rippleAdd c ((x, y) :: rest) =
      (((x.toNat + y.toNat + c.toNat) % 256).toUInt8 ::
          (rippleAdd (decide (256 ≤ x.toNat + y.toNat + c.toNat)) rest).1,
        (rippleAdd (decide (256 ≤ x.toNat + y.toNat + c.toNat)) rest).2) := rfl

@[simp] theorem length_littleEndian (n x : Nat) : (littleEndian n x).length = n := by
  induction n generalizing x with
  | zero => rfl
  | succ n ih => simp [littleEndian_succ, ih]

/-- The bytes of a number are those of its remainder below `256 ^ n`. -/
theorem littleEndian_mod (n x : Nat) : littleEndian n (x % 256 ^ n) = littleEndian n x := by
  induction n generalizing x with
  | zero => rfl
  | succ n ih =>
      rw [littleEndian_succ, littleEndian_succ, Nat.pow_succ, Nat.mul_comm, Nat.mod_mul_right_mod,
        Nat.mod_mul_right_div_self, ih]

/-- Byte-serial addition of the bytes of two numbers with a carry in gives the bytes of their
sum, and carries out exactly when the sum of their low `n` bytes passes `256 ^ n`. -/
theorem rippleAdd_littleEndian (n x y : Nat) (c : Bool) :
    rippleAdd c ((littleEndian n x).zip (littleEndian n y)) =
      (littleEndian n (x + y + c.toNat),
        decide (256 ^ n ≤ x % 256 ^ n + y % 256 ^ n + c.toNat)) := by
  induction n generalizing x y c with
  | zero => cases c <;> simp [littleEndian_zero, rippleAdd_nil, Nat.mod_one]
  | succ n ih =>
      -- the low bytes and the carry they pass on
      have hx : ((x % 256).toUInt8).toNat = x % 256 :=
        toNat_toUInt8_of_lt (Nat.mod_lt _ (by omega))
      have hy : ((y % 256).toUInt8).toNat = y % 256 :=
        toNat_toUInt8_of_lt (Nat.mod_lt _ (by omega))
      have hc := Bool.toNat_le c
      have hcarry : (decide (256 ≤ x % 256 + y % 256 + c.toNat)).toNat =
          (x % 256 + y % 256 + c.toNat) / 256 := by
        by_cases h : 256 ≤ x % 256 + y % 256 + c.toNat
        · simp only [h, decide_true, Bool.toNat_true]
          omega
        · simp only [h, decide_false, Bool.toNat_false]
          omega
      simp only [littleEndian_succ, List.zip_cons_cons, rippleAdd_cons, hx, hy, ih, hcarry]
      -- the high bytes of the sum, and the carry out of them
      have hP : 0 < 256 ^ n := Nat.pow_pos (by omega)
      have hxm := Nat.mod_lt (x / 256) hP
      have hym := Nat.mod_lt (y / 256) hP
      rw [Nat.pow_succ, Nat.mul_comm _ 256, Nat.mod_mul (x := x), Nat.mod_mul (x := y)]
      refine Prod.ext ?_ ?_
      · simp only [List.cons.injEq]
        refine ⟨?_, ?_⟩
        · congr 1
          omega
        · congr 1
          omega
      · simp only [decide_eq_decide]
        generalize 256 ^ n = P at hP hxm hym ⊢
        omega

/-! ## The program -/

namespace Compiler

open Assembly Machine Text

/-- The four lines that add one byte of each number, with the carry in, and output the byte of
the sum. -/
def limbLines (x y : UInt8) : List Line :=
  [.instr (.loadImmediate .a) (.byte x), .instr (.loadImmediate .b) (.byte y),
    .plain (.alu (.binary .add .a .b)), .plain (.output .a)]

/-- Clears the flags and modes, chains carries, adds the pairs of bytes in order, and halts. -/
def carryChainLines (limbs : List (UInt8 × UInt8)) : List Line :=
  ([.plain (.alu .clear), .plain (.alu .carryOn)] : List Line) ++
    limbs.flatMap (fun xy => limbLines xy.1 xy.2) ++ [.plain .halt]

/-- The text of the program. -/
def carryChainText (limbs : List (UInt8 × UInt8)) : List String :=
  ["opp clr", "opp carry on"] ++
    limbs.flatMap (fun xy =>
      ["load rom a " ++ toString xy.1.toNat, "load rom b " ++ toString xy.2.toNat, "opp a+b",
        "out a"]) ++
    ["halt"]

theorem carryChainText_eq (limbs : List (UInt8 × UInt8)) :
    carryChainText limbs = (carryChainLines limbs).map Line.text := by
  have hlimb : ∀ xy : UInt8 × UInt8,
      ["load rom a " ++ toString xy.1.toNat, "load rom b " ++ toString xy.2.toNat, "opp a+b",
        "out a"] = (limbLines xy.1 xy.2).map Line.text := by
    intro xy
    simp [limbLines, Line.text, Line.plain, Op.pattern, Op.template, Template.pattern,
      Register.name, AluOp.text, BinaryOp.symbol, Slot.placeholder, String.append_assoc]
    -- the fixed words of each load, run together
    refine ⟨?_, ?_⟩ <;> rw [← String.append_assoc, ← String.append_assoc] <;> congr 1
  have hstart : ["opp clr", "opp carry on"] =
      [Line.plain (.alu .clear), Line.plain (.alu .carryOn)].map Line.text := by
    simp [Line.text, Line.plain, Op.pattern, Op.template, Template.pattern, AluOp.text,
      Slot.placeholder]
  have hend : ["halt"] = [Line.plain .halt].map Line.text := by
    simp [Line.text, Line.plain, Op.pattern, Op.template, Template.pattern, Slot.placeholder]
  simp only [carryChainText, carryChainLines, List.map_append, List.map_flatMap, hstart, hend]
  congr 2
  exact List.flatMap_congr fun xy _ => hlimb xy

/-! ## Assembling the program -/

/-- An instruction line that assembles, whatever its line number, to an opcode of its operation
and its operand. -/
def Line.Assembles : Line → Prop
  | .instr op arg => ∃ b, decode b = some op ∧
      ∀ lineNo, encodeLine lineNo (cleanLine (Line.instr op arg).text.toList) = .ok (.byte b :: arg.pieces)
  | .label _ => False

/-- The operations of the program assemble from their patterns: those without an operand to their
opcodes, and the loads of every register through the slot of the load family. Decided at once,
so that the instruction table is read once. -/
theorem carryChain_ops_fit :
    (∀ op ∈ [Op.alu .clear, .alu .carryOn, .alu (.binary .add .a .b), .output .a, .halt],
      plainFits op = true) ∧
    ∀ r ∈ [Register.a, .b, .c, .d], slotFits (.loadImmediate r) = true := by
  decide +kernel

/-- An operation without an operand whose pattern assembles to its opcode. -/
theorem assembles_plain {op : Op} (h : plainFits op = true) : (Line.plain op).Assembles := by
  rw [plainFits] at h
  split at h
  · rename_i b henc
    exact ⟨b, by simpa using h, fun lineNo => encodeLine_lineNo henc lineNo⟩
  · cases h

/-- A load of any byte into any register assembles to the register's load opcode and the byte. -/
theorem assembles_loadImmediate (r : Register) (v : UInt8) :
    (Line.instr (.loadImmediate r) (.byte v)).Assembles := by
  have hfit : slotFits (.loadImmediate r) = true :=
    carryChain_ops_fit.2 r (by cases r <;> simp)
  have hbyte := numeralValue_toDigits v.toNat
  have hword := word_toDigits v.toNat [] [] (by decide) (by decide)
  simp only [List.nil_append, List.append_nil] at hword
  -- the words of the line: `load`, `rom`, the register and the digits
  have hline : (Op.loadImmediate r).template.lead.toList ++ Nat.toDigits 10 v.toNat ++
      (Op.loadImmediate r).template.trail.toList =
        [' '].intercalate ["load".toList, "rom".toList, r.name.toList, Nat.toDigits 10 v.toNat] := by
    cases r <;> simp [Op.template, Register.name, List.intercalate_cons_cons, toString]
  have hws : ∀ x ∈ ["load".toList, "rom".toList, r.name.toList, Nat.toDigits 10 v.toNat],
      x ≠ [] ∧ BlankFree x ∧ '/' ∉ x := by
    intro x hx
    simp only [List.mem_cons, List.not_mem_nil, or_false] at hx
    rcases hx with rfl | rfl | rfl | rfl
    · decide
    · decide
    · cases r <;> decide
    · exact hword
  have hacc : accepts (String.ofList "load".toList)
      (["rom".toList, r.name.toList, Nat.toDigits 10 v.toNat].map String.ofList) = some true := by
    cases r <;> simp [accepts, isRegister, isNumeral, Register.ofName?, Register.name, hbyte]
  -- the opcode read at one line number is read at every other
  obtain ⟨b, hdec, hzero⟩ :=
    encodeLine_numberSlot hfit (by cases r <;> rfl) hline hws hacc 0
  exact ⟨b, hdec, fun lineNo => encodeLine_lineNo hzero lineNo⟩

/-- Every line of the program assembles. -/
theorem carryChainLines_assemble (limbs : List (UInt8 × UInt8)) :
    ∀ l ∈ carryChainLines limbs, l.Assembles := by
  have hplain := carryChain_ops_fit.1
  intro l hl
  simp only [carryChainLines, limbLines, List.mem_append, List.mem_cons, List.mem_flatMap,
    List.not_mem_nil, or_false] at hl
  rcases hl with ((rfl | rfl) | ⟨⟨x, y⟩, -, hl⟩) | rfl
  · exact assembles_plain (hplain _ (by simp))
  · exact assembles_plain (hplain _ (by simp))
  · rcases hl with rfl | rfl | rfl | rfl
    · exact assembles_loadImmediate .a x
    · exact assembles_loadImmediate .b y
    · exact assembles_plain (hplain _ (by simp))
    · exact assembles_plain (hplain _ (by simp))
  · exact assembles_plain (hplain _ (by simp))

/-- The first pass reads lines that each assemble without an error and binds no label: each
line gives its own pieces. -/
theorem passFrom_of_assembles {ls : List Line} (h : ∀ l ∈ ls, l.Assembles) (labels : LabelTable)
    (offset : Nat) (done : Array Piece) (lineNo : Nat) :
    ∃ pss, List.Forall₂ Line.Encodes ls pss ∧
      passFrom labels offset done lineNo (ls.map Line.text) =
        ⟨labels, .ok (done.toList ++ pss.flatten)⟩ := by
  induction ls generalizing offset done lineNo with
  | nil => exact ⟨[], .nil, by simp [passFrom]⟩
  | cons l rest ih =>
      cases l with
      | label n => exact False.elim (h _ List.mem_cons_self)
      | instr op arg =>
          obtain ⟨b, hb, henc⟩ := h _ List.mem_cons_self
          obtain ⟨pss, hF, hpass⟩ := ih (fun l hl => h l (List.mem_cons_of_mem _ hl))
            (offset + Piece.totalSize (.byte b :: arg.pieces))
            (done ++ (.byte b :: arg.pieces).toArray) (lineNo + 1)
          refine ⟨(.byte b :: arg.pieces) :: pss, .cons ⟨b, hb, rfl⟩ hF, ?_⟩
          rw [List.map_cons, passFrom_cons_instr (henc lineNo), hpass]
          simp

/-- Lines take as many bytes as the pieces they encode to. -/
theorem totalSize_flatten {ls : List Line} {pss : List (List Piece)}
    (hF : List.Forall₂ Line.Encodes ls pss) : Piece.totalSize pss.flatten = codeSize ls := by
  induction hF with
  | nil => rfl
  | @cons l ps ls pss hl _ ih =>
      cases l with
      | instr op arg =>
          obtain ⟨b, -, rfl⟩ := hl
          rw [List.flatten_cons, Piece.totalSize_append, ih, codeSize_cons]
          rfl
      | label n =>
          rw [Line.Encodes] at hl
          subst hl
          simpa using ih

/-- Lines that each assemble declare no label. -/
theorem declared_of_assembles {ls : List Line} (h : ∀ l ∈ ls, l.Assembles) : declared ls = [] := by
  refine List.filterMap_eq_nil_iff.2 fun l hl => ?_
  cases l with
  | instr op arg => rfl
  | label n => exact False.elim (h _ hl)

/-- Lines that each assemble and jump nowhere assemble to as many bytes as they take, and once
loaded into the ROM lie there from address 0. -/
theorem assemble_of_assembles {ls : List Line} (h : ∀ l ∈ ls, l.Assembles)
    (htargets : targets ls = []) :
    ∃ code, assemble (ls.map Line.text) = .ok code ∧ code.length = codeSize ls ∧
      (code.length ≤ romSize → CodeAt (romOf code) (fun n => (∅ : LabelTable)[n]?) 0 ls) := by
  obtain ⟨pss, hF, hpass⟩ := passFrom_of_assembles h ∅ 0 #[] 1
  have hsecond : assemble (ls.map Line.text) = resolveAfter ∅ #[] pss.flatten := by
    rw [assemble, firstPass, hpass]
    rfl
  -- the pieces name no label, so the second pass resolves them all
  obtain ⟨code, hcode⟩ := (resolveAfter_ok_iff ∅ #[] pss.flatten).2 fun n hn => by
    rw [label_mem_flatten hF, htargets] at hn
    cases hn
  have hdecl := declared_of_assembles h
  refine ⟨code, hsecond.trans hcode, (resolve_length hcode).trans (totalSize_flatten hF),
    fun hlen => ?_⟩
  exact codeAt_of_resolve hF hlen rfl hcode (by rw [hdecl]; exact List.nodup_nil)
    (by simp [hdecl])

theorem targets_carryChainLines (limbs : List (UInt8 × UInt8)) :
    targets (carryChainLines limbs) = [] := by
  induction limbs with
  | nil => rfl
  | cons xy rest ih =>
      simpa [carryChainLines, limbLines, Line.plain, List.flatMap_cons] using ih

@[simp] theorem codeSize_limbs (limbs : List (UInt8 × UInt8)) :
    codeSize (limbs.flatMap fun xy => limbLines xy.1 xy.2) = 6 * limbs.length := by
  induction limbs with
  | nil => rfl
  | cons xy rest ih =>
      simp only [List.flatMap_cons, codeSize_append, ih, List.length_cons]
      simp [limbLines]
      omega

/-- The program takes three bytes and six for each pair of bytes. -/
theorem codeSize_carryChainLines (limbs : List (UInt8 × UInt8)) :
    codeSize (carryChainLines limbs) = 6 * limbs.length + 3 := by
  simp [carryChainLines]
  omega

/-! ## Running the program -/

section Steps

variable {rom : Vector UInt8 romSize} {pos : String → Option Nat} {m : Machine} {o : Nat}

theorem reg_setReg (m : Machine) (r s : Register) (v : UInt8) :
    (m.setReg r v).reg s = if s = r then v else m.reg s := by
  cases r <;> cases s <;> rfl

/-- With carry chaining on, an addition of B to A takes the carry flag in. -/
theorem aluValue_add_chained (hc : m.modes.carryChain = true) :
    m.aluValue (.binary .add .a .b) = ((m.a.toNat + m.b.toNat + m.flags.carry.toNat : Nat) : Int) := by
  show (m.a.toNat : Int) + m.b.toNat + (if m.modes.carryChain && m.flags.carry then 1 else 0) = _
  rw [hc, Bool.true_and]
  cases m.flags.carry <;> simp

/-- A result that is a natural number carries exactly when it passes 255. -/
theorem ofResult_natCast_carry (signed : Bool) (r : Nat) :
    (Flags.ofResult signed (r : Int)).carry = decide (256 ≤ r) := by
  rw [Flags.ofResult, Bool.eq_iff_iff]
  simp only [Bool.not_eq_eq_eq_not, Bool.not_true, Bool.and_eq_false_iff, decide_eq_false_iff_not,
    decide_eq_true_eq]
  omega

/-- Loading a byte into a register: one step that changes no other register, flag or mode. -/
theorem runs_loadImmediate {r : Register} {v : UInt8} (hrom : m.rom = rom) (hpc : m.pc.toNat = o)
    (h : InstrAt rom pos o (.loadImmediate r) (.byte v)) (hend : o + 2 < romSize) :
    ∃ m', Runs m 1 [] m' ∧ m'.rom = rom ∧ m'.pc.toNat = o + 2 ∧ m'.reg r = v ∧
      (∀ s ≠ r, m'.reg s = m.reg s) ∧ m'.flags = m.flags ∧ m'.modes = m.modes := by
  refine ⟨_, Runs.single (step_loadImmediate hrom hpc h), by simpa using hrom, ?_,
    by simp [reg_setReg], fun s hs => ?_, by simp, by simp⟩
  · rw [setReg_pc]
    exact toNat_add_one (toNat_add_one hpc (by omega)) hend
  · rw [reg_setReg, if_neg hs]
    cases s <;> rfl

/-- With carry chaining on, adding B to A: one step that writes the low byte of the sum with the
carry in to A, and carries out exactly when that sum passes 255. -/
theorem runs_add_chained (hrom : m.rom = rom) (hpc : m.pc.toNat = o)
    (h : InstrAt rom pos o (.alu (.binary .add .a .b)) .none) (hend : o + 1 < romSize)
    (hc : m.modes.carryChain = true) :
    ∃ m', Runs m 1 [] m' ∧ m'.rom = rom ∧ m'.pc.toNat = o + 1 ∧
      m'.a = ((m.a.toNat + m.b.toNat + m.flags.carry.toNat) % 256).toUInt8 ∧
      m'.flags.carry = decide (256 ≤ m.a.toNat + m.b.toNat + m.flags.carry.toNat) ∧
      m'.modes = m.modes := by
  have hsum : ({ m with pc := m.pc + 1 } : Machine).aluValue (.binary .add .a .b) =
      ((m.a.toNat + m.b.toNat + m.flags.carry.toNat : Nat) : Int) :=
    aluValue_add_chained (m := { m with pc := m.pc + 1 }) hc
  refine ⟨_, Runs.single (step_alu hrom hpc h), by simpa using hrom,
    by rw [execAlu_pc]; exact toNat_add_one hpc hend, ?_, ?_, by simp⟩
  · show lowByte (({ m with pc := m.pc + 1 } : Machine).aluValue (.binary .add .a .b)) = _
    rw [hsum]
    apply lowByte_eq
    rw [toNat_toUInt8_of_lt (Nat.mod_lt _ (by omega))]
    omega
  · show (Flags.ofResult m.modes.signed
      (({ m with pc := m.pc + 1 } : Machine).aluValue (.binary .add .a .b))).carry = _
    rw [hsum, ofResult_natCast_carry]

/-- Writing A to the output port, read unsigned: one step that changes no register, flag or
mode. -/
theorem runs_output_unsigned (hrom : m.rom = rom) (hpc : m.pc.toNat = o)
    (h : InstrAt rom pos o (.output .a) .none) (hend : o + 1 < romSize)
    (hs : m.modes.signed = false) :
    ∃ m', Runs m 1 [(m.a.toNat : Int)] m' ∧ m'.rom = rom ∧ m'.pc.toNat = o + 1 ∧
      m'.flags = m.flags ∧ m'.modes = m.modes := by
  have hout : m.signedValue .a = (m.a.toNat : Int) := by
    simp [signedValue, hs, value, reg]
  refine ⟨{ m with pc := m.pc + 1 }, ?_, hrom, toNat_add_one hpc hend, rfl, rfl⟩
  simpa [hout] using Runs.single (step_output hrom hpc h)

/-- The four lines of a pair of bytes, run in carry-chaining mode: they write the low byte of
the two bytes' sum with the carry in, and carry out exactly when that sum passes 255. -/
theorem limb_runs {x y : UInt8} (hrom : m.rom = rom) (hpc : m.pc.toNat = o)
    (hmodes : m.modes = { carryChain := true }) (hC : CodeAt rom pos o (limbLines x y))
    (hend : o + 6 < romSize) :
    ∃ m', Runs m 4 [(((x.toNat + y.toNat + m.flags.carry.toNat) % 256).toUInt8.toNat : Int)] m' ∧
      m'.rom = rom ∧ m'.pc.toNat = o + 6 ∧ m'.modes = { carryChain := true } ∧
      m'.flags.carry = decide (256 ≤ x.toNat + y.toNat + m.flags.carry.toNat) := by
  simp only [limbLines, Line.plain, codeAt_instr_cons, size_byte] at hC
  obtain ⟨hx, hy, hadd, hout, -⟩ := hC
  -- the two loads leave the flags and modes as they were
  obtain ⟨m₁, r₁, hrom₁, hpc₁, ha₁, -, hflags₁, hmodes₁⟩ := runs_loadImmediate hrom hpc hx (by omega)
  obtain ⟨m₂, r₂, hrom₂, hpc₂, hb₂, ha₂, hflags₂, hmodes₂⟩ :=
    runs_loadImmediate hrom₁ hpc₁ hy (by omega)
  have ha₂' : m₂.a = x := (ha₂ .a (by decide)).trans ha₁
  have hcarry₂ : m₂.flags.carry = m.flags.carry := by rw [hflags₂, hflags₁]
  obtain ⟨m₃, r₃, hrom₃, hpc₃, ha₃, hcarry₃, hmodes₃⟩ :=
    runs_add_chained hrom₂ hpc₂ hadd (by omega) (by rw [hmodes₂, hmodes₁, hmodes])
  obtain ⟨m₄, r₄, hrom₄, hpc₄, hflags₄, hmodes₄⟩ :=
    runs_output_unsigned hrom₃ hpc₃ hout (by omega)
      (by rw [hmodes₃, hmodes₂, hmodes₁, hmodes])
  have hb₂' : m₂.b = y := hb₂
  refine ⟨m₄, ?_, hrom₄, by omega, by rw [hmodes₄, hmodes₃, hmodes₂, hmodes₁, hmodes],
    by rw [hflags₄, hcarry₃, ha₂', hb₂', hcarry₂]⟩
  have hr := r₁.trans (r₂.trans (r₃.trans r₄))
  rw [ha₃, ha₂', hb₂', hcarry₂] at hr
  simpa using hr

/-- The two lines before the pairs of bytes: they clear the flags and modes and turn carry
chaining on. -/
theorem runs_prelude (hrom : m.rom = rom) (hpc : m.pc.toNat = o)
    (hC : CodeAt rom pos o [.plain (.alu .clear), .plain (.alu .carryOn)]) (hend : o + 2 < romSize) :
    ∃ m', Runs m 2 [] m' ∧ m'.rom = rom ∧ m'.pc.toNat = o + 2 ∧
      m'.modes = { carryChain := true } ∧ m'.flags.carry = false := by
  simp only [Line.plain, codeAt_instr_cons] at hC
  obtain ⟨hclear, hon, -⟩ := hC
  have hpc₁ : (({ m with pc := m.pc + 1 } : Machine).execAlu .clear).pc.toNat = o + 1 := by
    rw [execAlu_pc]
    exact toNat_add_one hpc (by omega)
  have r₁ := Runs.single (step_alu hrom hpc hclear)
  have r₂ := Runs.single (step_alu (by simpa using hrom) hpc₁ hon)
  refine ⟨_, r₁.trans r₂, by simpa using hrom, ?_, rfl, rfl⟩
  rw [execAlu_pc]
  exact toNat_add_one hpc₁ (by omega)

/-- The pairs of bytes, run one after another in carry-chaining mode, add byte-serially from the
carry flag: they write the bytes of the sum and leave the carry out of the last pair in the
flag. -/
theorem limbs_run (limbs : List (UInt8 × UInt8)) :
    ∀ {m : Machine} {o : Nat}, m.rom = rom → m.pc.toNat = o → m.modes = { carryChain := true } →
      CodeAt rom pos o (limbs.flatMap fun xy => limbLines xy.1 xy.2) →
      o + 6 * limbs.length < romSize →
      ∃ m', Runs m (4 * limbs.length)
          ((rippleAdd m.flags.carry limbs).1.map fun b => (b.toNat : Int)) m' ∧
        m'.rom = rom ∧ m'.pc.toNat = o + 6 * limbs.length ∧ m'.modes = { carryChain := true } ∧
        m'.flags.carry = (rippleAdd m.flags.carry limbs).2 := by
  induction limbs with
  | nil => exact fun hrom hpc hmodes _ _ => ⟨_, .refl _, hrom, hpc, hmodes, rfl⟩
  | cons xy rest ih =>
      obtain ⟨x, y⟩ := xy
      intro m o hrom hpc hmodes hC hend
      rw [List.flatMap_cons, codeAt_append] at hC
      have hsize : codeSize (limbLines x y) = 6 := by simp [limbLines]
      rw [hsize] at hC
      simp only [List.length_cons] at hend
      -- the first pair, then the rest from the carry it leaves
      obtain ⟨m₁, r₁, hrom₁, hpc₁, hmodes₁, hcarry₁⟩ := limb_runs hrom hpc hmodes hC.1 (by omega)
      obtain ⟨m', r', hrom', hpc', hmodes', hcarry'⟩ := ih hrom₁ hpc₁ hmodes₁ hC.2 (by omega)
      rw [hcarry₁] at r' hcarry'
      refine ⟨m', ?_, hrom', by rw [hpc', List.length_cons]; omega, hmodes', hcarry'⟩
      have hr := r₁.trans r'
      rw [List.length_cons, Nat.mul_succ, Nat.add_comm]
      simpa [rippleAdd_cons] using hr

end Steps

/-- The schoolbook addition of two numbers of `n` bytes, in carry-chaining mode: the program
that adds their bytes pair by pair, least significant first, writing each byte of the sum,
assembles to `6 * n + 3` bytes. Booted from ROM with no input, it halts after `4 * n + 3` steps,
having written the `n` bytes of the sum modulo `256 ^ n`, least significant first, with the carry
flag set exactly when the sum reaches `256 ^ n`. -/
theorem carry_chain_adds (n X Y : Nat) (hX : X < 256 ^ n) (hY : Y < 256 ^ n)
    (hfit : 6 * n + 3 ≤ romSize) :
    ∃ code, assemble (carryChainText ((littleEndian n X).zip (littleEndian n Y))) = .ok code ∧
      code.length = 6 * n + 3 ∧ ∀ budget, 4 * n + 3 ≤ budget →
        ((Machine.boot code []).run budget).outcome = .halted (4 * n + 3) ∧
        ((Machine.boot code []).run budget).outputs =
          (littleEndian n ((X + Y) % 256 ^ n)).map (fun b => (b.toNat : Int)) ∧
        ((Machine.boot code []).run budget).machine.flags.carry = decide (256 ^ n ≤ X + Y) := by
  have hlen : ((littleEndian n X).zip (littleEndian n Y)).length = n := by simp
  obtain ⟨code, hasm, hsize, hC⟩ :=
    assemble_of_assembles (carryChainLines_assemble ((littleEndian n X).zip (littleEndian n Y)))
      (targets_carryChainLines _)
  rw [codeSize_carryChainLines, hlen] at hsize
  refine ⟨code, by rw [carryChainText_eq]; exact hasm, hsize, fun budget hbudget => ?_⟩
  have hC := hC (by omega)
  have hpresize : codeSize [Line.plain (.alu .clear), Line.plain (.alu .carryOn)] = 2 := rfl
  rw [carryChainLines, codeAt_append, codeAt_append, codeSize_append, codeSize_limbs, hlen,
    hpresize, Nat.zero_add] at hC
  obtain ⟨⟨hpre, hbody⟩, hhalt⟩ := hC
  simp only [Line.plain, codeAt_instr_cons, Nat.zero_add] at hhalt
  -- the prelude, the pairs of bytes from a clear carry, and the closing `halt`
  have hrom : (Machine.boot code []).rom = romOf code := rfl
  have hpc : (Machine.boot code []).pc.toNat = 0 := rfl
  obtain ⟨m₁, r₁, hrom₁, hpc₁, hmodes₁, hcarry₁⟩ := runs_prelude hrom hpc hpre (by omega)
  obtain ⟨m₂, r₂, hrom₂, hpc₂, -, hcarry₂⟩ :=
    limbs_run _ hrom₁ hpc₁ hmodes₁ hbody (by rw [hlen]; omega)
  rw [hcarry₁, rippleAdd_littleEndian, Nat.mod_eq_of_lt hX, Nat.mod_eq_of_lt hY, hlen] at r₂
  rw [hcarry₁, rippleAdd_littleEndian, Nat.mod_eq_of_lt hX, Nat.mod_eq_of_lt hY] at hcarry₂
  rw [hlen, Nat.zero_add] at hpc₂
  have hstep := step_halt hrom₂ hpc₂ hhalt.1
  obtain ⟨extra, rfl⟩ : ∃ extra, budget = 2 + 4 * n + 1 + extra := ⟨budget - (4 * n + 3), by omega⟩
  rw [run_of_runs_halt (r₁.trans r₂) (by rw [hstep]) extra, hstep]
  refine ⟨congrArg Outcome.halted (by omega), ?_, hcarry₂⟩
  simp [littleEndian_mod]

/-- Adding 1 to 65535 in two bytes: the carry out of the low byte is taken into the high byte, and
the carry out of the high byte is left in the flag. -/
theorem carry_chain_adds_across_both_bytes :
    (65535 < 256 ^ 2 ∧ 1 < 256 ^ 2 ∧ 6 * 2 + 3 ≤ romSize) ∧
    ∃ code, assemble (carryChainText ((littleEndian 2 65535).zip (littleEndian 2 1))) = .ok code ∧
      code.length = 6 * 2 + 3 ∧ ∀ budget, 4 * 2 + 3 ≤ budget →
        ((Machine.boot code []).run budget).outcome = .halted (4 * 2 + 3) ∧
        ((Machine.boot code []).run budget).outputs =
          (littleEndian 2 ((65535 + 1) % 256 ^ 2)).map (fun b => (b.toNat : Int)) ∧
        ((Machine.boot code []).run budget).machine.flags.carry = decide (256 ^ 2 ≤ 65535 + 1) :=
  ⟨⟨by decide, by decide, by decide⟩,
    carry_chain_adds 2 65535 1 (by decide) (by decide) (by decide)⟩

end Compiler

end ByteMachine

import ByteMachine.Proofs.Compiler.Execution
import ByteMachine.Proofs.Compiler.Allocation
import ByteMachine.Proofs.Source.Semantics
/-!
# Expression code computes the expression's value

A machine stands for a state of the reference semantics (`Agrees`) when it runs the program's
ROM with the ALU modes off, its input port holds the bytes not read yet, and the RAM bytes below
a bound `V` hold the cells. Code generation binds names as a scope does (`Binds`): each name to
the address of its latest cell.

The code of an expression, run from a machine at the code that stands for a state, evaluates the
expression: the run ends right after the code with the value in A, the machine standing for the
state after the expression, and the RAM bytes from the lowest spill byte claimed before the code
up as they were (`Quiet`). The code of a leaf also keeps B, which is what lets a binary operator
hold its first operand there; any other second operand is preceded by a spill of the first, to a
byte that the second operand's code leaves alone.

## Main statements

* `Quiet.trans`: runs of expression code compose.
* `exprCode_evaluates`: the code of every expression evaluates it, and never gets stuck where the
  reference semantics would fault.
-/

namespace ByteMachine.Compiler

open Source Machine Assembly

/-! ## Bindings -/

/-- Code generation binds names as the scope `sc` does: each name to the address of its latest
cell, and the next variable address is the scope's next cell. -/
structure Binds (g : Gen) (sc : Scope) : Prop where
  vars : g.vars = sc.names.map fun p => (p.1, p.2.toUInt8)
  next : g.nextAddress = sc.next

theorem lookup_map_toUInt8 (names : List (String × Nat)) (n : String) :
    (names.map fun p => (p.1, p.2.toUInt8)).lookup n = (names.lookup n).map Nat.toUInt8 := by
  induction names with
  | nil => rfl
  | cons p names ih =>
      obtain ⟨k, c⟩ := p
      simp only [List.map_cons, List.lookup_cons]
      cases n == k <;> simp [ih]

theorem Binds.lookup {g : Gen} {sc : Scope} (h : Binds g sc) (n : String) :
    g.vars.lookup n = (sc.cellOf n).map Nat.toUInt8 := by
  rw [h.vars, lookup_map_toUInt8]
  rfl

theorem Binds.congr {g g' : Gen} {sc : Scope} (h : Binds g sc) (hv : g'.vars = g.vars)
    (hn : g'.nextAddress = g.nextAddress) : Binds g' sc :=
  ⟨hv.trans h.vars, hn.trans h.next⟩

/-- A name's address is the byte of its cell. -/
theorem addressOf_cell {name : Token} {addr : UInt8} {g g₁ : Gen} {sc : Scope}
    (h : addressOf name g = .ok (addr, g₁)) (hB : Binds g sc) :
    ∃ k, sc.cellOf name.lexeme = some k ∧ addr = k.toUInt8 := by
  rw [addressOf_run, hB.lookup] at h
  cases hk : sc.cellOf name.lexeme with
  | none =>
      simp only [hk, Option.map_none] at h
      cases h
  | some k =>
      simp only [hk, Option.map_some, Except.ok.injEq, Prod.mk.injEq] at h
      exact ⟨k, rfl, h.1.symm⟩

theorem freshLabel_keeps {l : String} {g g' : Gen} (h : freshLabel g = .ok (l, g')) :
    g'.vars = g.vars ∧ g'.nextAddress = g.nextAddress ∧ g'.scratchFloor = g.scratchFloor := by
  cases h
  exact ⟨rfl, rfl, rfl⟩

/-! ## Machines that stand for states -/

section Agrees

variable {rom : Vector UInt8 romSize} {V : Nat} {σ : State} {m m' : Machine}

/-- The machine stands for the state `σ`: it runs `rom` with the ALU modes off, its input port
holds the bytes not read yet, and the RAM bytes below `V` hold the cells. -/
structure Agrees (rom : Vector UInt8 romSize) (V : Nat) (σ : State) (m : Machine) : Prop where
  rom : m.rom = rom
  modes : m.modes = {}
  input : m.input = σ.input
  cells : ∀ k < V, m.read k.toUInt8 = σ.cells k

/-- A machine with the same ROM, RAM, modes and input stands for the same state. -/
theorem Agrees.congr (h : Agrees rom V σ m) (hrom : m'.rom = m.rom) (hram : m'.ram = m.ram)
    (hmodes : m'.modes = m.modes) (hin : m'.input = m.input) : Agrees rom V σ m' :=
  ⟨hrom.trans h.rom, hmodes.trans h.modes, hin.trans h.input,
    fun k hk => (read_congr m hram _).trans (h.cells k hk)⟩

/-- A store above the cells changes no cell. -/
theorem Agrees.write_above (h : Agrees rom V σ m) {addr : UInt8} (haddr : V ≤ addr.toNat)
    (v : UInt8) : Agrees rom V σ (m.write addr v) := by
  refine ⟨by simp [h.rom], by simp [h.modes], by simp [h.input], fun k hk => ?_⟩
  have hne : k.toUInt8 ≠ addr := by
    intro heq
    have h256 := addr.toNat_lt
    have := congrArg UInt8.toNat heq
    rw [toNat_toUInt8_of_lt (by omega)] at this
    omega
  rw [read_write, if_neg hne, h.cells k hk]

/-- A store to a cell's byte writes the cell. -/
theorem Agrees.write_cell (h : Agrees rom V σ m) {k : Nat} (hk : k < V) (hV : V ≤ 256)
    (v : UInt8) : Agrees rom V (σ.set k v) (m.write k.toUInt8 v) := by
  refine ⟨by simp [h.rom], by simp [h.modes], by simp [h.input], fun j hj => ?_⟩
  rw [read_write, State.set_cells]
  by_cases hjk : j = k
  · simp [hjk]
  · have hne : j.toUInt8 ≠ k.toUInt8 := by
      intro heq
      have := congrArg UInt8.toNat heq
      rw [toNat_toUInt8_of_lt (by omega), toNat_toUInt8_of_lt (by omega)] at this
      exact hjk this
    rw [if_neg hne, if_neg hjk, h.cells j hj]

end Agrees

/-! ## Runs of expression code -/

section Quiet

variable {rom : Vector UInt8 romSize} {pos : String → Option Nat} {V floor : Nat}
  {σ σ₁ σ₂ : State} {m m₁ m₂ : Machine} {e e₁ e₂ : Nat}

/-- A run of expression code from `m` to `m'`, ending at offset `e`: it outputs nothing and does
not halt, the machine stands for `σ'` at its end, the RAM bytes from `floor` up are as they were,
and so are registers C and D, the page register and the MAR. -/
structure Quiet (rom : Vector UInt8 romSize) (V floor : Nat) (m : Machine) (σ' : State)
    (m' : Machine) (e : Nat) : Prop where
  runs : ∃ k, Runs m k [] m'
  pc : m'.pc.toNat = e
  agrees : Agrees rom V σ' m'
  frame : ∀ addr : UInt8, floor ≤ addr.toNat → m'.read addr = m.read addr
  untouched : Untouched m m'

theorem Quiet.trans (h₁ : Quiet rom V floor m σ₁ m₁ e₁) (h₂ : Quiet rom V floor m₁ σ₂ m₂ e₂) :
    Quiet rom V floor m σ₂ m₂ e₂ := by
  obtain ⟨k₁, hr₁⟩ := h₁.runs
  obtain ⟨k₂, hr₂⟩ := h₂.runs
  exact ⟨⟨k₁ + k₂, hr₁.trans hr₂⟩, h₂.pc, h₂.agrees,
    fun addr haddr => (h₂.frame addr haddr).trans (h₁.frame addr haddr),
    h₁.untouched.trans h₂.untouched⟩

/-- A run that keeps the bytes from a floor up keeps those from any higher floor. -/
theorem Quiet.mono {floor' : Nat} (h : Quiet rom V floor m σ₁ m₁ e₁) (hf : floor ≤ floor') :
    Quiet rom V floor' m σ₁ m₁ e₁ :=
  ⟨h.runs, h.pc, h.agrees, fun addr haddr => h.frame addr (le_trans hf haddr), h.untouched⟩

theorem Quiet.refl (hA : Agrees rom V σ m) (hpc : m.pc.toNat = e) : Quiet rom V floor m σ m e :=
  ⟨⟨0, .refl m⟩, hpc, hA, fun _ _ => rfl, Untouched.refl m⟩

theorem Quiet.to {e' : Nat} (h : Quiet rom V floor m σ₁ m₁ e₁) (he : e₁ = e') :
    Quiet rom V floor m σ₁ m₁ e' :=
  he ▸ h

/-- One step that keeps RAM, modes and input, and C, D, the page register and the MAR. -/
theorem Quiet.single {m' : Machine} (hA : Agrees rom V σ m) (hstep : m.step = ⟨m', none, true⟩)
    (hrom : m'.rom = m.rom) (hram : m'.ram = m.ram) (hmodes : m'.modes = m.modes)
    (hin : m'.input = m.input) (hpc : m'.pc.toNat = e) (hkeep : Untouched m m') :
    Quiet rom V floor m σ m' e :=
  ⟨⟨1, Runs.single hstep⟩, hpc, hA.congr hrom hram hmodes hin,
    fun addr _ => read_congr m hram addr, hkeep⟩

end Quiet

/-! ## The generated lines, one at a time -/

section Lines

variable {rom : Vector UInt8 romSize} {pos : String → Option Nat} {o : Nat} {rest : List Line}

@[simp] theorem codeAt_loadConst_cons {v : UInt8} :
    CodeAt rom pos o (loadConst v :: rest) ↔
      InstrAt rom pos o (.loadImmediate .a) (.byte v) ∧ CodeAt rom pos (o + 2) rest := Iff.rfl

@[simp] theorem codeAt_loadFrom_cons {addr : UInt8} {r : Register} :
    CodeAt rom pos o (loadFrom addr r :: rest) ↔
      InstrAt rom pos o (.loadDirect r) (.byte addr) ∧ CodeAt rom pos (o + 2) rest := Iff.rfl

@[simp] theorem codeAt_storeA_cons {addr : UInt8} :
    CodeAt rom pos o (storeA addr :: rest) ↔
      InstrAt rom pos o (.saveDirect .a) (.byte addr) ∧ CodeAt rom pos (o + 2) rest := Iff.rfl

@[simp] theorem codeAt_jumpTo_cons {c : Condition} {name : String} :
    CodeAt rom pos o (jumpTo c name :: rest) ↔
      InstrAt rom pos o (.jump c) (.label name) ∧ CodeAt rom pos (o + 3) rest := Iff.rfl

@[simp] theorem codeAt_testA_cons :
    CodeAt rom pos o (testA :: rest) ↔
      InstrAt rom pos o (.compare .a (.constant 0)) .none ∧ CodeAt rom pos (o + 1) rest := Iff.rfl

@[simp] theorem codeAt_plain_cons {op : Op} :
    CodeAt rom pos o (.plain op :: rest) ↔
      InstrAt rom pos o op .none ∧ CodeAt rom pos (o + 1) rest := Iff.rfl

variable {V F : Nat} {σ : State} {m : Machine} {p : Nat}

theorem quiet_loadConst {v : UInt8} (hA : Agrees rom V σ m) (hpc : m.pc.toNat = p)
    (hI : InstrAt rom pos p (.loadImmediate .a) (.byte v)) (hend : p + 2 < romSize) :
    ∃ m', Quiet rom V F m σ m' (p + 2) ∧ m'.a = v ∧ m'.b = m.b ∧ m'.flags = m.flags :=
  ⟨_, Quiet.single hA (step_loadImmediate hA.rom hpc hI) (by simp) (by simp) (by simp) (by simp)
    (toNat_add_one (toNat_add_one hpc (by omega)) hend) ⟨rfl, rfl, rfl, rfl⟩, by simp, by simp,
    by simp⟩

theorem quiet_loadFrom_a {addr : UInt8} (hA : Agrees rom V σ m) (hpc : m.pc.toNat = p)
    (hI : InstrAt rom pos p (.loadDirect .a) (.byte addr)) (hend : p + 2 < romSize) :
    ∃ m', Quiet rom V F m σ m' (p + 2) ∧ m'.a = m.read addr ∧ m'.b = m.b ∧ m'.flags = m.flags :=
  ⟨_, Quiet.single hA (step_loadDirect hA.rom hpc hI) (by simp) (by simp) (by simp) (by simp)
    (toNat_add_one (toNat_add_one hpc (by omega)) hend) ⟨rfl, rfl, rfl, rfl⟩, by simp, by simp,
    by simp⟩

theorem quiet_loadFrom_b {addr : UInt8} (hA : Agrees rom V σ m) (hpc : m.pc.toNat = p)
    (hI : InstrAt rom pos p (.loadDirect .b) (.byte addr)) (hend : p + 2 < romSize) :
    ∃ m', Quiet rom V F m σ m' (p + 2) ∧ m'.a = m.a ∧ m'.b = m.read addr :=
  ⟨_, Quiet.single hA (step_loadDirect hA.rom hpc hI) (by simp) (by simp) (by simp) (by simp)
    (toNat_add_one (toNat_add_one hpc (by omega)) hend) ⟨rfl, rfl, rfl, rfl⟩, by simp, by simp⟩

/-- A spill store: the byte lies above the cells and below the floor. -/
theorem quiet_storeA_spill {addr : UInt8} (hA : Agrees rom V σ m) (hpc : m.pc.toNat = p)
    (hV : V ≤ addr.toNat) (hf : addr.toNat < F)
    (hI : InstrAt rom pos p (.saveDirect .a) (.byte addr)) (hend : p + 2 < romSize) :
    ∃ m', Quiet rom V F m σ m' (p + 2) ∧ m'.a = m.a ∧ m'.b = m.b ∧ m'.read addr = m.a := by
  have hA' : Agrees rom V σ ({ m with pc := m.pc + 1 + 1 } : Machine) := hA.congr rfl rfl rfl rfl
  refine ⟨_, ⟨⟨1, Runs.single (step_saveDirect hA.rom hpc hI)⟩,
    toNat_add_one (toNat_add_one hpc (by omega)) hend, hA'.write_above hV _,
    fun addr' haddr' => ?_, ⟨rfl, rfl, rfl, rfl⟩⟩, rfl, rfl, ?_⟩
  · have hne : addr' ≠ addr := fun h => by subst h; omega
    rw [read_write, if_neg hne]
    rfl
  · rw [read_write, if_pos rfl]
    rfl

/-- A store to the byte of a cell. -/
theorem quiet_storeA_cell {k : Nat} (hA : Agrees rom V σ m) (hpc : m.pc.toNat = p) (hk : k < V)
    (hV : V ≤ F) (hf : F ≤ 256)
    (hI : InstrAt rom pos p (.saveDirect .a) (.byte k.toUInt8)) (hend : p + 2 < romSize) :
    ∃ m', Quiet rom V F m (σ.set k m.a) m' (p + 2) ∧ m'.a = m.a := by
  have hA' : Agrees rom V σ ({ m with pc := m.pc + 1 + 1 } : Machine) := hA.congr rfl rfl rfl rfl
  refine ⟨_, ⟨⟨1, Runs.single (step_saveDirect hA.rom hpc hI)⟩,
    toNat_add_one (toNat_add_one hpc (by omega)) hend, hA'.write_cell hk (by omega) _,
    fun addr' haddr' => ?_, ⟨rfl, rfl, rfl, rfl⟩⟩, rfl⟩
  have hne : addr' ≠ k.toUInt8 := by
    intro h
    subst h
    rw [toNat_toUInt8_of_lt (by omega)] at haddr'
    omega
  rw [read_write, if_neg hne]
  rfl

theorem quiet_move (hA : Agrees rom V σ m) (hpc : m.pc.toNat = p)
    (hI : InstrAt rom pos p (.move .a .b) .none) (hend : p + 1 < romSize) :
    ∃ m', Quiet rom V F m σ m' (p + 1) ∧ m'.a = m.a ∧ m'.b = m.a :=
  ⟨_, Quiet.single hA (step_move hA.rom hpc hI) (by simp) (by simp) (by simp) (by simp)
    (toNat_add_one hpc hend) ⟨rfl, rfl, rfl, rfl⟩, by simp, by simp [reg]⟩

/-- An ALU operation into A that keeps the modes. -/
theorem quiet_alu {op : AluOp} (hA : Agrees rom V σ m) (hpc : m.pc.toNat = p)
    (hmodes : ∀ m : Machine, (m.execAlu op).modes = m.modes) (hdest : op.destination = .a)
    (hI : InstrAt rom pos p (.alu op) .none) (hend : p + 1 < romSize) :
    Quiet rom V F m σ (({ m with pc := m.pc + 1 } : Machine).execAlu op) (p + 1) :=
  Quiet.single hA (step_alu hA.rom hpc hI) (by simp) (by simp) (by rw [hmodes]) (by simp)
    (by rw [execAlu_pc]; exact toNat_add_one hpc hend)
    (by
      have h := execAlu_untouched ({ m with pc := m.pc + 1 } : Machine) hdest
      exact ⟨h.c, h.d, h.page, h.mar⟩)

/-- `cmp a b` sets the flags from the difference of the two bytes. -/
theorem quiet_compare (hA : Agrees rom V σ m) (hpc : m.pc.toNat = p)
    (hI : InstrAt rom pos p (.compare .a (.register .b)) .none) (hend : p + 1 < romSize) :
    ∃ m', Quiet rom V F m σ m' (p + 1) ∧ m'.a = m.a ∧ m'.b = m.b ∧
      m'.flags = Flags.ofResult false ((m.a.toNat : Int) - m.b.toNat) :=
  ⟨_, Quiet.single hA (step_compare_register hA.rom hpc hI) rfl rfl rfl rfl
    (toNat_add_one hpc hend) ⟨rfl, rfl, rfl, rfl⟩, rfl, rfl, by rw [hA.modes]; rfl⟩

/-- `cmp a 0` sets the flags from A. -/
theorem quiet_testA (hA : Agrees rom V σ m) (hpc : m.pc.toNat = p)
    (hI : InstrAt rom pos p (.compare .a (.constant 0)) .none) (hend : p + 1 < romSize) :
    ∃ m', Quiet rom V F m σ m' (p + 1) ∧ m'.a = m.a ∧ m'.b = m.b ∧
      m'.flags = Flags.ofResult false (m.a.toNat : Int) :=
  ⟨_, Quiet.single hA (step_compare_constant hA.rom hpc hI) rfl rfl rfl rfl
    (toNat_add_one hpc hend) ⟨rfl, rfl, rfl, rfl⟩, rfl, rfl, by rw [hA.modes, Int.sub_zero]; rfl⟩

/-- A jump's target lies in the ROM. -/
theorem jump_target_lt {c : Condition} {name : String} {t : Nat}
    (hI : InstrAt rom pos p (.jump c) (.label name)) (ht : pos name = some t) : t < romSize := by
  obtain ⟨-, -, -, t', ht', hlt, -⟩ := hI
  rw [ht, Option.some.injEq] at ht'
  exact ht' ▸ hlt

/-- A jump to a label goes to the label's offset when its condition holds, and on otherwise. -/
theorem quiet_jump {c : Condition} {name : String} {t : Nat} (hA : Agrees rom V σ m)
    (hpc : m.pc.toNat = p) (hI : InstrAt rom pos p (.jump c) (.label name))
    (ht : pos name = some t) (hend : p + 3 < romSize) :
    ∃ m', Quiet rom V F m σ m' (if c.holds m.flags then t else p + 3) ∧ m'.a = m.a ∧
      m'.b = m.b ∧ m'.flags = m.flags := by
  refine ⟨_, Quiet.single hA (step_jump hA.rom hpc hI ht) rfl rfl rfl rfl ?_ ⟨rfl, rfl, rfl, rfl⟩,
    rfl, rfl, rfl⟩
  by_cases hc : c.holds m.flags
  · simp only [hc, if_true]
    exact UInt16.toNat_ofNat_of_lt' (jump_target_lt hI ht)
  · simp only [hc]
    exact toNat_add_one (toNat_add_one (toNat_add_one hpc (by omega)) (by omega)) hend

theorem quiet_input (hA : Agrees rom V σ m) (hpc : m.pc.toNat = p)
    (hI : InstrAt rom pos p (.input .a) .none) (hend : p + 1 < romSize) :
    ∃ m', Quiet rom V F m σ.readInput.2 m' (p + 1) ∧ m'.a = σ.readInput.1 ∧ m'.b = m.b ∧
      m'.flags = m.flags := by
  have hu := takeInput_untouched ({ m with pc := m.pc + 1 } : Machine)
  refine ⟨_, ⟨⟨1, Runs.single (step_input hA.rom hpc hI)⟩, ?_, ⟨?_, ?_, ?_, fun k hk => ?_⟩,
    fun addr _ => read_congr m (by simp) addr, ⟨hu.c, hu.d, hu.page, hu.mar⟩⟩, ?_, by simp,
    by simp⟩
  · simpa using toNat_add_one hpc hend
  · simp [hA.rom]
  · simp [hA.modes]
  · simp [hA.input]
  · rw [read_congr m (by simp), hA.cells k hk, State.readInput_cells]
  · simp [hA.input, State.readInput_fst]

/-- `load rom a 0`, `jmp c skip`, `load rom a 1`, `:skip`: A becomes 0 when `c` holds and 1
otherwise. -/
theorem quiet_select {c : Condition} {skip : String} (hA : Agrees rom V σ m) (hpc : m.pc.toNat = p)
    (hC : CodeAt rom pos p [loadConst 0, jumpTo c skip, loadConst 1, .label skip])
    (hend : p + 7 < romSize) :
    ∃ m', Quiet rom V F m σ m' (p + 7) ∧ m'.a = (if c.holds m.flags then 0 else 1) ∧
      m'.b = m.b := by
  simp only [codeAt_loadConst_cons, codeAt_jumpTo_cons, codeAt_label_cons, codeAt_nil,
    and_true] at hC
  obtain ⟨h₀, hj, h₁, hskip⟩ := hC
  obtain ⟨m₁, q₁, ha₁, hb₁, hf₁⟩ := quiet_loadConst hA hpc h₀ (by omega)
  obtain ⟨m₂, q₂, ha₂, hb₂, -⟩ := quiet_jump q₁.agrees q₁.pc hj hskip (by omega)
  rw [hf₁] at q₂
  by_cases hc : c.holds m.flags
  · -- the jump skips the second load
    rw [if_pos hc] at q₂
    exact ⟨m₂, q₁.trans q₂, by rw [if_pos hc, ha₂, ha₁], by rw [hb₂, hb₁]⟩
  · rw [if_neg hc] at q₂
    obtain ⟨m₃, q₃, ha₃, hb₃, -⟩ := quiet_loadConst q₂.agrees q₂.pc h₁ (by omega)
    exact ⟨m₃, (q₁.trans q₂).trans q₃, by rw [if_neg hc, ha₃], by rw [hb₃, hb₂, hb₁]⟩

end Lines

/-! ## Operators on the machine -/

/-- The ALU operation an arithmetic operator lowers to computes the operator on A and B. -/
theorem execAlu_lowering {op : BinOp} {alu : AluOp} (h : lowering op = .inl alu) {m : Machine}
    (hc : m.modes.carryChain = false) : (m.execAlu alu).a = op.apply m.a m.b := by
  cases op <;> simp only [lowering, Sum.inl.injEq, reduceCtorEq] at h <;> subst h
  · exact execAlu_add hc
  · exact execAlu_sub
  · exact execAlu_mul
  · exact execAlu_div
  · exact execAlu_bitAnd
  · exact execAlu_bitOr

theorem lowering_modes {op : BinOp} {alu : AluOp} (h : lowering op = .inl alu) (m : Machine) :
    (m.execAlu alu).modes = m.modes := by
  cases op <;> simp only [lowering, Sum.inl.injEq, reduceCtorEq] at h <;> subst h <;> simp

theorem lowering_destination {op : BinOp} {alu : AluOp} (h : lowering op = .inl alu) :
    alu.destination = .a := by
  cases op <;> simp only [lowering, Sum.inl.injEq, reduceCtorEq] at h <;> subst h <;> rfl

/-- After `cmp a b`, A becomes the value of the comparison that lowers to the condition: the
condition holds exactly when the comparison is false. -/
theorem select_lowering {op : BinOp} {c : Condition} (h : lowering op = .inr c) (a b : UInt8) :
    (if c.holds (Flags.ofResult false ((a.toNat : Int) - b.toNat)) then (0 : UInt8) else 1) =
      op.apply a b := by
  cases op <;> simp only [lowering, Sum.inr.injEq, reduceCtorEq] at h <;> subst h <;>
    simp only [BinOp.apply, Condition.holds, ofResult_sub_carry, ofResult_sub_zero] <;>
    split_ifs <;> simp_all [UInt8.lt_iff_toNat_lt, UInt8.le_iff_toNat_le, ← UInt8.toNat_inj] <;>
    omega

/-- After `cmp a 0`, `equal` holds exactly when A is zero and `notEqual` when it is not. -/
theorem holds_testA (v : UInt8) :
    Condition.equal.holds (Flags.ofResult false (v.toNat : Int)) = decide (v = 0) ∧
      Condition.notEqual.holds (Flags.ofResult false (v.toNat : Int)) = decide (v ≠ 0) := by
  have hzero := ofResult_sub_zero false v 0
  rw [show (((0 : UInt8).toNat : Nat) : Int) = 0 from rfl, Int.sub_zero] at hzero
  simp [Condition.holds, hzero]

theorem lowering_ordered {op : BinOp} {c : Condition} (h : lowering op = .inr c) :
    op.isOrdered = true := by
  cases op <;> simp only [lowering, Sum.inr.injEq, reduceCtorEq] at h <;> rfl

section Idioms

variable {rom : Vector UInt8 romSize} {pos : String → Option Nat} {V F : Nat} {σ : State}
  {m : Machine} {p : Nat} {skip : String}

/-- `cmp a b` and a select: A becomes 0 when `c` holds after comparing A with B, and 1
otherwise. -/
theorem quiet_compareSelect {c : Condition} (hA : Agrees rom V σ m) (hpc : m.pc.toNat = p)
    (hC : CodeAt rom pos p
      [.plain (.compare .a (.register .b)), loadConst 0, jumpTo c skip, loadConst 1, .label skip])
    (hend : p + 8 < romSize) :
    ∃ m', Quiet rom V F m σ m' (p + 8) ∧
      m'.a = if c.holds (Flags.ofResult false ((m.a.toNat : Int) - m.b.toNat)) then 0 else 1 := by
  rw [codeAt_plain_cons] at hC
  obtain ⟨hcmp, hsel⟩ := hC
  obtain ⟨m₁, q₁, -, -, hf₁⟩ := quiet_compare hA hpc hcmp (by omega)
  obtain ⟨m₂, q₂, ha₂, -⟩ := quiet_select q₁.agrees q₁.pc hsel (by omega)
  exact ⟨m₂, q₁.trans q₂, by rw [ha₂, hf₁]⟩

/-- `cmp a 0` and a select on `notEqual`: A becomes its logical negation. -/
theorem quiet_notSelect (hA : Agrees rom V σ m) (hpc : m.pc.toNat = p)
    (hC : CodeAt rom pos p [testA, loadConst 0, jumpTo .notEqual skip, loadConst 1, .label skip])
    (hend : p + 8 < romSize) :
    ∃ m', Quiet rom V F m σ m' (p + 8) ∧ m'.a = UnaryOp.not.apply m.a := by
  rw [codeAt_testA_cons] at hC
  obtain ⟨htest, hsel⟩ := hC
  obtain ⟨m₁, q₁, ha₁, -, hf₁⟩ := quiet_testA hA hpc htest (by omega)
  obtain ⟨m₂, q₂, ha₂, -⟩ := quiet_select q₁.agrees q₁.pc hsel (by omega)
  refine ⟨m₂, q₁.trans q₂, ?_⟩
  rw [ha₂, hf₁, (holds_testA m.a).2, UnaryOp.apply]
  by_cases h : m.a = 0 <;> simp [h]

end Idioms

/-! ## Expression code -/

section Evaluates

variable (rom : Vector UInt8 romSize) (pos : String → Option Nat)

/-- A run of code generation from `g` to `g'` that gave `code` for `e`: it keeps the bindings and
the next variable address and claims spill bytes only, and the code evaluates `e`. Run from a
machine at the code that stands for a state, with the scope's cells below `V` and `V` no higher
than the lowest spill byte claimed by the end, the code ends right after itself with `e`'s value
in A, the machine standing for the state after `e` and the RAM bytes from the lowest spill byte
claimed before the code up as they were. The code of a leaf keeps B and the flags. -/
structure CodeEvaluates (g g' : Gen) (code : List Line) (e : Expr) : Prop where
  vars : g'.vars = g.vars
  next : g'.nextAddress = g.nextAddress
  floor : g'.scratchFloor ≤ g.scratchFloor
  run : ∀ ⦃sc : Scope⦄ ⦃V : Nat⦄ ⦃σ : State⦄ ⦃m : Machine⦄ ⦃o : Nat⦄, Binds g sc → sc.next ≤ V →
    V ≤ g'.scratchFloor → g.scratchFloor ≤ 256 → Agrees rom V σ m → m.pc.toNat = o →
    CodeAt rom pos o code → o + codeSize code < romSize →
    ∃ v σ' m', e.eval sc σ = some (v, σ') ∧
      Quiet rom V g.scratchFloor m σ' m' (o + codeSize code) ∧ m'.a = v ∧
        (e.isLeaf → m'.b = m.b ∧ m'.flags = m.flags)

/-- A run of code generation that gave the code of two operands: as `CodeEvaluates`, with `e₁`
evaluated first and `e₂` after it, and the second value left in A and the first in B. -/
structure CodeOperands (g g' : Gen) (code : List Line) (e₁ e₂ : Expr) : Prop where
  vars : g'.vars = g.vars
  next : g'.nextAddress = g.nextAddress
  floor : g'.scratchFloor ≤ g.scratchFloor
  run : ∀ ⦃sc : Scope⦄ ⦃V : Nat⦄ ⦃σ : State⦄ ⦃m : Machine⦄ ⦃o : Nat⦄, Binds g sc → sc.next ≤ V →
    V ≤ g'.scratchFloor → g.scratchFloor ≤ 256 → Agrees rom V σ m → m.pc.toNat = o →
    CodeAt rom pos o code → o + codeSize code < romSize →
    ∃ v₁ σ₁ v₂ σ₂ m', e₁.eval sc σ = some (v₁, σ₁) ∧ e₂.eval sc σ₁ = some (v₂, σ₂) ∧
      Quiet rom V g.scratchFloor m σ₂ m' (o + codeSize code) ∧ m'.a = v₂ ∧ m'.b = v₁

/-- Every run of `x` gives code that evaluates `e`. -/
def Evaluates (x : GenM (List Line)) (e : Expr) : Prop :=
  ∀ ⦃g g' : Gen⦄ ⦃code : List Line⦄, x g = .ok (code, g') → CodeEvaluates rom pos g g' code e

variable {rom pos}

/-- The operands' code computes the first operand and then the second, and leaves the second in
A and the first in B: a leaf second operand keeps B, and any other is preceded by a spill of the
first to the byte below the lowest claimed, which the second's code leaves alone. -/
theorem operandsCode_evaluates {first second : GenM (List Line)} {e₁ e₂ : Expr}
    (h₁ : Evaluates rom pos first e₁) (h₂ : Evaluates rom pos second e₂) {g g' : Gen}
    {code : List Line} (h : operandsCode first second e₂.isLeaf g = .ok (code, g')) :
    CodeOperands rom pos g g' code e₁ e₂ := by
  simp only [operandsCode] at h
  obtain ⟨a, g₁, ha, h⟩ := run_bind_eq_ok.1 h
  have A := h₁ ha
  cases hleaf : e₂.isLeaf with
  | true =>
      simp only [hleaf, ↓reduceIte] at h
      obtain ⟨b, g₂, hb, h⟩ := run_bind_eq_ok.1 h
      obtain ⟨rfl, rfl⟩ := run_pure_eq_ok.1 h
      have B := h₂ hb
      refine ⟨B.vars.trans A.vars, B.next.trans A.next, B.floor.trans A.floor,
        fun sc V σ m o hB hV hV' hF hA hpc hC hend => ?_⟩
      simp only [codeAt_append, codeAt_plain_cons, codeAt_nil, and_true, codeSize_append,
        codeSize_cons, size_plain, codeSize_nil] at hC
      simp only [codeSize_append, codeSize_cons, size_plain, codeSize_nil] at hend ⊢
      obtain ⟨⟨hCa, hmove⟩, hCb⟩ := hC
      obtain ⟨v₁, σ₁, m₁, hev₁, q₁, ha₁, -⟩ :=
        A.run hB hV (hV'.trans B.floor) hF hA hpc hCa (by omega)
      obtain ⟨m₂, q₂, ha₂, hb₂⟩ := quiet_move (F := g.scratchFloor) q₁.agrees q₁.pc hmove
        (by omega)
      obtain ⟨v₂, σ₂, m₃, hev₂, q₃, ha₃, hb₃⟩ := B.run (hB.congr A.vars A.next) hV hV'
        (A.floor.trans hF) q₂.agrees q₂.pc hCb (by omega)
      exact ⟨v₁, σ₁, v₂, σ₂, m₃, hev₁, hev₂,
        ((q₁.trans q₂).trans (q₃.mono A.floor)).to (by omega), ha₃, by rw [(hb₃ hleaf).1, hb₂, ha₁]⟩
  | false =>
      simp only [hleaf, Bool.false_eq_true, ↓reduceIte] at h
      obtain ⟨s, g₂, hs, h⟩ := run_bind_eq_ok.1 h
      obtain ⟨b, g₃, hb, h⟩ := run_bind_eq_ok.1 h
      obtain ⟨rfl, rfl⟩ := run_pure_eq_ok.1 h
      obtain ⟨hlt, rfl, hn₂, hfs⟩ := allocateScratch_ok hs
      have hvs : g₂.vars = g₁.vars := by
        rw [allocateScratch_run, if_neg (by omega)] at hs
        cases hs
        rfl
      have B := h₂ hb
      have hfloor := B.floor
      have hfloor₁ := A.floor
      refine ⟨B.vars.trans (hvs.trans A.vars), B.next.trans (hn₂.trans A.next), by omega,
        fun sc V σ m o hB hV hV' hF hA hpc hC hend => ?_⟩
      simp only [codeAt_append, codeAt_storeA_cons, codeAt_loadFrom_cons, codeAt_nil,
        and_true, codeSize_append, codeSize_cons, size_storeA, codeSize_nil, Nat.add_zero,
        ← Nat.add_assoc] at hC
      simp only [codeSize_append, codeSize_cons, size_storeA, size_loadFrom, codeSize_nil] at hend ⊢
      obtain ⟨⟨⟨hCa, hstore⟩, hCb⟩, hload⟩ := hC
      -- the spill byte lies above every cell and below the floor the first operand started from
      have hsNat : ((g₁.scratchFloor - 1).toUInt8).toNat = g₁.scratchFloor - 1 :=
        toNat_toUInt8_of_lt (by omega)
      obtain ⟨v₁, σ₁, m₁, hev₁, q₁, ha₁, -⟩ := A.run hB hV (by omega) hF hA hpc hCa (by omega)
      obtain ⟨m₂, q₂, ha₂, -, hr₂⟩ := quiet_storeA_spill (F := g.scratchFloor) q₁.agrees q₁.pc
        (by omega) (by omega) hstore (by omega)
      obtain ⟨v₂, σ₂, m₃, hev₂, q₃, ha₃, -⟩ := B.run (hB.congr (hvs.trans A.vars)
        (hn₂.trans A.next)) (by omega) hV' (by omega) q₂.agrees q₂.pc hCb (by omega)
      obtain ⟨m₄, q₄, ha₄, hb₄⟩ := quiet_loadFrom_b (F := g.scratchFloor) q₃.agrees q₃.pc
        hload (by omega)
      refine ⟨v₁, σ₁, v₂, σ₂, m₄, hev₁, hev₂,
        (((q₁.trans q₂).trans (q₃.mono (by omega))).trans q₄).to (by omega),
        by rw [ha₄, ha₃], ?_⟩
      -- the spill byte survives the second operand's code
      rw [hb₄, q₃.frame _ (by omega), hr₂, ha₁]

section Operators

variable {op : BinOp} {left right e₁ e₂ : Expr} {g g₁ g' : Gen} {ops : List Line}

/-- An arithmetic operator's code: its operands, then the ALU operation it lowers to, which takes
the second operand from A and the first from B. -/
theorem alu_evaluates {alu : AluOp} (hlow : lowering op = .inl alu)
    (hO : CodeOperands rom pos g g' ops e₁ e₂)
    (heval : ∀ sc σ, (Expr.binary op left right).eval sc σ =
      (e₁.eval sc σ).bind fun p => (e₂.eval sc p.2).map fun q => (op.apply q.1 p.1, q.2)) :
    CodeEvaluates rom pos g g' (ops ++ [.plain (.alu alu)]) (.binary op left right) := by
  refine ⟨hO.vars, hO.next, hO.floor, fun sc V σ m o hB hV hV' hF hA hpc hC hend => ?_⟩
  simp only [codeAt_append, codeAt_plain_cons, codeAt_nil, and_true] at hC
  simp only [codeSize_append, codeSize_cons, size_plain, codeSize_nil] at hend ⊢
  obtain ⟨v₁, σ₁, v₂, σ₂, m₁, hev₁, hev₂, q₁, ha₁, hb₁⟩ :=
    hO.run hB hV hV' hF hA hpc hC.1 (by omega)
  have q₂ := quiet_alu (F := g.scratchFloor) q₁.agrees q₁.pc (lowering_modes hlow)
    (lowering_destination hlow) hC.2
    (by omega)
  refine ⟨op.apply v₂ v₁, σ₂, _, by rw [heval, hev₁]; simp [hev₂], (q₁.trans q₂).to (by omega),
    ?_, fun h => absurd h Bool.false_ne_true⟩
  rw [execAlu_lowering hlow (by simp [q₁.agrees.modes])]
  simp [ha₁, hb₁]

/-- A comparison's code: its operands, then `cmp a b` and a select on the condition it lowers
to. -/
theorem compare_evaluates {c : Condition} {cmp : List Line} (hlow : lowering op = .inr c)
    (hO : CodeOperands rom pos g g₁ ops e₁ e₂) (hcmp : compareCode c g₁ = .ok (cmp, g'))
    (heval : ∀ sc σ, (Expr.binary op left right).eval sc σ =
      (e₁.eval sc σ).bind fun p => (e₂.eval sc p.2).map fun q => (op.apply q.1 p.1, q.2)) :
    CodeEvaluates rom pos g g' (ops ++ cmp) (.binary op left right) := by
  simp only [compareCode] at hcmp
  obtain ⟨skip, g₂, hskip, hcmp⟩ := run_bind_eq_ok.1 hcmp
  obtain ⟨rfl, rfl⟩ := run_pure_eq_ok.1 hcmp
  obtain ⟨hv₂, hn₂, hf₂⟩ := freshLabel_keeps hskip
  refine ⟨hv₂.trans hO.vars, hn₂.trans hO.next, hf₂ ▸ hO.floor,
    fun sc V σ m o hB hV hV' hF hA hpc hC hend => ?_⟩
  rw [codeAt_append] at hC
  simp only [codeSize_append, codeSize_cons, size_plain, size_loadConst, size_jumpTo, size_label,
    codeSize_nil] at hend ⊢
  obtain ⟨v₁, σ₁, v₂, σ₂, m₁, hev₁, hev₂, q₁, ha₁, hb₁⟩ :=
    hO.run hB hV (hf₂ ▸ hV') hF hA hpc hC.1 (by omega)
  obtain ⟨m₂, q₂, ha₂⟩ := quiet_compareSelect q₁.agrees q₁.pc hC.2 (by omega)
  refine ⟨op.apply v₂ v₁, σ₂, m₂, by rw [heval, hev₁]; simp [hev₂], (q₁.trans q₂).to (by omega),
    ?_, fun h => absurd h Bool.false_ne_true⟩
  rw [ha₂, ha₁, hb₁, select_lowering hlow]

/-- An operator's code: its operands, then the ALU operation or the comparison it lowers to. -/
theorem lowered_evaluates {code : List Line} (hO : CodeOperands rom pos g g₁ ops e₁ e₂)
    (heval : ∀ sc σ, (Expr.binary op left right).eval sc σ =
      (e₁.eval sc σ).bind fun p => (e₂.eval sc p.2).map fun q => (op.apply q.1 p.1, q.2))
    (h : (match lowering op with
      | .inl alu => pure (ops ++ [.plain (.alu alu)])
      | .inr skipOn => do
        let c ← compareCode skipOn
        pure (ops ++ c) : GenM (List Line)) g₁ = .ok (code, g')) :
    CodeEvaluates rom pos g g' code (.binary op left right) := by
  cases hlow : lowering op with
  | inl alu =>
      rw [hlow] at h
      obtain ⟨rfl, rfl⟩ := run_pure_eq_ok.1 h
      exact alu_evaluates hlow hO heval
  | inr c =>
      rw [hlow] at h
      obtain ⟨cmp, g₂, hcmp, h⟩ := run_bind_eq_ok.1 h
      obtain ⟨rfl, rfl⟩ := run_pure_eq_ok.1 h
      exact compare_evaluates hlow hO hcmp heval

end Operators

/-- A short-circuit operator's code: the left operand, then a jump past the right operand's code
on the condition under which the left operand decides. -/
theorem logical_evaluates {op : LogicOp} {left right : Expr} {c : Condition} {done : String}
    {g g₁ g₂ g' : Gen} {l r : List Line}
    (hc : ∀ v : UInt8, c.holds (Flags.ofResult false (v.toNat : Int)) = op.decides v)
    (hdone : freshLabel g = .ok (done, g₁)) (hl : CodeEvaluates rom pos g₁ g₂ l left)
    (hr : CodeEvaluates rom pos g₂ g' r right) :
    CodeEvaluates rom pos g g' (l ++ [testA, jumpTo c done] ++ r ++ [.label done])
      (.logical op left right) := by
  obtain ⟨hv₁, hn₁, hf₁⟩ := freshLabel_keeps hdone
  have hfl := hl.floor
  have hfr := hr.floor
  refine ⟨hr.vars.trans (hl.vars.trans hv₁), hr.next.trans (hl.next.trans hn₁), by omega,
    fun sc V σ m o hB hV hV' hF hA hpc hC hend => ?_⟩
  simp only [codeAt_append, codeAt_testA_cons, codeAt_jumpTo_cons, codeAt_label_cons,
    codeAt_nil, and_true, codeSize_append, codeSize_cons, size_testA, size_jumpTo,
    codeSize_nil, Nat.add_zero, ← Nat.add_assoc] at hC
  simp only [codeSize_append, codeSize_cons, size_testA, size_jumpTo, size_label,
    codeSize_nil] at hend ⊢
  obtain ⟨⟨⟨hCl, htest, hjump⟩, hCr⟩, hdoneAt⟩ := hC
  obtain ⟨v, σ₁, m₁, hev, q₁, ha₁, -⟩ :=
    hl.run (hB.congr hv₁ hn₁) hV (by omega) (by omega) hA hpc hCl (by omega)
  rw [hf₁] at q₁
  obtain ⟨m₂, q₂, ha₂, -, hf₂⟩ := quiet_testA (F := g.scratchFloor) q₁.agrees q₁.pc htest
    (by omega)
  obtain ⟨m₃, q₃, ha₃, -, -⟩ := quiet_jump q₂.agrees q₂.pc hjump hdoneAt (by omega)
  rw [hf₂, ha₁, hc] at q₃
  by_cases hdec : op.decides v
  · -- the left operand's value stands
    rw [if_pos hdec] at q₃
    exact ⟨v, σ₁, m₃, by simp [Expr.eval, hev, hdec], ((q₁.trans q₂).trans q₃).to (by omega),
      by rw [ha₃, ha₂, ha₁], fun h => absurd h Bool.false_ne_true⟩
  · rw [if_neg hdec] at q₃
    obtain ⟨w, σ₂, m₄, hev₂, q₄, ha₄, -⟩ := hr.run (hB.congr (hl.vars.trans hv₁)
      (hl.next.trans hn₁)) hV hV' (by omega) q₃.agrees q₃.pc hCr (by omega)
    exact ⟨w, σ₂, m₄, by simp [Expr.eval, hev, hdec, hev₂],
      (((q₁.trans q₂).trans q₃).trans (q₄.mono (by omega))).to (by omega), ha₄,
      fun h => absurd h Bool.false_ne_true⟩

theorem evaluates_throw {e : Expr} {err : CodegenError} : Evaluates rom pos (throw err) e :=
  fun _ _ _ h => absurd h run_throw

/-- A constant's code loads it. -/
theorem evaluates_loadConst {e : Expr} {v : UInt8} (hv : ∀ sc σ, e.eval sc σ = some (v, σ)) :
    Evaluates rom pos (pure [loadConst v]) e := by
  intro g g' code h
  obtain ⟨rfl, rfl⟩ := run_pure_eq_ok.1 h
  refine ⟨rfl, rfl, le_rfl, fun sc V σ m o _ _ _ _ hA hpc hC hend => ?_⟩
  simp only [codeAt_loadConst_cons, codeAt_nil, and_true] at hC
  obtain ⟨m', q, ha, hb, hf⟩ := quiet_loadConst hA hpc hC (by simpa using hend)
  exact ⟨v, σ, m', hv sc σ, q.to (by simp), ha, fun _ => ⟨hb, hf⟩⟩

/-- The code of every expression evaluates it. -/
theorem exprCode_evaluates (e : Expr) : Evaluates rom pos (exprCode e) e := by
  induction e using exprCode.induct with
  | case1 text v hv =>
      simp only [exprCode, hv]
      exact evaluates_loadConst fun sc σ => by simp [Expr.eval, hv]
  | case2 text hv =>
      simp only [exprCode, hv]
      exact evaluates_throw
  | case3 b => exact evaluates_loadConst fun sc σ => rfl
  | case4 => exact evaluates_throw
  | case5 => exact evaluates_throw
  | case6 =>
      intro g g' code h
      obtain ⟨rfl, rfl⟩ := run_pure_eq_ok.1 h
      refine ⟨rfl, rfl, le_rfl, fun sc V σ m o _ _ _ _ hA hpc hC hend => ?_⟩
      simp only [codeAt_plain_cons, codeAt_nil, and_true] at hC
      obtain ⟨m', q, ha, hb, hf⟩ := quiet_input hA hpc hC (by simpa using hend)
      exact ⟨_, _, m', rfl, q.to (by simp), ha, fun _ => ⟨hb, hf⟩⟩
  | case7 e ih =>
      intro g g' code h
      have E := ih h
      refine ⟨E.vars, E.next, E.floor, fun sc V σ m o hB hV hV' hF hA hpc hC hend => ?_⟩
      obtain ⟨v, σ', m', hev, q, ha, hb⟩ := E.run hB hV hV' hF hA hpc hC hend
      exact ⟨v, σ', m', hev, q, ha, hb⟩
  | case8 name =>
      intro g g' code h
      obtain ⟨addr, g₁, haddr, h⟩ := run_bind_eq_ok.1 h
      obtain ⟨rfl, rfl⟩ := run_pure_eq_ok.1 h
      obtain rfl := addressOf_labels haddr
      refine ⟨rfl, rfl, le_rfl, fun sc V σ m o hB hV _ _ hA hpc hC hend => ?_⟩
      obtain ⟨k, hk, rfl⟩ := addressOf_cell haddr hB
      simp only [codeAt_loadFrom_cons, codeAt_nil, and_true] at hC
      obtain ⟨m', q, ha, hb, hf⟩ := quiet_loadFrom_a hA hpc hC (by simpa using hend)
      refine ⟨σ.cells k, σ, m', by simp [Expr.eval, hk], q.to (by simp), ?_, fun _ => ⟨hb, hf⟩⟩
      rw [ha, hA.cells k ((Scope.cellOf_lt hk).trans_le hV)]
  | case9 name value ih =>
      intro g g' code h
      obtain ⟨addr, g₁, haddr, h⟩ := run_bind_eq_ok.1 h
      obtain ⟨c, g₂, hc, h⟩ := run_bind_eq_ok.1 h
      obtain ⟨rfl, rfl⟩ := run_pure_eq_ok.1 h
      obtain rfl := addressOf_labels haddr
      have E := ih hc
      refine ⟨E.vars, E.next, E.floor, fun sc V σ m o hB hV hV' hF hA hpc hC hend => ?_⟩
      obtain ⟨k, hk, rfl⟩ := addressOf_cell haddr hB
      simp only [codeAt_append, codeAt_storeA_cons, codeAt_nil, and_true] at hC
      simp only [codeSize_append, codeSize_cons, size_storeA, codeSize_nil] at hend ⊢
      obtain ⟨v, σ₁, m₁, hev, q₁, ha₁, -⟩ := E.run hB hV hV' hF hA hpc hC.1 (by omega)
      obtain ⟨m₂, q₂, ha₂⟩ := quiet_storeA_cell q₁.agrees q₁.pc
        ((Scope.cellOf_lt hk).trans_le hV) (hV'.trans E.floor) hF hC.2 (by omega)
      rw [ha₁] at q₂ ha₂
      exact ⟨v, σ₁.set k v, m₂, by simp [Expr.eval, hk, hev], (q₁.trans q₂).to (by omega), ha₂,
        fun h => absurd h Bool.false_ne_true⟩
  | case10 op operand ih =>
      intro g g' code h
      obtain ⟨c, g₁, hc, h⟩ := run_bind_eq_ok.1 h
      have E := ih hc
      cases op with
      | neg =>
          obtain ⟨rfl, rfl⟩ := run_pure_eq_ok.1 h
          refine ⟨E.vars, E.next, E.floor, fun sc V σ m o hB hV hV' hF hA hpc hC hend => ?_⟩
          simp only [codeAt_append, codeAt_plain_cons, codeAt_nil, and_true] at hC
          simp only [codeSize_append, codeSize_cons, size_plain, codeSize_nil] at hend ⊢
          obtain ⟨v, σ₁, m₁, hev, q₁, ha₁, -⟩ := E.run hB hV hV' hF hA hpc hC.1 (by omega)
          have q₂ := quiet_alu (F := g.scratchFloor) q₁.agrees q₁.pc (fun _ => by simp) rfl hC.2
            (by omega)
          exact ⟨-v, σ₁, _, by simp [Expr.eval, hev, UnaryOp.apply], (q₁.trans q₂).to (by omega),
            by rw [execAlu_negate, ← ha₁], fun h => absurd h Bool.false_ne_true⟩
      | bitNot =>
          obtain ⟨rfl, rfl⟩ := run_pure_eq_ok.1 h
          refine ⟨E.vars, E.next, E.floor, fun sc V σ m o hB hV hV' hF hA hpc hC hend => ?_⟩
          simp only [codeAt_append, codeAt_plain_cons, codeAt_nil, and_true] at hC
          simp only [codeSize_append, codeSize_cons, size_plain, codeSize_nil] at hend ⊢
          obtain ⟨v, σ₁, m₁, hev, q₁, ha₁, -⟩ := E.run hB hV hV' hF hA hpc hC.1 (by omega)
          have q₂ := quiet_alu (F := g.scratchFloor) q₁.agrees q₁.pc (fun _ => by simp) rfl hC.2
            (by omega)
          exact ⟨~~~v, σ₁, _, by simp [Expr.eval, hev, UnaryOp.apply],
            (q₁.trans q₂).to (by omega), by rw [execAlu_complement, ← ha₁], fun h => absurd h Bool.false_ne_true⟩
      | not =>
          obtain ⟨skip, g₂, hskip, h⟩ := run_bind_eq_ok.1 h
          obtain ⟨rfl, rfl⟩ := run_pure_eq_ok.1 h
          obtain ⟨hv₂, hn₂, hf₂⟩ := freshLabel_keeps hskip
          refine ⟨hv₂.trans E.vars, hn₂.trans E.next, hf₂ ▸ E.floor,
            fun sc V σ m o hB hV hV' hF hA hpc hC hend => ?_⟩
          rw [codeAt_append] at hC
          simp only [codeSize_append, codeSize_cons, size_testA, size_loadConst, size_jumpTo,
            size_label, codeSize_nil] at hend ⊢
          obtain ⟨v, σ₁, m₁, hev, q₁, ha₁, -⟩ := E.run hB hV (hf₂ ▸ hV') hF hA hpc hC.1 (by omega)
          obtain ⟨m₂, q₂, ha₂⟩ := quiet_notSelect q₁.agrees q₁.pc hC.2 (by omega)
          exact ⟨UnaryOp.not.apply v, σ₁, m₂, by simp [Expr.eval, hev],
            (q₁.trans q₂).to (by omega), by rw [ha₂, ha₁], fun h => absurd h Bool.false_ne_true⟩
  | case11 op left right ihl ihr =>
      intro g g' code h
      obtain ⟨done, g₁, hdone, h⟩ := run_bind_eq_ok.1 h
      obtain ⟨l, g₂, hl, h⟩ := run_bind_eq_ok.1 h
      obtain ⟨r, g₃, hr, h⟩ := run_bind_eq_ok.1 h
      obtain ⟨rfl, rfl⟩ := run_pure_eq_ok.1 h
      -- `&&` jumps past the right operand when the left one is zero, `||` when it is not
      cases op <;> refine logical_evaluates ?_ hdone (ihl hl) (ihr hr) <;> intro v <;>
        simp [holds_testA, LogicOp.decides]
  | case12 op left right hord ih₁ ih₂ =>
      -- an ordered operator computes its right operand first, so the left one ends in A
      have heval : ∀ sc σ, (Expr.binary op left right).eval sc σ =
          (right.eval sc σ).bind fun p => (left.eval sc p.2).map fun q => (op.apply q.1 p.1, q.2) := by
        intro sc σ
        simp only [Expr.eval, hord, ↓reduceIte]
      intro g g' code h
      simp only [exprCode, hord, ↓reduceIte] at h
      obtain ⟨ops, g₁, hops, h⟩ := run_bind_eq_ok.1 h
      exact lowered_evaluates (operandsCode_evaluates ih₁ ih₂ hops) heval h
  | case13 op left right hord ih₁ ih₂ =>
      -- the other operators commute, so the order of the operands does not matter
      have heval : ∀ sc σ, (Expr.binary op left right).eval sc σ =
          (left.eval sc σ).bind fun p => (right.eval sc p.2).map fun q => (op.apply q.1 p.1, q.2) := by
        intro sc σ
        simp only [Expr.eval, hord, Bool.false_eq_true, ↓reduceIte]
        have hc : op.isOrdered = false := by simpa using hord
        congr 1
        funext p
        congr 1
        funext q
        rw [BinOp.apply_comm hc]
      intro g g' code h
      simp only [exprCode, hord, Bool.false_eq_true, ↓reduceIte] at h
      obtain ⟨ops, g₁, hops, h⟩ := run_bind_eq_ok.1 h
      exact lowered_evaluates (operandsCode_evaluates ih₁ ih₂ hops) heval h

end Evaluates

end ByteMachine.Compiler

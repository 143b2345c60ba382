import ByteMachine.Machine.Alu
import ByteMachine.Isa.Table
/-!
# One step of the machine

A step fetches the opcode at the program counter, then any operand bytes after it, and executes
the operation. Fetching wraps the program counter from 0xFFFF to 0. An unassigned opcode does
nothing; HALT stops the machine with the program counter already past it.
-/

namespace ByteMachine

/-- What one step leaves: the machine, the value written to the output port if any, and whether
the machine is still running. -/
structure Stepped where
  machine : Machine
  output : Option Int := none
  running : Bool := true

namespace Machine

/-- Reads the ROM byte at the program counter and advances the counter. -/
def fetch (m : Machine) : UInt8 × Machine :=
  (m.romAt m.pc, { m with pc := m.pc + 1 })

/-- A register's contents as the output port reports them: in two's complement in signed mode. -/
def signedValue (m : Machine) (r : Register) : Int :=
  if m.modes.signed then signedByte (m.reg r) else m.value r

/-- Reads the next byte of the input port; an empty port gives zero. -/
def takeInput (m : Machine) : UInt8 × Machine :=
  match m.input with
  | [] => (0, m)
  | v :: rest => (v, { m with input := rest })

/-- Executes an operation whose opcode has been fetched. -/
def exec (m : Machine) : Op → Stepped
  | .nop => ⟨m, none, true⟩
  | .halt => ⟨m, none, false⟩
  | .move x y => ⟨m.setReg y (m.reg x), none, true⟩
  | .compare r rhs =>
    let k := match rhs with
      | .constant k => k
      | .register s => m.value s
    ⟨{ m with flags := Flags.ofResult m.modes.signed (m.value r - k) }, none, true⟩
  | .jump c =>
    let (hi, m) := m.fetch
    let (lo, m) := m.fetch
    if c.holds m.flags then ⟨{ m with pc := hi.toUInt16 * 256 + lo.toUInt16 }, none, true⟩
    else ⟨m, none, true⟩
  | .jumpRelative c =>
    let (off, m) := m.fetch
    if c.holds m.flags then
      ⟨{ m with pc := ((m.pc.toNat + signedByte off) % 256).toNat.toUInt16 }, none, true⟩
    else ⟨m, none, true⟩
  | .alu op => ⟨m.execAlu op, none, true⟩
  | .loadIndirect x t =>
    -- the page register picks a bank of 256 bytes, and the mask to the one bank drops it again
    let paged := (m.reg x).toNat + (m.page.toNat <<< 8)
    ⟨m.setReg t (m.read (paged &&& 0xFF).toUInt8), none, true⟩
  | .loadImmediate t =>
    let (v, m) := m.fetch
    ⟨m.setReg t v, none, true⟩
  | .loadDirect t =>
    let (addr, m) := m.fetch
    ⟨m.setReg t (m.read addr), none, true⟩
  | .setPage r => ⟨{ m with page := m.reg r }, none, true⟩
  | .saveMar r => ⟨{ m with mar := m.reg r }, none, true⟩
  | .saveCurrent r => ⟨m.write m.mar (m.reg r), none, true⟩
  | .saveIndirect s x => ⟨m.write (m.reg x) (m.reg s), none, true⟩
  | .saveDirect r =>
    let (addr, m) := m.fetch
    ⟨m.write addr (m.reg r), none, true⟩
  | .input t =>
    let (v, m) := m.takeInput
    ⟨m.setReg t v, none, true⟩
  | .output r => ⟨m, some (m.signedValue r), true⟩
  | .outputImmediate =>
    let (v, m) := m.fetch
    ⟨m, some v.toNat, true⟩
  | .outputDirect =>
    let (addr, m) := m.fetch
    ⟨m, some (m.read addr).toNat, true⟩
  | .outputIndirect r => ⟨m, some (m.read (m.reg r)).toNat, true⟩

/-- One step: fetch an opcode and execute it; an unassigned opcode does nothing. -/
def step (m : Machine) : Stepped :=
  let (opcode, m) := m.fetch
  match opAt opcode with
  | some op => m.exec op
  | none => ⟨m, none, true⟩

end Machine

end ByteMachine

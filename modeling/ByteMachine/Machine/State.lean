import ByteMachine.Isa.Basic
/-!
# Machine state

The machine holds four byte registers, a 256-byte RAM, a 64 KiB ROM with the program, a page
register, a memory address register (MAR), a 16-bit program counter, four flags, two ALU modes,
and the bytes still waiting at its input port. Reading an empty input port gives zero.
-/

namespace ByteMachine

/-- The number of RAM bytes. -/
abbrev ramSize : Nat := 256

/-- The number of ROM bytes. -/
abbrev romSize : Nat := 65536

/-- The flags set by comparisons and ALU operations. -/
structure Flags where
  zero : Bool := false
  carry : Bool := false
  sign : Bool := false
  overflow : Bool := false
  deriving DecidableEq, Repr

/-- The ALU modes: additions take the carry flag in, and results are read as signed. -/
structure Modes where
  carryChain : Bool := false
  signed : Bool := false
  deriving DecidableEq, Repr

/-- The whole state of the machine. -/
structure Machine where
  a : UInt8 := 0
  b : UInt8 := 0
  c : UInt8 := 0
  d : UInt8 := 0
  ram : Vector UInt8 ramSize := Vector.replicate ramSize 0
  rom : Vector UInt8 romSize := Vector.replicate romSize 0
  page : UInt8 := 0
  mar : UInt8 := 0
  pc : UInt16 := 0
  flags : Flags := {}
  modes : Modes := {}
  /-- The bytes that the next reads of the input port receive, in order. -/
  input : List UInt8 := []

namespace Machine

/-- The contents of a register. -/
def reg (m : Machine) : Register → UInt8
  | .a => m.a
  | .b => m.b
  | .c => m.c
  | .d => m.d

/-- Writes a register. -/
def setReg (m : Machine) (r : Register) (v : UInt8) : Machine :=
  match r with
  | .a => { m with a := v }
  | .b => { m with b := v }
  | .c => { m with c := v }
  | .d => { m with d := v }

/-- The RAM byte at an address. -/
def read (m : Machine) (addr : UInt8) : UInt8 :=
  m.ram.get ⟨addr.toNat, addr.toNat_lt⟩

/-- Writes the RAM byte at an address. -/
def write (m : Machine) (addr : UInt8) (v : UInt8) : Machine :=
  { m with ram := m.ram.set addr.toNat v addr.toNat_lt }

/-- The ROM byte at an address. -/
def romAt (m : Machine) (addr : UInt16) : UInt8 :=
  m.rom.get ⟨addr.toNat, addr.toNat_lt⟩

/-- A ROM holding a program from address 0: bytes past the ROM's end are dropped and the
rest of the ROM is zero. -/
def romOf (program : List UInt8) : Vector UInt8 romSize :=
  let bytes := program.toArray
  Vector.ofFn fun i => bytes.getD i.val 0

/-- Puts a program into ROM and rewinds the program counter; all else is kept. -/
def load (m : Machine) (program : List UInt8) : Machine :=
  { m with rom := romOf program, pc := 0 }

/-- Zeroes registers, RAM, page, MAR, program counter, flags and modes, keeping the ROM and the
input port. -/
def reset (m : Machine) : Machine :=
  { rom := m.rom, input := m.input }

/-- Replaces the bytes waiting at the input port. -/
def setInput (m : Machine) (values : List UInt8) : Machine :=
  { m with input := values }

/-- The RAM bytes that are not zero, with their addresses, in ascending order. -/
def ramInUse (m : Machine) : List (Nat × UInt8) :=
  (List.range ramSize).filterMap fun i =>
    let v := m.ram.toArray.getD i 0
    if v = 0 then none else some (i, v)

end Machine

end ByteMachine

import ByteMachine.Isa.Basic
/-!
# The instruction table

Each family of operations occupies a run of consecutive opcode bytes from its base byte, in the
order its list gives. Bytes outside every run are unassigned; the machine executes them as
no-operations and a listing writes them as raw bytes.
-/

namespace ByteMachine

/-- An assigned opcode byte and its operation. -/
structure Instruction where
  opcode : UInt8
  op : Op
  deriving DecidableEq, Repr

namespace Isa

open Register in
/-- The ALU operations in encoding order. -/
def aluOps : List AluOp :=
  ([.clear, .carryOff, .carryOn, .signOff, .signOn, .constant 0, .constant 1, .constant (-1)] :
      List AluOp) ++
    all.map .copy ++ all.map .complement ++ all.map .negate ++ all.map .increment ++
    all.map .decrement ++
    distinctPairs.map (fun (x, y) => AluOp.binary .add x y) ++
    distinctPairs.map (fun (x, y) => AluOp.binary .sub x y) ++
    allPairs.map (fun (x, y) => AluOp.binary .mul x y) ++
    allPairs.map (fun (x, y) => AluOp.binary .mulHigh x y) ++
    distinctPairs.map (fun (x, y) => AluOp.binary .div x y) ++
    risingPairs.map (fun (x, y) => AluOp.binary .bitAnd x y) ++
    risingPairs.map (fun (x, y) => AluOp.binary .bitOr x y)

open Register in
/-- The families of operations with the byte at which each family starts. -/
def families : List (Nat × List Op) :=
  [ (0x00, [.nop]),
    (0x01, distinctPairs.map fun (x, y) => Op.move x y),
    (0x10, [0, 1, -1, 255].flatMap fun k => all.map fun r => Op.compare r (.constant k)),
    (0x20, allPairs.map fun (r, s) => Op.compare r (.register s)),
    (0x30, Condition.all.map .jump),
    (0x40, Condition.all.map .jumpRelative),
    (0x50, aluOps.map .alu),
    (0xC0, allPairs.map (fun (x, t) => Op.loadIndirect x t) ++ all.map .loadImmediate ++
        all.map .loadDirect ++ all.map .setPage),
    (0xE0, all.map .saveMar ++ all.map .saveCurrent ++
        ([.saveIndirect .a .a, .saveIndirect .b .c, .saveIndirect .c .d, .saveIndirect .d .d] :
          List Op) ++
        all.map .saveDirect),
    (0xF0, all.map .input ++ all.map .output ++ ([.outputImmediate, .outputDirect] : List Op) ++
        all.map .outputIndirect),
    (0xFF, [.halt]) ]

/-- Every assigned byte with its operation, in ascending byte order. -/
def table : List Instruction :=
  families.flatMap fun (base, ops) => ops.zipIdx.map fun (op, i) => ⟨(base + i).toUInt8, op⟩

/-- Every assigned byte with its pattern text, in ascending byte order. -/
def patterns : List (String × Instruction) :=
  table.map fun i => (i.op.pattern, i)

end Isa

/-- The operation assigned to a byte, if any. -/
def decode (byte : UInt8) : Option Op :=
  (Isa.table.find? (·.opcode == byte)).map (·.op)

/-- The operations of all 256 bytes, indexed by byte. -/
def decodeArray : Array (Option Op) := Array.ofFn fun (i : Fin 256) => decode i.val.toUInt8

/-- Decoding by one read of `decodeArray`; it agrees with `decode` (`opAt_eq_decode`). -/
def opAt (byte : UInt8) : Option Op :=
  if h : byte.toNat < decodeArray.size then decodeArray[byte.toNat] else none

theorem opAt_eq_decode (byte : UInt8) : opAt byte = decode byte := by
  have h : byte.toNat < decodeArray.size := by
    simpa [decodeArray] using byte.toNat_lt
  rw [opAt, dif_pos h]
  simp [decodeArray]

/-- The byte whose pattern is exactly the given text. -/
def opcodeOf (pattern : String) : Option UInt8 :=
  (Isa.patterns.find? (·.1 == pattern)).map (·.2.opcode)

example : Isa.table.length = 242 := by decide +kernel
example : decode 0xE9 = some (.saveIndirect .b .c) ∧ decode 0xBB = some (.alu (.binary .bitOr .c .d))
    ∧ decode 0xFD = some (.outputIndirect .d) ∧ decode 0xFE = none := by decide +kernel

end ByteMachine

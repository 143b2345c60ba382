import ByteMachine.Machine.State
/-!
# Flags, conditions and the ALU

Comparisons and ALU operations compute an unmasked integer result. The flags are read from it:
zero when it is zero, carry when it lies outside 0..255, sign when bit 7 of its two's complement
is set, and overflow, in signed mode only, when it lies outside -128..127. The destination
register receives the result's low byte.
-/

namespace ByteMachine

/-- The flags that a result sets. -/
def Flags.ofResult (signed : Bool) (r : Int) : Flags where
  zero := r == 0
  carry := !(0 ≤ r && r ≤ 255)
  sign := 128 ≤ r % 256
  overflow := signed && !(-128 ≤ r && r ≤ 127)

/-- A byte read in two's complement: bytes from 128 up stand for their value less 256. -/
def signedByte (x : UInt8) : Int := if x < 128 then x.toNat else (x.toNat : Int) - 256

/-- The low byte of a result, read in two's complement. -/
def lowByte (r : Int) : UInt8 := (r % 256).toNat.toUInt8

/-- Whether a branch condition holds under the flags. Signed comparisons read "less" as the sign
flag differing from the overflow flag. -/
def Condition.holds (f : Flags) : Condition → Bool
  | .always => true
  | .equal | .zero => f.zero
  | .notEqual => !f.zero
  | .less | .carry => f.carry
  | .lessEqual => f.carry || f.zero
  | .greater => !f.carry && !f.zero
  | .greaterEqual => !f.carry
  | .signedLess => f.sign != f.overflow
  | .signedLessEqual => f.sign != f.overflow || f.zero
  | .signedGreater => f.sign == f.overflow && !f.zero
  | .signedGreaterEqual => f.sign == f.overflow
  | .overflow => f.overflow
  | .sign => f.sign

namespace Machine

/-- A register's contents as an integer. -/
def value (m : Machine) (r : Register) : Int := (m.reg r).toNat

/-- The unmasked result of an ALU operation that computes a value. An addition takes the carry
flag in only in carry-chaining mode; a division by zero gives 256. The mode operations compute
nothing and give zero. -/
def aluValue (m : Machine) : AluOp → Int
  | .constant k => k
  | .copy r => m.value r
  | .complement r => -m.value r - 1
  | .negate r => -m.value r
  | .increment r => m.value r + 1
  | .decrement r => m.value r - 1
  | .binary .add x y =>
    m.value x + m.value y + (if m.modes.carryChain && m.flags.carry then 1 else 0)
  | .binary .sub x y => m.value x - m.value y
  | .binary .mul x y => m.value x * m.value y
  | .binary .mulHigh x y => m.value x * m.value y / 256
  | .binary .div x y => if m.reg y = 0 then 256 else m.value x / m.value y
  | .binary .bitAnd x y => (m.reg x &&& m.reg y).toNat
  | .binary .bitOr x y => (m.reg x ||| m.reg y).toNat
  | .clear | .carryOff | .carryOn | .signOff | .signOn => 0

/-- Sets the flags from a result and writes its low byte to a register. -/
def settle (m : Machine) (r : Register) (result : Int) : Machine :=
  ({ m with flags := Flags.ofResult m.modes.signed result }).setReg r (lowByte result)

/-- Executes an ALU operation. Clearing resets flags and modes; the mode operations set one mode;
zero divided by zero clears the flags and writes zero. -/
def execAlu (m : Machine) (op : AluOp) : Machine :=
  match op with
  | .clear => { m with flags := {}, modes := {} }
  | .carryOff => { m with modes := { m.modes with carryChain := false } }
  | .carryOn => { m with modes := { m.modes with carryChain := true } }
  | .signOff => { m with modes := { m.modes with signed := false } }
  | .signOn => { m with modes := { m.modes with signed := true } }
  | .binary .div x y =>
    if m.reg x = 0 ∧ m.reg y = 0 then ({ m with flags := {} }).setReg x 0
    else m.settle op.destination (m.aluValue op)
  | _ => m.settle op.destination (m.aluValue op)

end Machine

end ByteMachine

import ByteMachine.Compiler.Generate
/-!
# Reference semantics of the source language

Every value is a byte. Each `var` owns one cell, and a name denotes the cell of its latest `var`
in the order the program is read, with no scoping: a `var` in a branch or a loop body claims its
cell whether or not it runs, and later statements see it. All cells start at zero.

Operators that do not commute evaluate their right operand first. `&&` gives its left operand
when that is zero and its right operand otherwise; `||` gives its left operand when that is not
zero and its right operand otherwise. Arithmetic wraps around, a division by zero gives zero,
and comparisons read bytes as unsigned and give 0 or 1. `in` reads the next input byte, or zero
when none is left. A number literal denotes the byte its text stands for.

## Implementation notes

Each loop runs at most `fuel` rounds, so that every execution ends; a loop that needs more ends
the run as a timeout with the state it reached. Constructs without a meaning here (strings,
calls, functions, `return`, an unbound name, a literal that is no byte) are faults.
-/

namespace ByteMachine.Source

/-- Where names point: the cell of each name's latest declaration, the latest first, and the
number of cells declared so far. Every cell of a name lies below that number. -/
structure Scope where
  names : List (String × Nat) := []
  next : Nat := 0
  below : ∀ p ∈ names, p.2 < next := by simp

namespace Scope

/-- A new declaration of `name` claims the next cell. -/
def declare (sc : Scope) (name : String) : Scope where
  names := (name, sc.next) :: sc.names
  next := sc.next + 1
  below p hp := by
    rcases List.mem_cons.1 hp with rfl | hp
    · exact Nat.lt_succ_self _
    · exact Nat.lt_succ_of_lt (sc.below p hp)

/-- The cell a name denotes, if it is declared. -/
def cellOf (sc : Scope) (name : String) : Option Nat := sc.names.lookup name

@[simp] theorem declare_next (sc : Scope) (name : String) : (sc.declare name).next = sc.next + 1 :=
  rfl

@[simp] theorem declare_names (sc : Scope) (name : String) :
    (sc.declare name).names = (name, sc.next) :: sc.names := rfl

theorem cellOf_lt {sc : Scope} {name : String} {k : Nat} (h : sc.cellOf name = some k) :
    k < sc.next := by
  obtain ⟨l₁, l₂, heq, -⟩ := List.lookup_eq_some_iff.1 h
  exact sc.below (name, k) (by rw [heq]; simp)

end Scope

/-- The cells, the input bytes not read yet, and the bytes output so far. -/
structure State where
  cells : Nat → UInt8
  input : List UInt8
  output : List UInt8

namespace State

/-- The state at the start of a program: every cell is zero. -/
def init (input : List UInt8) : State := ⟨fun _ => 0, input, []⟩

/-- Writes a cell. -/
def set (σ : State) (k : Nat) (v : UInt8) : State :=
  { σ with cells := fun i => if i = k then v else σ.cells i }

/-- Outputs a byte. -/
def emit (σ : State) (v : UInt8) : State := { σ with output := σ.output ++ [v] }

/-- Reads the next input byte; an exhausted input gives zero. -/
def readInput (σ : State) : UInt8 × State :=
  match σ.input with
  | [] => (0, σ)
  | v :: rest => (v, { σ with input := rest })

/-- The outputs as integers. -/
def outputs (σ : State) : List Int := σ.output.map fun v => (v.toNat : Int)

@[simp] theorem set_cells (σ : State) (k : Nat) (v : UInt8) (i : Nat) :
    (σ.set k v).cells i = if i = k then v else σ.cells i := rfl

@[simp] theorem set_input (σ : State) (k : Nat) (v : UInt8) : (σ.set k v).input = σ.input := rfl

@[simp] theorem set_output (σ : State) (k : Nat) (v : UInt8) :
    (σ.set k v).output = σ.output := rfl

@[simp] theorem emit_cells (σ : State) (v : UInt8) : (σ.emit v).cells = σ.cells := rfl

@[simp] theorem emit_input (σ : State) (v : UInt8) : (σ.emit v).input = σ.input := rfl

@[simp] theorem emit_outputs (σ : State) (v : UInt8) :
    (σ.emit v).outputs = σ.outputs ++ [(v.toNat : Int)] := by
  simp [emit, outputs]

@[simp] theorem readInput_cells (σ : State) : σ.readInput.2.cells = σ.cells := by
  unfold readInput
  split <;> rfl

@[simp] theorem readInput_output (σ : State) : σ.readInput.2.output = σ.output := by
  unfold readInput
  split <;> rfl

theorem readInput_fst (σ : State) : σ.readInput.1 = σ.input.headD 0 := by
  unfold readInput
  split <;> simp_all

@[simp] theorem readInput_input (σ : State) : σ.readInput.2.input = σ.input.tail := by
  unfold readInput
  split <;> simp_all

end State

/-- The value of a binary operator on two bytes. -/
def BinOp.apply : BinOp → UInt8 → UInt8 → UInt8
  | .add, a, b => a + b
  | .sub, a, b => a - b
  | .mul, a, b => a * b
  | .div, a, b => a / b
  | .bitAnd, a, b => a &&& b
  | .bitOr, a, b => a ||| b
  | .eq, a, b => if a = b then 1 else 0
  | .ne, a, b => if a = b then 0 else 1
  | .lt, a, b => if a < b then 1 else 0
  | .le, a, b => if a ≤ b then 1 else 0
  | .gt, a, b => if b < a then 1 else 0
  | .ge, a, b => if b ≤ a then 1 else 0

/-- A division by zero gives zero. -/
theorem BinOp.apply_div_zero (a : UInt8) : BinOp.div.apply a 0 = 0 :=
  UInt8.div_zero

/-- The operators computed left to right commute. -/
theorem BinOp.apply_comm {op : BinOp} (h : op.isOrdered = false) (a b : UInt8) :
    op.apply a b = op.apply b a := by
  cases op <;> simp only [BinOp.isOrdered, reduceCtorEq] at h <;> simp only [BinOp.apply]
  · exact UInt8.add_comm a b
  · exact UInt8.mul_comm a b
  · exact UInt8.and_comm a b
  · exact UInt8.or_comm a b

/-- The value of a prefix operator on a byte. -/
def UnaryOp.apply : UnaryOp → UInt8 → UInt8
  | .not, v => if v = 0 then 1 else 0
  | .neg, v => -v
  | .bitNot, v => ~~~v

/-- Whether the left operand alone decides a short-circuit operator. -/
def LogicOp.decides : LogicOp → UInt8 → Bool
  | .and, v => v = 0
  | .or, v => v ≠ 0

/-- The value of an expression and the state after it, in a scope. -/
def Expr.eval (sc : Scope) : Expr → State → Option (UInt8 × State)
  | .num text, σ => (Compiler.byteLiteral text).map fun v => (v, σ)
  | .bool b, σ => some (if b then 1 else 0, σ)
  | .str _, _ => none
  | .call .., _ => none
  | .input, σ => some σ.readInput
  | .grouping e, σ => e.eval sc σ
  | .var name, σ => (sc.cellOf name.lexeme).map fun k => (σ.cells k, σ)
  | .assign name value, σ =>
    (sc.cellOf name.lexeme).bind fun k =>
      (value.eval sc σ).map fun (v, σ') => (v, σ'.set k v)
  | .unary op e, σ => (e.eval sc σ).map fun (v, σ') => (op.apply v, σ')
  | .logical op l r, σ =>
    (l.eval sc σ).bind fun (v, σ') => if op.decides v then some (v, σ') else r.eval sc σ'
  | .binary op l r, σ =>
    if op.isOrdered then
      (r.eval sc σ).bind fun (b, σ₁) => (l.eval sc σ₁).map fun (a, σ₂) => (op.apply a b, σ₂)
    else
      (l.eval sc σ).bind fun (a, σ₁) => (r.eval sc σ₁).map fun (b, σ₂) => (op.apply a b, σ₂)

/-- Evaluating an expression outputs nothing. -/
theorem Expr.eval_output {sc : Scope} {e : Expr} {σ σ' : State} {v : UInt8}
    (h : e.eval sc σ = some (v, σ')) : σ'.output = σ.output := by
  fun_induction Expr.eval sc e σ generalizing σ' v with
  | case1 text σ | case7 name σ =>
      obtain ⟨_, -, hw⟩ := Option.map_eq_some_iff.1 h
      cases hw
      rfl
  | case2 b σ => cases h; rfl
  | case3 | case4 => cases h
  | case5 σ =>
      rw [Option.some.injEq] at h
      rw [← State.readInput_output σ, h]
  | case6 e σ ih => exact ih h
  | case8 name value σ ih =>
      obtain ⟨k, -, h⟩ := Option.bind_eq_some_iff.1 h
      obtain ⟨⟨w, σ₁⟩, h₁, hw⟩ := Option.map_eq_some_iff.1 h
      cases hw
      rw [State.set_output]
      exact ih h₁
  | case9 op e σ ih =>
      obtain ⟨⟨w, σ₁⟩, h₁, hw⟩ := Option.map_eq_some_iff.1 h
      cases hw
      exact ih h₁
  | case10 op l r σ ihl ihr =>
      obtain ⟨⟨w, σ₁⟩, h₁, h⟩ := Option.bind_eq_some_iff.1 h
      dsimp only at h
      split at h
      · cases h
        exact ihl h₁
      · exact (ihr σ₁ h).trans (ihl h₁)
  | case11 op l r σ _ ihr ihl =>
      -- the right operand first
      obtain ⟨⟨b, σ₁⟩, h₁, h⟩ := Option.bind_eq_some_iff.1 h
      obtain ⟨⟨a, σ₂⟩, h₂, hw⟩ := Option.map_eq_some_iff.1 h
      cases hw
      exact (ihl σ₁ h₂).trans (ihr h₁)
  | case12 op l r σ _ ihl ihr =>
      obtain ⟨⟨a, σ₁⟩, h₁, h⟩ := Option.bind_eq_some_iff.1 h
      obtain ⟨⟨b, σ₂⟩, h₂, hw⟩ := Option.map_eq_some_iff.1 h
      cases hw
      exact (ihr σ₁ h₂).trans (ihl h₁)

/-! ## Statements -/

/-- How an execution ends: with a state, out of fuel in a loop with the state reached, or at a
construct without a meaning. -/
inductive Outcome where
  | done (σ : State)
  | timeout (σ : State)
  | fault

/-- What one round of a loop leaves: the loop is over, it goes round again, or the body ended
the run. -/
inductive Round where
  | exit (σ : State)
  | again (σ : State)
  | stop (o : Outcome)

/-- Runs a loop for at most `fuel` rounds. -/
def runLoop (round : State → Round) : Nat → State → Outcome
  | 0, σ => .timeout σ
  | fuel + 1, σ =>
    match round σ with
    | .exit σ' => .done σ'
    | .again σ' => runLoop round fuel σ'
    | .stop o => o

/-- A loop's condition: an absent one is true. -/
def Expr.test (sc : Scope) : Option Expr → State → Option (UInt8 × State)
  | some c, σ => c.eval sc σ
  | none, σ => some (1, σ)

/-- A loop's step, evaluated for its effect; an absent one does nothing. -/
def Expr.effect (sc : Scope) : Option Expr → State → Option State
  | some e, σ => (e.eval sc σ).map Prod.snd
  | none, σ => some σ

theorem Expr.test_output {sc : Scope} {c : Option Expr} {σ σ' : State} {v : UInt8}
    (h : Expr.test sc c σ = some (v, σ')) : σ'.output = σ.output := by
  cases c with
  | some c => exact Expr.eval_output h
  | none =>
      cases h
      rfl

theorem Expr.effect_output {sc : Scope} {e : Option Expr} {σ σ' : State}
    (h : Expr.effect sc e σ = some σ') : σ'.output = σ.output := by
  cases e with
  | some e =>
      obtain ⟨⟨v, σ₁⟩, h₁, rfl⟩ := Option.map_eq_some_iff.1 h
      exact Expr.eval_output h₁
  | none =>
      cases h
      rfl

/-- One round of a loop: the condition in scope `sc`, then the body, then the step in the scope
`sc'` that the body leaves. -/
def loopRound (sc : Scope) (cond : Option Expr) (body : State → Outcome) (sc' : Scope)
    (step : Option Expr) (σ : State) : Round :=
  match Expr.test sc cond σ with
  | none => .stop .fault
  | some (v, σ₁) =>
    if v = 0 then .exit σ₁
    else
      match body σ₁ with
      | .done σ₂ =>
        match Expr.effect sc' step σ₂ with
        | some σ₃ => .again σ₃
        | none => .stop .fault
      | .timeout σ₂ => .stop (.timeout σ₂)
      | .fault => .stop .fault

mutual

/-- The scope after a statement: each `var` in it claims the next cell, in the order the
statement is read, whether or not it runs. -/
def Stmt.scopeAfter : Stmt → Scope → Scope
  | .expr _, sc => sc
  | .output _, sc => sc
  | .varDecl name _, sc => sc.declare name.lexeme
  | .block body, sc => Stmt.scopeAfterAll body sc
  | .ifElse _ th el, sc => Stmt.scopeAfterOpt el (th.scopeAfter sc)
  | .whileLoop _ body, sc => body.scopeAfter sc
  | .forLoop init _ _ body, sc => body.scopeAfter (Stmt.scopeAfterOpt init sc)
  | .funDecl .., sc => sc
  | .returnStmt .., sc => sc

/-- The scope after an optional statement. -/
def Stmt.scopeAfterOpt : Option Stmt → Scope → Scope
  | some s, sc => s.scopeAfter sc
  | none, sc => sc

/-- The scope after statements in order. -/
def Stmt.scopeAfterAll : List Stmt → Scope → Scope
  | [], sc => sc
  | s :: rest, sc => Stmt.scopeAfterAll rest (s.scopeAfter sc)

end

mutual

/-- Executes a statement in a scope, each loop for at most `fuel` rounds. -/
def Stmt.exec (fuel : Nat) : Stmt → Scope → State → Outcome
  | .expr e, sc, σ =>
    match e.eval sc σ with
    | some (_, σ') => .done σ'
    | none => .fault
  | .output e, sc, σ =>
    match e.eval sc σ with
    | some (v, σ') => .done (σ'.emit v)
    | none => .fault
  | .varDecl name init, sc, σ =>
    match init with
    | none => .done σ
    | some e =>
      match e.eval (sc.declare name.lexeme) σ with
      | some (v, σ') => .done (σ'.set sc.next v)
      | none => .fault
  | .block body, sc, σ => Stmt.execAll fuel body sc σ
  | .ifElse c th el, sc, σ =>
    match c.eval sc σ with
    | some (v, σ') =>
      if v = 0 then Stmt.execOpt fuel el (th.scopeAfter sc) σ' else th.exec fuel sc σ'
    | none => .fault
  | .whileLoop c body, sc, σ =>
    runLoop (loopRound sc (some c) (body.exec fuel sc) (body.scopeAfter sc) none) fuel σ
  | .forLoop init c step body, sc, σ =>
    match Stmt.execOpt fuel init sc σ with
    | .done σ' =>
      runLoop (loopRound (Stmt.scopeAfterOpt init sc) c
        (body.exec fuel (Stmt.scopeAfterOpt init sc))
        (body.scopeAfter (Stmt.scopeAfterOpt init sc)) step) fuel σ'
    | .timeout σ' => .timeout σ'
    | .fault => .fault
  | .funDecl .., _, _ => .fault
  | .returnStmt .., _, _ => .fault

/-- Executes an optional statement. -/
def Stmt.execOpt (fuel : Nat) : Option Stmt → Scope → State → Outcome
  | some s, sc, σ => s.exec fuel sc σ
  | none, _, σ => .done σ

/-- Executes statements in order, each in the scope the ones before it leave. -/
def Stmt.execAll (fuel : Nat) : List Stmt → Scope → State → Outcome
  | [], _, σ => .done σ
  | s :: rest, sc, σ =>
    match s.exec fuel sc σ with
    | .done σ' => Stmt.execAll fuel rest (s.scopeAfter sc) σ'
    | .timeout σ' => .timeout σ'
    | .fault => .fault

end

/-- Runs a program on an input, each loop for at most `fuel` rounds. -/
def runProgram (fuel : Nat) (program : List Stmt) (input : List UInt8) : Outcome :=
  Stmt.execAll fuel program {} (State.init input)

/-- Goes on with `f` from the state a finished execution leaves; a timeout or a fault ends the
execution there. -/
def Outcome.andThen : Outcome → (State → Outcome) → Outcome
  | .done σ, f => f σ
  | .timeout σ, _ => .timeout σ
  | .fault, _ => .fault

@[simp] theorem Outcome.andThen_done (o : Outcome) : o.andThen .done = o := by
  cases o <;> rfl

/-- Statements in order: the first, then the rest from where it ends. -/
theorem Stmt.execAll_cons (fuel : Nat) (s : Stmt) (rest : List Stmt) (sc : Scope) (σ : State) :
    Stmt.execAll fuel (s :: rest) sc σ =
      (s.exec fuel sc σ).andThen (Stmt.execAll fuel rest (s.scopeAfter sc)) := by
  simp only [Stmt.execAll]
  cases s.exec fuel sc σ <;> rfl

/-- A `for` loop: its initializer, then the loop from where the initializer ends. -/
theorem Stmt.exec_forLoop (fuel : Nat) (init : Option Stmt) (c step : Option Expr) (body : Stmt)
    (sc : Scope) (σ : State) :
    (Stmt.forLoop init c step body).exec fuel sc σ =
      (Stmt.execOpt fuel init sc σ).andThen (runLoop (loopRound (Stmt.scopeAfterOpt init sc) c
        (body.exec fuel (Stmt.scopeAfterOpt init sc))
        (body.scopeAfter (Stmt.scopeAfterOpt init sc)) step) fuel) := by
  simp only [Stmt.exec]
  cases Stmt.execOpt fuel init sc σ <;> rfl

/-- The outputs of an execution so far: all of them when it finished, those before the timeout
when it ran out of fuel, and none at a fault. -/
def Outcome.outputs : Outcome → List Int
  | .done σ => σ.outputs
  | .timeout σ => σ.outputs
  | .fault => []

end ByteMachine.Source

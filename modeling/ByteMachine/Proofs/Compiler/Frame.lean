import ByteMachine.Proofs.Compiler.Evaluation
import ByteMachine.Proofs.Compiler.Labels
/-!
# What expression code keeps

The code of an expression computes into register A, and may use B, the flags, the RAM bytes of
the cells it assigns and the spill bytes its generation claims; nothing else. Run from any
machine whose ALU modes are off, with the code in ROM at the program counter, it reaches its end
after finitely many steps, writes no output and leaves the expression's value in A. Registers C
and D, the page register, the MAR and the modes are as they were, and so is every RAM byte
other than the assigned cells and the spill bytes. Every jump in the code goes forward, to a
label the code declares after it. The code of a leaf keeps B and the flags too, which is what
lets a binary operator hold its first operand in B instead of spilling it.

The run itself is the one of `exprCode_evaluates`; the machine it starts from stands for the
state whose cells are its RAM bytes (`Machine.cellState`). The cells kept are those the
expression does not assign (`Expr.eval_cells`).

## Main statements

* `Expr.eval_cells`: evaluation writes no cell but those the expression assigns.
* `exprCode_jumpsForward`: the code of an expression jumps only forward, within itself.
* `expression_code_frame`: the frame of expression code on the machine.
-/

namespace ByteMachine

namespace Source

/-- `e.Assigns n`: the expression contains an assignment to the name `n`. -/
inductive Expr.Assigns : Expr → String → Prop
  | assign (name : Token) (value : Expr) : Expr.Assigns (.assign name value) name.lexeme
  | assignValue {name : Token} {value : Expr} {n : String} :
      Expr.Assigns value n → Expr.Assigns (.assign name value) n
  | grouping {e : Expr} {n : String} : Expr.Assigns e n → Expr.Assigns (.grouping e) n
  | unary {op : UnaryOp} {e : Expr} {n : String} : Expr.Assigns e n → Expr.Assigns (.unary op e) n
  | binaryLeft {op : BinOp} {l r : Expr} {n : String} :
      Expr.Assigns l n → Expr.Assigns (.binary op l r) n
  | binaryRight {op : BinOp} {l r : Expr} {n : String} :
      Expr.Assigns r n → Expr.Assigns (.binary op l r) n
  | logicalLeft {op : LogicOp} {l r : Expr} {n : String} :
      Expr.Assigns l n → Expr.Assigns (.logical op l r) n
  | logicalRight {op : LogicOp} {l r : Expr} {n : String} :
      Expr.Assigns r n → Expr.Assigns (.logical op l r) n
  | callee {callee : Expr} {paren : Token} {args : List Expr} {n : String} :
      Expr.Assigns callee n → Expr.Assigns (.call callee paren args) n
  | argument {callee : Expr} {paren : Token} {args : List Expr} {a : Expr} {n : String} :
      a ∈ args → Expr.Assigns a n → Expr.Assigns (.call callee paren args) n

/-- Evaluation writes no cell but those of the names the expression assigns. -/
theorem Expr.eval_cells {sc : Scope} {e : Expr} {σ σ' : State} {v : UInt8}
    (h : e.eval sc σ = some (v, σ')) (k : Nat)
    (hk : ∀ n, e.Assigns n → sc.cellOf n ≠ some k) : σ'.cells k = σ.cells k := by
  fun_induction Expr.eval sc e σ generalizing σ' v with
  | case1 text σ | case7 name σ =>
      obtain ⟨_, -, hw⟩ := Option.map_eq_some_iff.1 h
      cases hw
      rfl
  | case2 b σ => cases h; rfl
  | case3 | case4 => cases h
  | case5 σ =>
      rw [Option.some.injEq] at h
      rw [← State.readInput_cells σ, h]
  | case6 e σ ih => exact ih h fun n hn => hk n (.grouping hn)
  | case8 name value σ ih =>
      obtain ⟨j, hj, h⟩ := Option.bind_eq_some_iff.1 h
      obtain ⟨⟨w, σ₁⟩, h₁, hw⟩ := Option.map_eq_some_iff.1 h
      cases hw
      -- the assigned cell is another one than `k`
      have hjk : k ≠ j := fun hkj => hk name.lexeme (.assign name value) (hkj ▸ hj)
      rw [State.set_cells, if_neg hjk]
      exact ih h₁ fun n hn => hk n (.assignValue hn)
  | case9 op e σ ih =>
      obtain ⟨⟨w, σ₁⟩, h₁, hw⟩ := Option.map_eq_some_iff.1 h
      cases hw
      exact ih h₁ fun n hn => hk n (.unary hn)
  | case10 op l r σ ihl ihr =>
      obtain ⟨⟨w, σ₁⟩, h₁, h⟩ := Option.bind_eq_some_iff.1 h
      dsimp only at h
      split at h
      · cases h
        exact ihl h₁ fun n hn => hk n (.logicalLeft hn)
      · exact (ihr σ₁ h fun n hn => hk n (.logicalRight hn)).trans
          (ihl h₁ fun n hn => hk n (.logicalLeft hn))
  | case11 op l r σ _ ihr ihl =>
      -- the right operand first
      obtain ⟨⟨b, σ₁⟩, h₁, h⟩ := Option.bind_eq_some_iff.1 h
      obtain ⟨⟨a, σ₂⟩, h₂, hw⟩ := Option.map_eq_some_iff.1 h
      cases hw
      exact (ihl σ₁ h₂ fun n hn => hk n (.binaryLeft hn)).trans
        (ihr h₁ fun n hn => hk n (.binaryRight hn))
  | case12 op l r σ _ ihl ihr =>
      obtain ⟨⟨a, σ₁⟩, h₁, h⟩ := Option.bind_eq_some_iff.1 h
      obtain ⟨⟨b, σ₂⟩, h₂, hw⟩ := Option.map_eq_some_iff.1 h
      cases hw
      exact (ihr σ₁ h₂ fun n hn => hk n (.binaryRight hn)).trans
        (ihl h₁ fun n hn => hk n (.binaryLeft hn))

end Source

namespace Machine

/-- The state of the reference semantics that a machine stands for: its RAM bytes are the
cells, the bytes waiting at its input port are the input, and nothing is output yet. -/
def cellState (m : Machine) : Source.State := ⟨fun k => m.read k.toUInt8, m.input, []⟩

end Machine

namespace Compiler

open Source Machine

/-! ## Jumps go forward -/

/-- Every jump among the lines names a label that a later line declares. -/
def JumpsForward : List Line → Prop
  | [] => True
  | l :: rest => (∀ n, l.jumpTarget = some n → n ∈ declared rest) ∧ JumpsForward rest

@[simp] theorem jumpsForward_nil : JumpsForward [] := trivial

@[simp] theorem jumpsForward_cons {l : Line} {rest : List Line} :
    JumpsForward (l :: rest) ↔
      (∀ n, l.jumpTarget = some n → n ∈ declared rest) ∧ JumpsForward rest := Iff.rfl

theorem JumpsForward.append {ls ls' : List Line} (h : JumpsForward ls) (h' : JumpsForward ls') :
    JumpsForward (ls ++ ls') := by
  induction ls with
  | nil => exact h'
  | cons l ls ih =>
      obtain ⟨hl, hls⟩ := h
      rw [List.cons_append]
      refine ⟨fun n hn => ?_, ih hls⟩
      rw [declared_append]
      exact List.mem_append_left _ (hl n hn)

/-- Lines without jumps. -/
theorem jumpsForward_of_targets {ls : List Line} (h : targets ls = []) : JumpsForward ls := by
  induction ls with
  | nil => trivial
  | cons l ls ih =>
      rw [targets_cons, List.append_eq_nil_iff] at h
      refine ⟨fun n hn => ?_, ih h.2⟩
      simp [hn] at h

/-- A select: a test, the flag 0, a jump on `c` past the flag 1 to the label after it. -/
theorem jumpsForward_select {x : Line} (hx : x.jumpTarget = none) (c : Condition) (skip : String) :
    JumpsForward [x, loadConst 0, jumpTo c skip, loadConst 1, .label skip] := by
  simp [hx, loadConst, jumpTo, declared]

/-- Every run of `x` generates lines that jump only forward. -/
def Forwarding (x : GenM (List Line)) : Prop :=
  ∀ ⦃g g' : Gen⦄ ⦃lines : List Line⦄, x g = .ok (lines, g') → JumpsForward lines

theorem forwarding_pure {lines : List Line} (h : targets lines = []) : Forwarding (pure lines) := by
  intro g g' ls hrun
  obtain ⟨rfl, rfl⟩ := run_pure_eq_ok.1 hrun
  exact jumpsForward_of_targets h

theorem forwarding_throw {e : CodegenError} : Forwarding (throw e) :=
  fun _ _ _ h => absurd h run_throw

theorem operandsCode_forwarding {first second : GenM (List Line)} (hfirst : Forwarding first)
    (hsecond : Forwarding second) (leaf : Bool) : Forwarding (operandsCode first second leaf) := by
  intro g g' lines h
  simp only [operandsCode] at h
  obtain ⟨a, g₁, ha, h⟩ := run_bind_eq_ok.1 h
  cases leaf with
  | true =>
      obtain ⟨b, g₂, hb, h⟩ := run_bind_eq_ok.1 h
      obtain ⟨rfl, rfl⟩ := run_pure_eq_ok.1 h
      exact ((hfirst ha).append (jumpsForward_of_targets rfl)).append (hsecond hb)
  | false =>
      obtain ⟨s, g₂, hs, h⟩ := run_bind_eq_ok.1 h
      obtain ⟨b, g₃, hb, h⟩ := run_bind_eq_ok.1 h
      obtain ⟨rfl, rfl⟩ := run_pure_eq_ok.1 h
      exact (((hfirst ha).append (jumpsForward_of_targets rfl)).append (hsecond hb)).append
        (jumpsForward_of_targets rfl)

theorem compareCode_forwarding (c : Condition) : Forwarding (compareCode c) := by
  intro g g' lines h
  simp only [compareCode] at h
  obtain ⟨skip, g₁, hskip, h⟩ := run_bind_eq_ok.1 h
  obtain ⟨rfl, rfl⟩ := run_pure_eq_ok.1 h
  exact jumpsForward_select rfl c skip

/-- The code of every expression jumps only forward, to labels it declares after the jump. -/
theorem exprCode_jumpsForward (e : Expr) : Forwarding (exprCode e) := by
  induction e using exprCode.induct with
  | case1 text v hv =>
      simp only [exprCode, hv]
      exact forwarding_pure rfl
  | case2 text hv =>
      simp only [exprCode, hv]
      exact forwarding_throw
  | case3 b => exact forwarding_pure rfl
  | case4 | case5 => exact forwarding_throw
  | case6 => exact forwarding_pure rfl
  | case7 e ih => exact ih
  | case8 name =>
      intro g g' lines h
      obtain ⟨addr, g₁, haddr, h⟩ := run_bind_eq_ok.1 h
      obtain ⟨rfl, rfl⟩ := run_pure_eq_ok.1 h
      exact jumpsForward_of_targets rfl
  | case9 name value ih =>
      intro g g' lines h
      obtain ⟨addr, g₁, haddr, h⟩ := run_bind_eq_ok.1 h
      obtain ⟨v, g₂, hv, h⟩ := run_bind_eq_ok.1 h
      obtain ⟨rfl, rfl⟩ := run_pure_eq_ok.1 h
      exact (ih hv).append (jumpsForward_of_targets rfl)
  | case10 op operand ih =>
      intro g g' lines h
      obtain ⟨v, g₁, hv, h⟩ := run_bind_eq_ok.1 h
      cases op with
      | neg | bitNot =>
          obtain ⟨rfl, rfl⟩ := run_pure_eq_ok.1 h
          exact (ih hv).append (jumpsForward_of_targets rfl)
      | not =>
          obtain ⟨skip, g₂, hskip, h⟩ := run_bind_eq_ok.1 h
          obtain ⟨rfl, rfl⟩ := run_pure_eq_ok.1 h
          exact (ih hv).append (jumpsForward_select rfl .notEqual skip)
  | case11 op left right ihl ihr =>
      intro g g' lines h
      simp only [exprCode] at h
      obtain ⟨done, g₁, hdone, h⟩ := run_bind_eq_ok.1 h
      obtain ⟨l, g₂, hl, h⟩ := run_bind_eq_ok.1 h
      obtain ⟨r, g₃, hr, h⟩ := run_bind_eq_ok.1 h
      obtain ⟨rfl, rfl⟩ := run_pure_eq_ok.1 h
      simp only [List.append_assoc, List.cons_append, List.nil_append]
      -- the jump after the left operand lands on the label after the right operand
      refine (ihl hl).append (jumpsForward_cons.2 ⟨fun n hn => ?_,
        jumpsForward_cons.2 ⟨fun n hn => ?_, (ihr hr).append (by simp)⟩⟩)
      · simp [testA, Line.plain] at hn
      · simp only [jumpTo, Line.jumpTarget_label, Option.some.injEq] at hn
        subst hn
        simp
  | case12 op left right hord ih₁ ih₂ | case13 op left right hord ih₁ ih₂ =>
      intro g g' lines h
      simp only [exprCode, hord, ↓reduceIte] at h
      obtain ⟨ops, g₁, hops, h⟩ := run_bind_eq_ok.1 h
      have hO := operandsCode_forwarding ih₁ ih₂ _ hops
      cases hlow : lowering op with
      | inl alu =>
          rw [hlow] at h
          obtain ⟨rfl, rfl⟩ := run_pure_eq_ok.1 h
          exact hO.append (jumpsForward_of_targets rfl)
      | inr c =>
          rw [hlow] at h
          obtain ⟨cmp, g₂, hcmp, h⟩ := run_bind_eq_ok.1 h
          obtain ⟨rfl, rfl⟩ := run_pure_eq_ok.1 h
          exact hO.append (compareCode_forwarding c hcmp)

/-! ## The frame on the machine -/

theorem modes_eq_of_off {md : Modes} (hc : md.carryChain = false) (hs : md.signed = false) :
    md = {} := by
  cases md
  simp only at hc hs
  rw [hc, hs]

/-- What a run of the code of `e` leaves, from `m` to `m'`, in the scope `sc` and with the spill
bytes from `lo` below `hi`: the value of `e` in A; C, D, the page register, the MAR and the
modes as they were; every RAM byte that is neither the cell of a name `e` assigns nor a spill
byte as it was; and, for a leaf, B and the flags as they were. -/
structure FramedRun (sc : Scope) (e : Expr) (lo hi : Nat) (m m' : Machine) : Prop where
  value : ∃ v σ', e.eval sc m.cellState = some (v, σ') ∧ m'.a = v
  untouched : Untouched m m'
  modes : m'.modes = m.modes
  ram : ∀ addr : UInt8, (∀ n, e.Assigns n → sc.cellOf n ≠ some addr.toNat) →
    (addr.toNat < lo ∨ hi ≤ addr.toNat) → m'.read addr = m.read addr
  leaf : e.isLeaf → m'.b = m.b ∧ m'.flags = m.flags

/-- The frame of expression code. Generate the code of an expression from a state that code
generation can be in, and place it in ROM with its labels resolved. Its jumps all go forward,
to labels it declares after them. Run from any machine with carry chaining and signed mode off
whose program counter is at the start of the code, and in the scope that the state's bindings
stand for, it reaches the end of the code after finitely many steps with no output and no halt;
A holds the value of the expression, read with the machine's RAM bytes as the cells; C, D, the
page register, the MAR and the modes are unchanged; so is every RAM byte other than the cells
the expression assigns and the spill bytes claimed while generating it; and the code of a leaf
also keeps B and the flags. -/
theorem expression_code_frame {e : Expr} {g g' : Gen} {code : List Line}
    (hgen : exprCode e g = .ok (code, g')) (hg : g.Sound) :
    JumpsForward code ∧
    ∀ (sc : Scope) (rom : Vector UInt8 romSize) (pos : String → Option Nat) (o : Nat)
      (m : Machine), Binds g sc → CodeAt rom pos o code → o + codeSize code < romSize →
      m.rom = rom → m.modes.carryChain = false → m.modes.signed = false → m.pc.toNat = o →
      ∃ k m', Runs m k [] m' ∧ m'.pc.toNat = o + codeSize code ∧
        FramedRun sc e g'.scratchFloor g.scratchFloor m m' := by
  refine ⟨exprCode_jumpsForward e hgen,
    fun sc rom pos o m hB hC hend hrom hcarry hsigned hpc => ?_⟩
  have E : CodeEvaluates rom pos g g' code e := exprCode_evaluates e hgen
  have hmodes : m.modes = {} := modes_eq_of_off hcarry hsigned
  -- the machine stands for the state whose cells are its RAM bytes, up to the lowest spill byte
  -- the code claims
  have hA : Agrees rom g'.scratchFloor m.cellState m := ⟨hrom, hmodes, rfl, fun _ _ => rfl⟩
  have hV : sc.next ≤ g'.scratchFloor := by
    rw [← hB.next, ← E.next]
    exact (exprCode_spilling e hg hgen).finish.next_le
  obtain ⟨v, σ', m', hev, q, ha, hleaf⟩ := E.run hB hV le_rfl hg.floor_le hA hpc hC hend
  obtain ⟨k, hk⟩ := q.runs
  refine ⟨k, m', hk, q.pc,
    ⟨⟨v, σ', hev, ha⟩, q.untouched, q.agrees.modes.trans hmodes.symm, ?_, hleaf⟩⟩
  intro addr hnot hout
  have haddr : addr.toNat.toUInt8 = addr := UInt8.ofNat_toNat
  rcases hout with hlow | hhigh
  · -- below the spill bytes lie cells, and the expression does not assign this one
    have hcell := q.agrees.cells addr.toNat hlow
    rw [haddr] at hcell
    rw [hcell, Expr.eval_cells hev addr.toNat hnot]
    show m.read addr.toNat.toUInt8 = m.read addr
    rw [haddr]
  · exact q.frame addr hhigh

/-- The code of `1 - in`: the input, moved to B, the constant 1 and the subtraction. -/
theorem difference_code_frame :
    exprCode (.binary .sub (.bool true) .input) {} = .ok ([.plain (.input .a),
      .plain (.move .a .b), loadConst 1, .plain (.alu (.binary .sub .a .b))], {}) ∧
    JumpsForward [.plain (.input .a), .plain (.move .a .b), loadConst 1,
      .plain (.alu (.binary .sub .a .b))] ∧
    ∀ (sc : Scope) (rom : Vector UInt8 romSize) (pos : String → Option Nat) (o : Nat)
      (m : Machine), Binds {} sc → CodeAt rom pos o [.plain (.input .a), .plain (.move .a .b),
        loadConst 1, .plain (.alu (.binary .sub .a .b))] → o + 5 < romSize →
      m.rom = rom → m.modes.carryChain = false → m.modes.signed = false → m.pc.toNat = o →
      ∃ k m', Runs m k [] m' ∧ m'.pc.toNat = o + 5 ∧
        FramedRun sc (.binary .sub (.bool true) .input) 256 256 m m' := by
  have hgen : exprCode (.binary .sub (.bool true) .input) {} = .ok ([.plain (.input .a),
      .plain (.move .a .b), loadConst 1, .plain (.alu (.binary .sub .a .b))], {}) := rfl
  have hsize : codeSize [.plain (.input .a), .plain (.move .a .b), loadConst 1,
      .plain (.alu (.binary .sub .a .b))] = 5 := by decide
  have h := expression_code_frame hgen Gen.sound_empty
  rw [hsize] at h
  exact ⟨hgen, h⟩

end Compiler

end ByteMachine

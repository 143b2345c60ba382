import ByteMachine.Proofs.Compiler.Evaluation
/-!
# Statement code follows the reference semantics

Run from a machine at its code that stands for a state, a statement's code follows what the
reference semantics does with the statement (`Tracks`). A statement that finishes is a run to the
end of its code, ending at a machine that stands for the state the statement leaves; a loop that
runs out of fuel is a run of at least as many steps as the fuel; and a statement that has code
never faults. Either run writes to the output port what the statement outputs.

Each round of a loop takes at least one step, the jump back to its test. That is what makes a run
out of fuel at least as long as the fuel, so that a program that runs for ever on the reference
semantics runs for ever on the machine.

## Main statements

* `Tracks.andThen`: following an execution and then, from wherever it ends, the next one.
* `runLoop_tracks`: a loop whose every round the machine follows is followed to its end.
* `stmtsCode_executes`: the code of every list of statements follows their reference semantics.
-/

namespace ByteMachine.Compiler

open Source Machine Assembly

/-! ## Runs that follow an outcome -/

section Tracks

variable {rom : Vector UInt8 romSize} {V : Nat} {σ σ₁ : State} {m m₁ : Machine} {e e₁ b : Nat}

/-- The machine, from `m` standing for `σ`, follows the outcome: a finished execution is a run to
offset `e` that ends standing for the state it leaves, a timeout is a run of at least `b` steps,
and a fault is never followed. Either run outputs what the execution adds to `σ`'s outputs. -/
def Tracks (rom : Vector UInt8 romSize) (V : Nat) (σ : State) (m : Machine) (e b : Nat) :
    Source.Outcome → Prop
  | .done σ' => ∃ k outs m', Runs m k outs m' ∧ σ'.outputs = σ.outputs ++ outs ∧
      m'.pc.toNat = e ∧ Agrees rom V σ' m'
  | .timeout σ' => ∃ k outs m', Runs m k outs m' ∧ σ'.outputs = σ.outputs ++ outs ∧ b ≤ k
  | .fault => False

theorem Tracks.mono {r : Source.Outcome} (h : Tracks rom V σ m e b r) {b' : Nat} (hb : b' ≤ b) :
    Tracks rom V σ m e b' r := by
  cases r with
  | done σ' => exact h
  | timeout σ' =>
      obtain ⟨k, outs, m', hr, ho, hk⟩ := h
      exact ⟨k, outs, m', hr, ho, le_trans hb hk⟩
  | fault => exact h

theorem Tracks.to {r : Source.Outcome} {e' : Nat} (h : Tracks rom V σ m e b r) (he : e = e') :
    Tracks rom V σ m e' b r :=
  he ▸ h

/-- A run in front of a followed outcome: the steps and the outputs add up. -/
theorem Tracks.after {r : Source.Outcome} {k : Nat} {outs : List Int} (hrun : Runs m k outs m₁)
    (hout : σ₁.outputs = σ.outputs ++ outs) (h : Tracks rom V σ₁ m₁ e b r) :
    Tracks rom V σ m e (b + k) r := by
  cases r with
  | done σ' =>
      obtain ⟨k', outs', m', hr, ho, hpc, hA⟩ := h
      exact ⟨k + k', outs ++ outs', m', hrun.trans hr, by rw [ho, hout, List.append_assoc], hpc,
        hA⟩
  | timeout σ' =>
      obtain ⟨k', outs', m', hr, ho, hk⟩ := h
      exact ⟨k + k', outs ++ outs', m', hrun.trans hr, by rw [ho, hout, List.append_assoc],
        by omega⟩
  | fault => exact h

/-- An execution followed to offset `e₁`, and the next one followed from every machine there. -/
theorem Tracks.andThen {r : Source.Outcome} {f : State → Source.Outcome}
    (h : Tracks rom V σ m e₁ b r)
    (hf : ∀ σ' m', Agrees rom V σ' m' → m'.pc.toNat = e₁ → Tracks rom V σ' m' e b (f σ')) :
    Tracks rom V σ m e b (r.andThen f) := by
  cases r with
  | done σ' =>
      obtain ⟨k, outs, m', hr, ho, hpc, hA⟩ := h
      exact ((hf σ' m' hA hpc).after hr ho).mono (Nat.le_add_right b k)
  | timeout σ' => exact h
  | fault => exact h

/-- A finished execution followed to `e₁`, and run on from there to `e`. -/
theorem Tracks.extend {r : Source.Outcome} (h : Tracks rom V σ m e₁ b r)
    (hf : ∀ σ' m', Agrees rom V σ' m' → m'.pc.toNat = e₁ → Tracks rom V σ' m' e b (.done σ')) :
    Tracks rom V σ m e b r := by
  simpa using h.andThen hf

theorem Tracks.refl (hA : Agrees rom V σ m) (hpc : m.pc.toNat = e) :
    Tracks rom V σ m e b (.done σ) :=
  ⟨0, [], m, .refl m, by simp, hpc, hA⟩

/-- Expression code that outputs nothing follows the state it ends at. -/
theorem Quiet.tracks {floor : Nat} {σ' : State} {m' : Machine} (h : Quiet rom V floor m σ' m' e)
    (hout : σ'.output = σ.output) : Tracks rom V σ m e b (.done σ') := by
  obtain ⟨k, hr⟩ := h.runs
  exact ⟨k, [], m', hr, by simp [State.outputs, hout], h.pc, h.agrees⟩

/-- The machine, from `m` at a loop's start `start` standing for `σ`, follows one round: an exit
is a run to the loop's end `e`, another round is a run of at least one step back to the start,
and a round that ends the execution is followed as that outcome. -/
def RoundTracks (rom : Vector UInt8 romSize) (V : Nat) (σ : State) (m : Machine)
    (start e b : Nat) : Round → Prop
  | .exit σ' => Tracks rom V σ m e b (.done σ')
  | .again σ' => ∃ k outs m', Runs m k outs m' ∧ σ'.outputs = σ.outputs ++ outs ∧ 0 < k ∧
      m'.pc.toNat = start ∧ Agrees rom V σ' m'
  | .stop r => Tracks rom V σ m e b r

/-- A loop whose every round from its start the machine follows is followed for as many rounds
as it runs: each round that goes on takes a step, so a loop out of fuel is a run at least as long
as the fuel. -/
theorem runLoop_tracks {round : State → Round} {start fuel : Nat}
    (hround : ∀ σ m, Agrees rom V σ m → m.pc.toNat = start →
      RoundTracks rom V σ m start e fuel (round σ)) :
    ∀ n ≤ fuel, ∀ σ m, Agrees rom V σ m → m.pc.toNat = start →
      Tracks rom V σ m e n (runLoop round n σ) := by
  intro n
  induction n with
  | zero => exact fun _ σ m _ _ => ⟨0, [], m, .refl m, by simp, le_rfl⟩
  | succ n ih =>
      intro hn σ m hA hpc
      have hr := hround σ m hA hpc
      simp only [runLoop]
      cases h : round σ with
      | exit σ' =>
          rw [h] at hr
          exact hr
      | again σ' =>
          rw [h] at hr
          obtain ⟨k, outs, m', hrun, hout, hk, hpc', hA'⟩ := hr
          exact ((ih (by omega) σ' m' hA' hpc').after hrun hout).mono (by omega)
      | stop r =>
          rw [h] at hr
          exact hr.mono hn

end Tracks

/-! ## The lines a statement adds -/

section Lines

variable {rom : Vector UInt8 romSize} {pos : String → Option Nat} {V : Nat} {σ : State}
  {m : Machine} {p : Nat}

theorem Agrees.emit (h : Agrees rom V σ m) (v : UInt8) : Agrees rom V (σ.emit v) m :=
  ⟨h.rom, h.modes, h.input, h.cells⟩

/-- `out a` outputs A, read as unsigned. -/
theorem runs_output (hA : Agrees rom V σ m) (hpc : m.pc.toNat = p)
    (hI : InstrAt rom pos p (.output .a) .none) (hend : p + 1 < romSize) :
    ∃ m', Runs m 1 [(m.a.toNat : Int)] m' ∧ m'.pc.toNat = p + 1 ∧ Agrees rom V (σ.emit m.a) m' := by
  have hout : m.signedValue .a = (m.a.toNat : Int) := by
    simp [signedValue, hA.modes, value, reg]
  refine ⟨{ m with pc := m.pc + 1 }, ?_, toNat_add_one hpc hend,
    (hA.emit m.a).congr rfl rfl rfl rfl⟩
  simpa [hout] using Runs.single (step_output hA.rom hpc hI)

/-- The jump back to a loop's start: one step. -/
theorem runs_jumpAlways {name : String} {t : Nat} (hA : Agrees rom V σ m) (hpc : m.pc.toNat = p)
    (hI : InstrAt rom pos p (.jump .always) (.label name)) (ht : pos name = some t) :
    ∃ m', Runs m 1 [] m' ∧ m'.pc.toNat = t ∧ Agrees rom V σ m' :=
  ⟨_, Runs.single (step_jump hA.rom hpc hI ht), UInt16.toNat_ofNat_of_lt' (jump_target_lt hI ht),
    hA.congr rfl rfl rfl rfl⟩

end Lines

/-! ## Declarations -/

/-- Declaring a name claims the next variable byte and binds the name to it. -/
theorem declare_ok {n : String} {addr : UInt8} {u : Unit} {g g₁ g₂ : Gen}
    (ha : allocate n g = .ok (addr, g₁)) (hb : bind n addr g₁ = .ok (u, g₂)) :
    addr = g.nextAddress.toUInt8 ∧ g₂.vars = (n, addr) :: g.vars ∧
      g₂.nextAddress = g.nextAddress + 1 ∧ g₂.scratchFloor = g.scratchFloor := by
  rw [allocate_run] at ha
  rw [bind_run] at hb
  split at ha
  · cases ha
  · cases ha
    cases hb
    exact ⟨rfl, rfl, rfl, rfl⟩

theorem Binds.declare {g g₂ : Gen} {sc : Scope} {n : String} (h : Binds g sc)
    (hv : g₂.vars = (n, g.nextAddress.toUInt8) :: g.vars)
    (hn : g₂.nextAddress = g.nextAddress + 1) : Binds g₂ (sc.declare n) :=
  ⟨by rw [hv, h.vars, h.next]; rfl, by rw [hn, h.next]; rfl⟩

/-! ## Statement code -/

section Executes

variable (rom : Vector UInt8 romSize) (pos : String → Option Nat)

/-- A run of code generation from `g` to `g'` that gave `code` for statements executed by `exec`
and leaving the scope `after`: it binds the names they declare as `after` does, claims variable
bytes and spill bytes only, and the code follows `exec`. Run from a machine at the code that
stands for a state, with every variable byte claimed by the end below `V` and `V` no higher than
the lowest spill byte claimed by the end, the machine follows the execution to the end of the
code, for every fuel. -/
structure CodeExecutes (g g' : Gen) (code : List Line)
    (exec : Nat → Scope → State → Source.Outcome) (after : Scope → Scope) : Prop where
  binds : ∀ ⦃sc : Scope⦄, Binds g sc → Binds g' (after sc)
  next_le : g.nextAddress ≤ g'.nextAddress
  floor : g'.scratchFloor ≤ g.scratchFloor
  run : ∀ ⦃fuel : Nat⦄ ⦃sc : Scope⦄ ⦃V : Nat⦄ ⦃σ : State⦄ ⦃m : Machine⦄ ⦃o : Nat⦄, Binds g sc →
    g'.nextAddress ≤ V → V ≤ g'.scratchFloor → g.scratchFloor ≤ 256 → Agrees rom V σ m →
    m.pc.toNat = o → CodeAt rom pos o code → o + codeSize code < romSize →
    Tracks rom V σ m (o + codeSize code) fuel (exec fuel sc σ)

/-- Every run of `x` gives code that follows `exec`, leaving the scope `after`. -/
def Executes (x : GenM (List Line)) (exec : Nat → Scope → State → Source.Outcome)
    (after : Scope → Scope) : Prop :=
  ∀ ⦃g g' : Gen⦄ ⦃code : List Line⦄, x g = .ok (code, g') →
    CodeExecutes rom pos g g' code exec after

variable {rom pos} {g g₁ g₂ g' : Gen} {code : List Line}

theorem CodeExecutes.congr {exec exec' : Nat → Scope → State → Source.Outcome}
    {after after' : Scope → Scope} (h : CodeExecutes rom pos g g' code exec after)
    (he : ∀ fuel sc σ, exec' fuel sc σ = exec fuel sc σ) (ha : ∀ sc, after' sc = after sc) :
    CodeExecutes rom pos g g' code exec' after' :=
  ⟨fun sc hB => ha sc ▸ h.binds hB, h.next_le, h.floor,
    fun fuel sc _ σ _ _ hB hV hV' hF hA hpc hC hend =>
      he fuel sc σ ▸ h.run hB hV hV' hF hA hpc hC hend⟩

/-- No code follows a finished execution that changes nothing. -/
theorem executes_nil : CodeExecutes rom pos g g [] (fun _ _ σ => .done σ) id :=
  ⟨fun _ hB => hB, le_rfl, le_rfl, fun _ _ _ _ _ _ _ _ _ _ hA hpc _ _ => Tracks.refl hA hpc⟩

/-- Code that follows two executions in turn follows the first and then the second. -/
theorem CodeExecutes.seq {c₁ c₂ : List Line} {exec₁ exec₂ : Nat → Scope → State → Source.Outcome}
    {after₁ after₂ : Scope → Scope} (h₁ : CodeExecutes rom pos g g₁ c₁ exec₁ after₁)
    (h₂ : CodeExecutes rom pos g₁ g' c₂ exec₂ after₂) :
    CodeExecutes rom pos g g' (c₁ ++ c₂)
      (fun fuel sc σ => (exec₁ fuel sc σ).andThen (exec₂ fuel (after₁ sc)))
      (fun sc => after₂ (after₁ sc)) := by
  have hn₁ := h₁.next_le
  have hn₂ := h₂.next_le
  have hf₁ := h₁.floor
  have hf₂ := h₂.floor
  refine ⟨fun sc hB => h₂.binds (h₁.binds hB), by omega, by omega,
    fun fuel sc V σ m o hB hV hV' hF hA hpc hC hend => ?_⟩
  rw [codeAt_append] at hC
  rw [codeSize_append] at hend ⊢
  refine (h₁.run hB (by omega) (by omega) hF hA hpc hC.1 (by omega)).andThen
    fun σ' m' hA' hpc' => ?_
  rw [← Nat.add_assoc]
  exact h₂.run (h₁.binds hB) hV hV' (by omega) hA' hpc' hC.2 (by omega)

/-- An expression statement's code is its expression's code. -/
theorem expr_executes {e : Expr} (E : CodeEvaluates rom pos g g' code e) :
    CodeExecutes rom pos g g' code (fun fuel => (Stmt.expr e).exec fuel)
      (Stmt.expr e).scopeAfter := by
  refine ⟨fun sc hB => hB.congr E.vars E.next, E.next.ge, E.floor,
    fun fuel sc V σ m o hB hV hV' hF hA hpc hC hend => ?_⟩
  obtain ⟨v, σ', m', hev, q, -, -⟩ :=
    E.run hB (by rw [← hB.next, ← E.next]; exact hV) hV' hF hA hpc hC hend
  simp only [Stmt.exec, hev]
  exact q.tracks (Expr.eval_output hev)

/-- An output statement's code: its expression's code, then `out a`. -/
theorem output_executes {e : Expr} (E : CodeEvaluates rom pos g g' code e) :
    CodeExecutes rom pos g g' (code ++ [.plain (.output .a)])
      (fun fuel => (Stmt.output e).exec fuel) (Stmt.output e).scopeAfter := by
  refine ⟨fun sc hB => hB.congr E.vars E.next, E.next.ge, E.floor,
    fun fuel sc V σ m o hB hV hV' hF hA hpc hC hend => ?_⟩
  simp only [codeAt_append, codeAt_plain_cons, codeAt_nil, and_true] at hC
  simp only [codeSize_append, codeSize_cons, size_plain, codeSize_nil] at hend ⊢
  obtain ⟨v, σ', m', hev, q, ha, -⟩ :=
    E.run hB (by rw [← hB.next, ← E.next]; exact hV) hV' hF hA hpc hC.1 (by omega)
  obtain ⟨k, hr⟩ := q.runs
  obtain ⟨m'', hout, hpc'', hA''⟩ := runs_output q.agrees q.pc hC.2 (by omega)
  simp only [Stmt.exec, hev]
  rw [ha] at hout hA''
  refine ⟨k + 1, [] ++ [(v.toNat : Int)], m'', hr.trans hout, ?_, by omega, hA''⟩
  rw [State.emit_outputs, List.nil_append]
  simp [State.outputs, Expr.eval_output hev]

/-- A declaration without a value: no code, and the name bound to the next variable byte. -/
theorem varDecl_none_executes {name : Token}
    (hv : g'.vars = (name.lexeme, g.nextAddress.toUInt8) :: g.vars)
    (hn : g'.nextAddress = g.nextAddress + 1) (hf : g'.scratchFloor = g.scratchFloor) :
    CodeExecutes rom pos g g' [] (fun fuel => (Stmt.varDecl name none).exec fuel)
      (Stmt.varDecl name none).scopeAfter :=
  ⟨fun _ hB => hB.declare hv hn, by omega, hf.le,
    fun _ _ _ _ _ _ _ _ _ _ hA hpc _ _ => Tracks.refl hA hpc⟩

/-- A declaration with a value: the value's code, with the name already bound, then a store to
the name's byte. -/
theorem varDecl_some_executes {name : Token} {e : Expr}
    (hv : g₁.vars = (name.lexeme, g.nextAddress.toUInt8) :: g.vars)
    (hn : g₁.nextAddress = g.nextAddress + 1) (hf : g₁.scratchFloor = g.scratchFloor)
    (E : CodeEvaluates rom pos g₁ g' code e) :
    CodeExecutes rom pos g g' (code ++ [storeA g.nextAddress.toUInt8])
      (fun fuel => (Stmt.varDecl name (some e)).exec fuel)
      (Stmt.varDecl name (some e)).scopeAfter := by
  have hfE := E.floor
  refine ⟨fun sc hB => (hB.declare hv hn).congr E.vars E.next, by rw [E.next, hn]; omega,
    by omega, fun fuel sc V σ m o hB hV hV' hF hA hpc hC hend => ?_⟩
  simp only [codeAt_append, codeAt_storeA_cons, codeAt_nil, and_true] at hC
  simp only [codeSize_append, codeSize_cons, size_storeA, codeSize_nil] at hend ⊢
  have hB₁ := hB.declare hv hn
  have hnext : sc.next + 1 ≤ V := by rw [← hB.next, ← hn, ← E.next]; exact hV
  obtain ⟨v, σ', m', hev, q, ha, -⟩ :=
    E.run hB₁ (by simpa using hnext) hV' (by omega) hA hpc hC.1 (by omega)
  obtain ⟨m'', q', -⟩ := quiet_storeA_cell (F := g₁.scratchFloor) q.agrees q.pc
    (Nat.lt_of_succ_le hnext) (by omega) (by omega) (by rw [← hB.next]; exact hC.2) (by omega)
  simp only [Stmt.exec, hev]
  rw [ha] at q'
  exact (q.trans q').tracks (by simp [Expr.eval_output hev])

/-- A conditional's code: the condition, a jump to the else branch when it is zero, the then
branch and a jump past the else branch. -/
theorem ifElse_executes {cond : Expr} {th : Stmt} {el : Option Stmt} {elseL endL : String}
    {g₃ g₄ : Gen} {c t e : List Line}
    (helse : freshLabel g = .ok (elseL, g₁)) (hend : freshLabel g₁ = .ok (endL, g₂))
    (C : CodeEvaluates rom pos g₂ g₃ c cond)
    (T : CodeExecutes rom pos g₃ g₄ t (fun fuel => th.exec fuel) th.scopeAfter)
    (E : CodeExecutes rom pos g₄ g' e (fun fuel => Stmt.execOpt fuel el) (Stmt.scopeAfterOpt el)) :
    CodeExecutes rom pos g g' (c ++ [testA, jumpTo .equal elseL] ++ t ++
        [jumpTo .always endL, .label elseL] ++ e ++ [.label endL])
      (fun fuel => (Stmt.ifElse cond th el).exec fuel) (Stmt.ifElse cond th el).scopeAfter := by
  obtain ⟨hv₁, hn₁, hf₁⟩ := freshLabel_keeps helse
  obtain ⟨hv₂, hn₂, hf₂⟩ := freshLabel_keeps hend
  have hB₂ : ∀ {sc}, Binds g sc → Binds g₂ sc := fun hB =>
    hB.congr (hv₂.trans hv₁) (hn₂.trans hn₁)
  have hB₃ : ∀ {sc}, Binds g sc → Binds g₃ sc := fun hB => (hB₂ hB).congr C.vars C.next
  have hfC := C.floor
  have hfT := T.floor
  have hfE := E.floor
  have hnC := C.next
  have hnT := T.next_le
  have hnE := E.next_le
  refine ⟨fun sc hB => E.binds (T.binds (hB₃ hB)), by omega, by omega,
    fun fuel sc V σ m o hB hV hV' hF hA hpc hC hend => ?_⟩
  simp only [codeAt_append, codeAt_testA_cons, codeAt_jumpTo_cons, codeAt_label_cons,
    codeAt_nil, and_true, codeSize_append, codeSize_cons, size_testA, size_jumpTo, size_label,
    codeSize_nil, Nat.add_zero, ← Nat.add_assoc] at hC
  simp only [codeSize_append, codeSize_cons, size_testA, size_jumpTo, size_label,
    codeSize_nil, Nat.add_zero, ← Nat.add_assoc] at hend ⊢
  obtain ⟨⟨⟨⟨⟨hCc, htest, hjump⟩, hCt⟩, hjend, helseAt⟩, hCe⟩, hendAt⟩ := hC
  obtain ⟨v, σ₁, m₁, hev, q₁, ha₁, -⟩ := C.run (hB₂ hB) (by rw [← (hB₂ hB).next]; omega)
    (by omega) (by omega) hA hpc hCc (by omega)
  obtain ⟨m₂, q₂, -, -, hf₂⟩ := quiet_testA (F := g₂.scratchFloor) q₁.agrees q₁.pc htest
    (by omega)
  obtain ⟨m₃, q₃, -, -, -⟩ := quiet_jump (F := g₂.scratchFloor) q₂.agrees q₂.pc hjump helseAt
    (by omega)
  rw [hf₂, ha₁, (holds_testA v).1] at q₃
  have q := (q₁.trans q₂).trans q₃
  obtain ⟨k, hr⟩ := q.runs
  have hout : σ₁.outputs = σ.outputs ++ [] := by simp [State.outputs, Expr.eval_output hev]
  simp only [Stmt.exec, hev]
  by_cases hv0 : v = 0
  · -- the condition is zero: on to the else branch
    simp only [hv0, decide_true, if_true] at q
    rw [if_pos hv0]
    exact ((E.run (T.binds (hB₃ hB)) hV hV' (by omega) q.agrees q.pc hCe (by omega)).after hr
      hout).mono (by omega)
  · simp only [hv0, decide_false, Bool.false_eq_true, if_false] at q
    rw [if_neg hv0]
    refine (((T.run (hB₃ hB) (by omega) (by omega) (by omega) q.agrees q.pc hCt
      (by omega)).extend fun σ' m' hA' hpc' => ?_).after hr hout).mono (by omega)
    -- the jump past the else branch
    obtain ⟨m'', hr', hpc'', hA''⟩ := runs_jumpAlways hA' hpc' hjend hendAt
    exact ⟨1, [], m'', hr', by simp, hpc'', hA''⟩

end Executes

/-! ## Loops -/

section Loops

variable (rom : Vector UInt8 romSize) (pos : String → Option Nat)

/-- A run of code generation that gave the code of a loop's test: as `CodeEvaluates`, ending at
`done` when the condition is zero and right after the code otherwise. -/
structure CodeTests (g g' : Gen) (code : List Line) (cond : Option Expr) (done : String) :
    Prop where
  vars : g'.vars = g.vars
  next : g'.nextAddress = g.nextAddress
  floor : g'.scratchFloor ≤ g.scratchFloor
  run : ∀ ⦃sc : Scope⦄ ⦃V : Nat⦄ ⦃σ : State⦄ ⦃m : Machine⦄ ⦃o d : Nat⦄, Binds g sc →
    sc.next ≤ V → V ≤ g'.scratchFloor → g.scratchFloor ≤ 256 → Agrees rom V σ m →
    m.pc.toNat = o → CodeAt rom pos o code → pos done = some d → o + codeSize code < romSize →
    ∃ v σ' m', Expr.test sc cond σ = some (v, σ') ∧
      Quiet rom V g.scratchFloor m σ' m' (if v = 0 then d else o + codeSize code)

/-- A run of code generation that gave the code of a loop's step: as `CodeEvaluates`, for the
step's effect only. -/
structure CodeSteps (g g' : Gen) (code : List Line) (step : Option Expr) : Prop where
  vars : g'.vars = g.vars
  next : g'.nextAddress = g.nextAddress
  floor : g'.scratchFloor ≤ g.scratchFloor
  run : ∀ ⦃sc : Scope⦄ ⦃V : Nat⦄ ⦃σ : State⦄ ⦃m : Machine⦄ ⦃o : Nat⦄, Binds g sc →
    sc.next ≤ V → V ≤ g'.scratchFloor → g.scratchFloor ≤ 256 → Agrees rom V σ m →
    m.pc.toNat = o → CodeAt rom pos o code → o + codeSize code < romSize →
    ∃ σ' m', Expr.effect sc step σ = some σ' ∧ Quiet rom V g.scratchFloor m σ' m' (o + codeSize code)

variable {rom pos} {g g₁ g₂ g' : Gen} {code : List Line}

/-- A loop's test: the condition's code and a jump out of the loop when it is zero; an absent
condition has no code and always holds. -/
theorem loopTest_tests {cond : Option Expr} {done : String} {tc : List Line}
    (h : (cond.map exprCode).getD (pure []) g = .ok (tc, g')) :
    CodeTests rom pos g g' (tc ++ if cond.isSome then [testA, jumpTo .equal done] else [])
      cond done := by
  cases cond with
  | none =>
      obtain ⟨rfl, rfl⟩ := run_pure_eq_ok.1 h
      refine ⟨rfl, rfl, le_rfl, fun sc V σ m o d _ _ _ _ hA hpc _ _ _ => ⟨1, σ, m, rfl, ?_⟩⟩
      exact Quiet.refl hA (by simpa using hpc)
  | some c =>
      have E : CodeEvaluates rom pos g g' tc c := exprCode_evaluates c h
      refine ⟨E.vars, E.next, E.floor, fun sc V σ m o d hB hV hV' hF hA hpc hC hd hend => ?_⟩
      simp only [Option.isSome_some, if_true, codeAt_append, codeAt_testA_cons,
        codeAt_jumpTo_cons, codeAt_nil, and_true, codeSize_append, codeSize_cons, size_testA,
        size_jumpTo, codeSize_nil, Nat.add_zero, ← Nat.add_assoc] at hC hend ⊢
      obtain ⟨hCc, htest, hjump⟩ := hC
      obtain ⟨v, σ', m₁, hev, q₁, ha₁, -⟩ := E.run hB hV hV' hF hA hpc hCc (by omega)
      obtain ⟨m₂, q₂, -, -, hf₂⟩ := quiet_testA (F := g.scratchFloor) q₁.agrees q₁.pc htest
        (by omega)
      obtain ⟨m₃, q₃, -, -, -⟩ := quiet_jump (F := g.scratchFloor) q₂.agrees q₂.pc hjump hd
        (by omega)
      rw [hf₂, ha₁, (holds_testA v).1] at q₃
      refine ⟨v, σ', m₃, hev, ((q₁.trans q₂).trans q₃).to ?_⟩
      by_cases hv0 : v = 0 <;> simp [hv0]

/-- A loop's step: the step's code; an absent step has none. -/
theorem loopStep_steps {step : Option Expr} {s : List Line}
    (h : (step.map exprCode).getD (pure []) g = .ok (s, g')) : CodeSteps rom pos g g' s step := by
  cases step with
  | none =>
      obtain ⟨rfl, rfl⟩ := run_pure_eq_ok.1 h
      exact ⟨rfl, rfl, le_rfl, fun _ _ σ m _ _ _ _ _ hA hpc _ _ =>
        ⟨σ, m, rfl, Quiet.refl hA (by simpa using hpc)⟩⟩
  | some e =>
      have E : CodeEvaluates rom pos g g' s e := exprCode_evaluates e h
      refine ⟨E.vars, E.next, E.floor, fun sc V σ m o hB hV hV' hF hA hpc hC hend => ?_⟩
      obtain ⟨v, σ', m', hev, q, -, -⟩ := E.run hB hV hV' hF hA hpc hC hend
      exact ⟨σ', m', by simp [Expr.effect, hev], q⟩

/-- A loop's code: its start label, the test, the body, the step, the jump back to the start and
its end label. The machine follows each round from the start, and so the whole loop. -/
theorem loop_executes {cond step : Option Expr} {body : Stmt} {start done : String}
    {g₃ g₄ : Gen} {tc b s : List Line}
    (hstart : freshLabel g = .ok (start, g₁)) (hdone : freshLabel g₁ = .ok (done, g₂))
    (T : CodeTests rom pos g₂ g₃ tc cond done)
    (B : CodeExecutes rom pos g₃ g₄ b (fun fuel => body.exec fuel) body.scopeAfter)
    (S : CodeSteps rom pos g₄ g' s step) :
    CodeExecutes rom pos g g'
      ([.label start] ++ tc ++ b ++ s ++ [jumpTo .always start, .label done])
      (fun fuel sc => runLoop (loopRound sc cond (body.exec fuel sc) (body.scopeAfter sc) step) fuel)
      body.scopeAfter := by
  obtain ⟨hv₁, hn₁, hf₁⟩ := freshLabel_keeps hstart
  obtain ⟨hv₂, hn₂, hf₂⟩ := freshLabel_keeps hdone
  have hB₂ : ∀ {sc}, Binds g sc → Binds g₂ sc := fun hB =>
    hB.congr (hv₂.trans hv₁) (hn₂.trans hn₁)
  have hB₃ : ∀ {sc}, Binds g sc → Binds g₃ sc := fun hB => (hB₂ hB).congr T.vars T.next
  have hfT := T.floor
  have hfB := B.floor
  have hfS := S.floor
  have hnT := T.next
  have hnB := B.next_le
  have hnS := S.next
  refine ⟨fun sc hB => (B.binds (hB₃ hB)).congr S.vars S.next, by omega, by omega,
    fun fuel sc V σ m o hB hV hV' hF hA hpc hC hend => ?_⟩
  simp only [codeAt_append, codeAt_label_cons, codeAt_jumpTo_cons, codeAt_nil, and_true,
    codeSize_append, codeSize_cons, size_label, codeSize_nil, Nat.add_zero, Nat.zero_add,
    ← Nat.add_assoc] at hC
  simp only [codeSize_append, codeSize_cons, size_label, size_jumpTo, codeSize_nil, Nat.add_zero,
    Nat.zero_add, ← Nat.add_assoc] at hend ⊢
  obtain ⟨⟨⟨⟨hstartAt, hCt⟩, hCb⟩, hCs⟩, hjump, hdoneAt⟩ := hC
  refine runLoop_tracks (fun σ₀ m₀ hA₀ hpc₀ => ?_) fuel le_rfl σ m hA hpc
  -- one round, from the start
  obtain ⟨v, σ₁, m₁, htest, q₁⟩ := T.run (hB₂ hB) (by rw [← (hB₂ hB).next]; omega) (by omega)
    (by omega) hA₀ hpc₀ hCt hdoneAt (by omega)
  obtain ⟨k₁, hr₁⟩ := q₁.runs
  have hout₁ : σ₁.outputs = σ₀.outputs ++ [] := by
    simp [State.outputs, Expr.test_output htest]
  simp only [loopRound, htest]
  by_cases hv0 : v = 0
  · -- the condition is zero: the loop is over
    rw [if_pos hv0] at q₁ ⊢
    exact q₁.tracks (b := fuel) (Expr.test_output htest)
  rw [if_neg hv0] at q₁ ⊢
  have hb : Tracks rom V σ₁ m₁ _ fuel (body.exec fuel sc σ₁) :=
    B.run (hB₃ hB) (by omega) (by omega) (by omega) q₁.agrees q₁.pc hCb (by omega)
  cases hbody : body.exec fuel sc σ₁ with
  | fault =>
      rw [hbody] at hb
      exact hb.elim
  | timeout σ₂ =>
      rw [hbody] at hb
      exact (hb.after hr₁ hout₁).mono (by omega)
  | done σ₂ =>
      rw [hbody] at hb
      obtain ⟨k₂, outs₂, m₂, hr₂, hout₂, hpc₂, hA₂⟩ := hb
      have hB₄ := B.binds (hB₃ hB)
      obtain ⟨σ₃, m₃, heff, q₃⟩ := S.run hB₄ (by rw [← hB₄.next]; omega) (by omega) (by omega)
        hA₂ hpc₂ hCs (by omega)
      obtain ⟨k₃, hr₃⟩ := q₃.runs
      -- the jump back to the start
      obtain ⟨m₄, hr₄, hpc₄, hA₄⟩ := runs_jumpAlways q₃.agrees q₃.pc hjump hstartAt
      have hout₃ : σ₃.outputs = σ₂.outputs := by
        simp [State.outputs, Expr.effect_output heff]
      simp only [heff]
      refine ⟨k₁ + k₂ + k₃ + 1, [] ++ outs₂ ++ [] ++ [], m₄, ((hr₁.trans hr₂).trans hr₃).trans hr₄,
        ?_, by omega, hpc₄, hA₄⟩
      rw [hout₃, hout₂, hout₁]
      simp

/-- Every run of a loop's generation gives code that follows the loop. -/
theorem loopCode_executes {cond step : Option Expr} {body : Stmt}
    (B : Executes rom pos (stmtCode body) (fun fuel => body.exec fuel) body.scopeAfter)
    (h : loopCode (cond.map exprCode) (stmtCode body) (step.map exprCode) g = .ok (code, g')) :
    CodeExecutes rom pos g g' code
      (fun fuel sc => runLoop (loopRound sc cond (body.exec fuel sc) (body.scopeAfter sc) step) fuel)
      body.scopeAfter := by
  rw [loopCode_eq, Option.isSome_map] at h
  obtain ⟨start, g₁, hstart, h⟩ := run_bind_eq_ok.1 h
  obtain ⟨done, g₂, hdone, h⟩ := run_bind_eq_ok.1 h
  obtain ⟨tc, g₃, htc, h⟩ := run_bind_eq_ok.1 h
  obtain ⟨b, g₄, hb, h⟩ := run_bind_eq_ok.1 h
  obtain ⟨s, g₅, hs, h⟩ := run_bind_eq_ok.1 h
  obtain ⟨rfl, rfl⟩ := run_pure_eq_ok.1 h
  exact loop_executes hstart hdone (loopTest_tests htc) (B hb) (loopStep_steps hs)

end Loops

/-! ## Every statement -/

section Statements

variable {rom : Vector UInt8 romSize} {pos : String → Option Nat}

mutual

/-- The code of every statement follows it. -/
theorem stmtCode_executes : (s : Stmt) →
    Executes rom pos (stmtCode s) (fun fuel => s.exec fuel) s.scopeAfter
  | .expr e => fun _ _ _ h => expr_executes (exprCode_evaluates e h)
  | .output e => by
      intro g g' code h
      obtain ⟨c, g₁, hc, h⟩ := run_bind_eq_ok.1 h
      obtain ⟨rfl, rfl⟩ := run_pure_eq_ok.1 h
      exact output_executes (exprCode_evaluates e hc)
  | .varDecl name init => by
      intro g g' code h
      obtain ⟨addr, g₁, haddr, h⟩ := run_bind_eq_ok.1 h
      obtain ⟨u, g₂, hbind, h⟩ := run_bind_eq_ok.1 h
      obtain ⟨rfl, hv, hn, hf⟩ := declare_ok haddr hbind
      cases init with
      | none =>
          obtain ⟨rfl, rfl⟩ := run_pure_eq_ok.1 h
          exact varDecl_none_executes hv hn hf
      | some e =>
          obtain ⟨c, g₃, hc, h⟩ := run_bind_eq_ok.1 h
          obtain ⟨rfl, rfl⟩ := run_pure_eq_ok.1 h
          exact varDecl_some_executes hv hn hf (exprCode_evaluates e hc)
  | .block body => fun _ _ _ h => stmtsCode_executes body h
  | .ifElse cond th el => by
      intro g g' code h
      obtain ⟨elseL, g₁, helse, h⟩ := run_bind_eq_ok.1 h
      obtain ⟨endL, g₂, hend, h⟩ := run_bind_eq_ok.1 h
      obtain ⟨c, g₃, hc, h⟩ := run_bind_eq_ok.1 h
      obtain ⟨t, g₄, ht, h⟩ := run_bind_eq_ok.1 h
      obtain ⟨e, g₅, he, h⟩ := run_bind_eq_ok.1 h
      obtain ⟨rfl, rfl⟩ := run_pure_eq_ok.1 h
      exact ifElse_executes helse hend (exprCode_evaluates cond hc) (stmtCode_executes th ht)
        (optStmtCode_executes el he)
  | .whileLoop cond body => by
      intro g g' code h
      -- a `while` loop is a loop with a condition and no step
      have h' : loopCode ((some cond).map exprCode) (stmtCode body) ((none : Option Expr).map exprCode)
          g = .ok (code, g') := h
      exact loopCode_executes (stmtCode_executes body) h'
  | .forLoop init cond step body => by
      intro g g' code h
      obtain ⟨i, g₁, hi, h⟩ := run_bind_eq_ok.1 h
      obtain ⟨l, g₂, hl, h⟩ := run_bind_eq_ok.1 h
      obtain ⟨rfl, rfl⟩ := run_pure_eq_ok.1 h
      exact ((optStmtCode_executes init hi).seq (loopCode_executes (stmtCode_executes body) hl)).congr
        (fun fuel sc σ => Stmt.exec_forLoop fuel init cond step body sc σ) (fun _ => rfl)
  | .funDecl .. => fun _ _ _ h => absurd h run_throw
  | .returnStmt .. => fun _ _ _ h => absurd h run_throw

/-- The code of every optional statement follows it. -/
theorem optStmtCode_executes : (s : Option Stmt) →
    Executes rom pos (optStmtCode s) (fun fuel => Stmt.execOpt fuel s) (Stmt.scopeAfterOpt s)
  | some s => fun _ _ _ h => stmtCode_executes s h
  | none => fun _ _ _ h => by
      obtain ⟨rfl, rfl⟩ := run_pure_eq_ok.1 h
      exact executes_nil

/-- The code of every list of statements follows it. -/
theorem stmtsCode_executes : (ss : List Stmt) →
    Executes rom pos (stmtsCode ss) (fun fuel => Stmt.execAll fuel ss) (Stmt.scopeAfterAll ss)
  | [] => fun _ _ _ h => by
      obtain ⟨rfl, rfl⟩ := run_pure_eq_ok.1 h
      exact executes_nil
  | s :: rest => by
      intro g g' code h
      obtain ⟨a, g₁, ha, h⟩ := run_bind_eq_ok.1 h
      obtain ⟨b, g₂, hb, h⟩ := run_bind_eq_ok.1 h
      obtain ⟨rfl, rfl⟩ := run_pure_eq_ok.1 h
      exact ((stmtCode_executes s ha).seq (stmtsCode_executes rest hb)).congr
        (fun fuel sc σ => Stmt.execAll_cons fuel s rest sc σ) (fun _ => rfl)

end

end Statements

end ByteMachine.Compiler

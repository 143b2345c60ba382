import ByteMachine.Proofs.Compiler.Simulation
import ByteMachine.Proofs.Compiler.Literals
/-!
# Compiled programs run as their source

A compiled program, booted on any input, runs as the reference semantics runs the program it was
parsed from. The machine outputs what the program outputs, in order: after any number of steps
it has output a prefix of what the program outputs with at least that much fuel, and it reaches
every output the program makes with any fuel. It halts exactly when the program finishes, and
then every variable's RAM byte holds the variable's cell.

The proof runs the code of the program's statements from address 0 (`stmtsCode_executes`) and
adds the final `halt`. A loop that runs out of fuel is a run of at least as many steps as the
fuel, which is what ties the machine's step bound to the reference semantics' fuel.

## Main statements

* `boot_tracks`: booted on an input, a program's machine code follows the program's execution
  to its final `halt`.
* `compiled_program_follows_reference`: a compiled program's runs are the reference semantics'
  executions of the program.
-/

namespace ByteMachine.Compiler

open Source Machine Assembly

/-! ## The pipeline -/

/-- A program's lines: the code of its statements, then `halt`. -/
theorem generate_eq_ok {program : List Stmt} {lines : List Line}
    (h : generate program = .ok lines) :
    ∃ body g, stmtsCode program {} = .ok (body, g) ∧ lines = body ++ [.plain .halt] := by
  rw [generate] at h
  obtain ⟨⟨body, g⟩, hrun, rfl⟩ := map_eq_ok.1 h
  exact ⟨body, g, hrun, rfl⟩

/-- A compiled source's machine code assembles the lines generated for its parsed program. -/
theorem compile_eq_ok {source : String} {c : Compiled} {tokens : List Token}
    {program : List Stmt} (hc : compile source = .ok c) (htok : tokenize source = .ok tokens)
    (hparse : parseTokens tokens = .ok program) :
    ∃ lines, generate program = .ok lines ∧ assemble (lines.map Line.text) = .ok c.machineCode := by
  rw [compile] at hc
  obtain ⟨lines, hgen, hc⟩ := bind_eq_ok.1 hc
  obtain ⟨code, hasm, hc⟩ := bind_eq_ok.1 hc
  cases hc
  refine ⟨lines, ?_, mapError_eq_ok.1 hasm⟩
  rw [generateSource] at hgen
  obtain ⟨tokens', ht, hgen⟩ := bind_eq_ok.1 hgen
  obtain rfl : tokens' = tokens := Except.ok.inj ((mapError_eq_ok.1 ht).symm.trans htok)
  obtain ⟨program', hp, hgen⟩ := bind_eq_ok.1 hgen
  obtain rfl : program' = program := Except.ok.inj ((mapError_eq_ok.1 hp).symm.trans hparse)
  exact mapError_eq_ok.1 hgen

/-! ## The booted machine -/

/-- A booted machine stands for the state a program starts in: every RAM byte is zero. -/
theorem boot_agrees (bytes input : List UInt8) (V : Nat) :
    Agrees (romOf bytes) V (State.init input) (Machine.boot bytes input) :=
  ⟨rfl, rfl, rfl, fun k _ => by
    have hk : k.toUInt8.toNat < ramSize := k.toUInt8.toNat_lt
    change (Vector.replicate ramSize (0 : UInt8))[k.toUInt8.toNat] = 0
    exact Vector.getElem_replicate _⟩

/-- RAM byte `i` is the byte read at address `i`. -/
theorem ram_getElem?_eq_read (m : Machine) {i : Nat} (hi : i < ramSize) :
    m.ram[i]? = some (m.read i.toUInt8) := by
  have h : i.toUInt8.toNat = i := toNat_toUInt8_of_lt hi
  rw [Vector.getElem?_eq_getElem hi]
  change some m.ram[i] = some m.ram[i.toUInt8.toNat]
  simp only [h]

/-- Booted on an input, a program's machine code follows the program's execution, for every fuel,
to the final `halt`, with every variable byte below the next variable address. -/
theorem boot_tracks {program : List Stmt} {body : List Line} {g : Gen} {bytes : List UInt8}
    (hrun : stmtsCode program {} = .ok (body, g))
    (hasm : assemble ((body ++ [Line.plain .halt]).map Line.text) = .ok bytes)
    (hlen : bytes.length ≤ romSize) (fuel : Nat) (input : List UInt8) :
    (∀ m : Machine, m.rom = romOf bytes → m.pc.toNat = codeSize body →
      m.step = ⟨{ m with pc := m.pc + 1 }, none, false⟩) ∧
    g.nextAddress ≤ 256 ∧ g.nextAddress = (Stmt.scopeAfterAll program {}).next ∧
    Tracks (romOf bytes) g.nextAddress (State.init input) (Machine.boot bytes input) (codeSize body)
      fuel (runProgram fuel program input) := by
  have hgen : generate program = .ok (body ++ [.plain .halt]) := by
    rw [generate, show (stmtsCode program).run {} = .ok (body, g) from hrun]
    rfl
  have hC := codeAt_assembled hgen hasm hlen
  rw [codeAt_append, Nat.zero_add] at hC
  generalize (fun n => _) = pos at hC
  obtain ⟨hCb, hhalt, -⟩ := hC
  have hend : codeSize body < romSize := by
    obtain ⟨_, -, hb, -⟩ := hhalt
    exact lt_of_getElem?_eq_some hb
  have hS := stmtsCode_spilling program Gen.sound_empty hrun
  have E := @stmtsCode_executes (romOf bytes) pos program _ _ _ hrun
  have hB₀ : Binds {} ({} : Scope) := ⟨rfl, rfl⟩
  refine ⟨fun m hrom hpc => step_halt hrom hpc hhalt,
    le_trans hS.finish.next_le hS.finish.floor_le, (E.binds hB₀).next, ?_⟩
  have hpc : (Machine.boot bytes input).pc.toNat = 0 := rfl
  exact (E.run hB₀ le_rfl hS.finish.next_le le_rfl (boot_agrees bytes input _) hpc hCb
    (by omega)).to (Nat.zero_add _)

section Outcomes

variable {rom : Vector UInt8 romSize} {V e b : Nat} {σ₀ σ : State} {m₀ : Machine}

/-- A finished execution that the machine follows to a `halt`: every bounded run inside the run
has output a prefix of the execution's outputs, and every longer one halts after it with all of
them and the variables' bytes holding their cells. -/
theorem Tracks.done_runs (h : Tracks rom V σ₀ m₀ e b (.done σ)) (hσ₀ : σ₀.outputs = [])
    (hhalt : ∀ m : Machine, m.rom = rom → m.pc.toNat = e →
      m.step = ⟨{ m with pc := m.pc + 1 }, none, false⟩) :
    ∃ k, (∀ n ≤ k, (m₀.run n).outputs <+: σ.outputs ∧ (m₀.run n).outcome = .stepLimit n) ∧
      ∀ n, k < n → (m₀.run n).outputs = σ.outputs ∧ (m₀.run n).outcome = .halted (k + 1) ∧
        ∀ i < V, (m₀.run n).machine.read i.toUInt8 = σ.cells i := by
  obtain ⟨k, outs, m', hr, hout, hpc, hA⟩ := h
  rw [hσ₀, List.nil_append] at hout
  have hstep := hhalt m' hA.rom hpc
  refine ⟨k, fun n hn => hout ▸ run_of_runs_le hr hn, fun n hn => ?_⟩
  obtain ⟨extra, rfl⟩ : ∃ extra, n = k + 1 + extra := ⟨n - (k + 1), by omega⟩
  rw [run_of_runs_halt hr (by rw [hstep]) extra, hstep]
  exact ⟨by simp [hout], rfl, hA.cells⟩

/-- An execution out of fuel that the machine follows: the machine runs at least `b` steps
without halting, and after them it has output what the execution has. -/
theorem Tracks.timeout_runs (h : Tracks rom V σ₀ m₀ e b (.timeout σ)) (hσ₀ : σ₀.outputs = []) :
    ∃ k, b ≤ k ∧ (m₀.run k).outputs = σ.outputs ∧
      ∀ n ≤ k, (m₀.run n).outputs <+: σ.outputs ∧ (m₀.run n).outcome = .stepLimit n := by
  obtain ⟨k, outs, m', hr, hout, hk⟩ := h
  rw [hσ₀, List.nil_append] at hout
  exact ⟨k, hk, by rw [run_of_runs hr, hout], fun n hn => hout ▸ run_of_runs_le hr hn⟩

end Outcomes

/-! ## Compiled programs -/

/-- A compiled program runs as the reference semantics runs the program it was parsed from.
Booted on any input, after any number of steps the machine has output a prefix of what the
program outputs with at least as much fuel, and it reaches everything the program outputs with
any fuel. It halts exactly when the program finishes with some fuel, and then it has output what
the program outputs and RAM byte `i` holds the cell of the program's `i`-th declaration. -/
theorem compiled_program_follows_reference {source : String} {c : Compiled}
    {tokens : List Token} {program : List Stmt} (hc : compile source = .ok c)
    (hlen : c.machineCode.length ≤ romSize) (htok : tokenize source = .ok tokens)
    (hparse : parseTokens tokens = .ok program) (input : List UInt8) :
    (∀ n fuel, n ≤ fuel → ((Machine.boot c.machineCode input).run n).outputs <+:
      (runProgram fuel program input).outputs) ∧
    (∀ fuel, ∃ n,
      ((Machine.boot c.machineCode input).run n).outputs = (runProgram fuel program input).outputs) ∧
    ((∃ n k, ((Machine.boot c.machineCode input).run n).outcome = .halted k) ↔
      ∃ fuel σ, runProgram fuel program input = .done σ) ∧
    ∀ n k fuel σ, ((Machine.boot c.machineCode input).run n).outcome = .halted k →
      runProgram fuel program input = .done σ →
      ((Machine.boot c.machineCode input).run n).outputs = σ.outputs ∧
      ∀ i < (Stmt.scopeAfterAll program {}).next,
        ((Machine.boot c.machineCode input).run n).machine.ram[i]? = some (σ.cells i) := by
  obtain ⟨lines, hgen, hasm⟩ := compile_eq_ok hc htok hparse
  obtain ⟨body, g, hrun, rfl⟩ := generate_eq_ok hgen
  -- for every fuel, the booted machine follows the execution to the final `halt`
  have follows := fun fuel => boot_tracks hrun hasm hlen fuel input
  have hσ₀ : (State.init input).outputs = [] := rfl
  refine ⟨fun n fuel hn => ?_, fun fuel => ?_, ⟨fun h => ?_, fun h => ?_⟩,
    fun n k fuel σ hk hσ => ?_⟩
  · -- outputs so far
    obtain ⟨hhalt, -, -, hT⟩ := follows fuel
    cases hr : runProgram fuel program input with
    | done σ =>
        rw [hr] at hT
        obtain ⟨K, hin, hafter⟩ := hT.done_runs hσ₀ hhalt
        by_cases hnK : n ≤ K
        · exact (hin n hnK).1
        · rw [(hafter n (by omega)).1]
          exact List.prefix_refl _
    | timeout σ =>
        rw [hr] at hT
        obtain ⟨K, hK, -, hin⟩ := hT.timeout_runs hσ₀
        exact (hin n (by omega)).1
    | fault =>
        rw [hr] at hT
        exact hT.elim
  · -- every output is reached
    obtain ⟨hhalt, -, -, hT⟩ := follows fuel
    cases hr : runProgram fuel program input with
    | done σ =>
        rw [hr] at hT
        obtain ⟨K, -, hafter⟩ := hT.done_runs hσ₀ hhalt
        exact ⟨K + 1, (hafter (K + 1) (by omega)).1⟩
    | timeout σ =>
        rw [hr] at hT
        obtain ⟨K, -, hout, -⟩ := hT.timeout_runs hσ₀
        exact ⟨K, hout⟩
    | fault =>
        rw [hr] at hT
        exact hT.elim
  · -- a machine that halts within `n` steps runs a program that finishes with fuel `n`
    obtain ⟨n, k, hk⟩ := h
    obtain ⟨-, -, -, hT⟩ := follows n
    cases hr : runProgram n program input with
    | done σ => exact ⟨n, σ, hr⟩
    | timeout σ =>
        rw [hr] at hT
        obtain ⟨K, hK, -, hin⟩ := hT.timeout_runs hσ₀
        rw [(hin n hK).2] at hk
        cases hk
    | fault =>
        rw [hr] at hT
        exact hT.elim
  · obtain ⟨fuel, σ, hσ⟩ := h
    obtain ⟨hhalt, -, -, hT⟩ := follows fuel
    rw [hσ] at hT
    obtain ⟨K, -, hafter⟩ := hT.done_runs hσ₀ hhalt
    exact ⟨K + 1, K + 1, (hafter (K + 1) (by omega)).2.1⟩
  · -- the halted machine holds the finished execution's outputs and cells
    obtain ⟨hhalt, hV, hnext, hT⟩ := follows fuel
    rw [hσ] at hT
    obtain ⟨K, hin, hafter⟩ := hT.done_runs hσ₀ hhalt
    have hnK : K < n := by
      by_contra hle
      rw [(hin n (by omega)).2] at hk
      cases hk
    obtain ⟨hout, -, hcells⟩ := hafter n hnK
    refine ⟨hout, fun i hi => ?_⟩
    rw [← hnext] at hi
    rw [ram_getElem?_eq_read _ (by simp only [ramSize]; omega), hcells i hi]

/-- `out 7`, compiled and booted on no input, outputs 7. -/
theorem output_seven_reaches_its_output :
    compile "out 7" = .ok ⟨["load rom a 7", "out a", "halt"], [208, 7, 244, 255]⟩ ∧
      ∃ n, ((Machine.boot [208, 7, 244, 255] []).run n).outputs = [7] := by
  obtain ⟨p₁, p₂, htok⟩ :=
    tokenize_out_number (show readToken '7' [] = .ok (some (.number, "7"), [].length) from rfl)
  have hparse := parseTokens_out_number "7" {} p₁ p₂
  have hgen : generate [.output (.num "7")] =
      .ok [loadConst 7, .plain (.output .a), .plain .halt] := rfl
  have hasm : assemble ([loadConst 7, .plain (.output .a), .plain .halt].map Line.text) =
      .ok [208, 7, 244, 255] := by
    decide +kernel
  have hc : compile "out 7" = .ok ⟨["load rom a 7", "out a", "halt"], [208, 7, 244, 255]⟩ := by
    rw [compile, generateSource]
    simp only [show "out 7" = "out " ++ String.ofList ['7'] from rfl, htok, Except.mapError,
      ok_bind, hparse, hgen, hasm]
    rfl
  obtain ⟨-, hreach, -, -⟩ := compiled_program_follows_reference hc (by decide) htok hparse []
  obtain ⟨n, hn⟩ := hreach 0
  exact ⟨hc, n, hn.trans (by decide +kernel)⟩

end ByteMachine.Compiler

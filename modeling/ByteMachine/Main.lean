import ByteMachine.Compiler.Pipeline
import ByteMachine.Fixture.Check
import ByteMachine.Listing
/-!
# The command line

`compile`, `assemble`, `run`, `disasm` and `check` read files, call the library and write files
or print. `-v` raises and `-q` lowers how much is reported on standard error; a failure is
reported there and ends the program with exit code 1.
-/

namespace ByteMachine.Cli

/-- What a command asks for. -/
inductive Command where
  | compile (source : String) (output : Option String) (emitAsm listing : Bool)
  | assemble (source : String) (output : Option String)
  | run (program : String) (maxSteps : Nat) (input : List UInt8) (fromSource : Bool)
  | disasm (program : String)
  | check (source expect : String)

/-- The decoded command line: how much to report (0 errors, 1 warnings, 2 progress, 3 details)
and the command. -/
structure Invocation where
  level : Nat
  command : Command

/-- Options and positional words of a command line. -/
structure Words where
  verbose : Nat := 0
  quiet : Bool := false
  output : Option String := none
  emitAsm : Bool := false
  listing : Bool := false
  maxSteps : Option String := none
  input : Option String := none
  fromSource : Bool := false
  positional : Array String := #[]

/-- Sorts the words of a command line into options and positional words. -/
def Words.read (w : Words) : List String → Except String Words
  | [] => .ok w
  | "-v" :: rest | "--verbose" :: rest => Words.read { w with verbose := w.verbose + 1 } rest
  | "-q" :: rest | "--quiet" :: rest => Words.read { w with quiet := true } rest
  | "-o" :: v :: rest | "--output" :: v :: rest => Words.read { w with output := some v } rest
  | "--emit-asm" :: rest => Words.read { w with emitAsm := true } rest
  | "--listing" :: rest => Words.read { w with listing := true } rest
  | "--max-steps" :: v :: rest => Words.read { w with maxSteps := some v } rest
  | "--input" :: v :: rest => Words.read { w with input := some v } rest
  | "--source" :: rest => Words.read { w with fromSource := true } rest
  | a :: rest =>
    if a.startsWith "-" && a.length > 1 then .error ("unexpected argument '" ++ a ++ "'")
    else Words.read { w with positional := w.positional.push a } rest

/-- Reads a list of bytes separated by commas. -/
def readInputs (text : String) : Except String (List UInt8) :=
  (text.toList.splitOn ',').mapM fun item =>
    match Text.readInteger? false item with
    | some v => if v < 256 then .ok v.toNat.toUInt8 else .error ("invalid byte '" ++ String.ofList item ++ "'")
    | none => .error ("invalid byte '" ++ String.ofList item ++ "'")

/-- Decodes a command line. -/
def parseArgs (args : List String) : Except String Invocation := do
  match args with
  | [] => throw "missing command: compile, assemble, run, disasm or check"
  | cmd :: rest =>
    let w ← ({} : Words).read rest
    let level := if w.quiet then 0 else min 3 (2 + w.verbose)
    let command ← match cmd, w.positional.toList with
      | "compile", [src] => pure (Command.compile src w.output w.emitAsm w.listing)
      | "assemble", [src] => pure (Command.assemble src w.output)
      | "run", [prog] => do
        let steps ← match w.maxSteps with
          | some s => match s.toNat? with
            | some n => pure n
            | none => throw ("invalid step count '" ++ s ++ "'")
          | none => pure 10000
        let input ← match w.input with
          | some s => readInputs s
          | none => pure []
        pure (Command.run prog steps input w.fromSource)
      | "disasm", [prog] => pure (Command.disasm prog)
      | "check", [src, expect] => pure (Command.check src expect)
      | other, _ => throw ("unknown command or wrong arguments: " ++ other)
    pure ⟨level, command⟩

/-- A path with its extension replaced, or added when it has none. -/
def withExtension (path ext : String) : String :=
  let cs := path.toList
  let name := (cs.reverse.takeWhile (· ≠ '/')).reverse
  let dir := cs.take (cs.length - name.length)
  let stem := match name.reverse.span (· ≠ '.') with
    | (_, '.' :: before) => if before.isEmpty then name else before.reverse
    | _ => name
  String.ofList (dir ++ stem) ++ "." ++ ext

end ByteMachine.Cli

open ByteMachine ByteMachine.Cli in
/-- Runs the command line. -/
def main (args : List String) : IO UInt32 := do
  let stderr ← IO.getStderr
  let report (level : Nat) (tag msg : String) (limit : Nat) : IO Unit :=
    if level ≤ limit then stderr.putStrLn ("[" ++ tag ++ "] " ++ msg) else pure ()
  match parseArgs args with
  | .error msg =>
    stderr.putStrLn ("[ERROR] " ++ msg)
    pure 1
  | .ok inv =>
    let lvl := inv.level
    let fail (msg : String) : IO UInt32 := do
      report 0 "ERROR" msg lvl
      pure 1
    let readText (path : String) : IO (Except String String) := do
      try pure (.ok (← IO.FS.readFile path))
      catch e => pure (.error ("could not read " ++ path ++ ": " ++ toString e))
    let readBytes (path : String) : IO (Except String (List UInt8)) := do
      try pure (.ok (← IO.FS.readBinFile path).toList)
      catch e => pure (.error ("could not read " ++ path ++ ": " ++ toString e))
    let writeOut (path : String) (bytes : ByteArray) : IO (Except String Unit) := do
      try
        IO.FS.writeBinFile path bytes
        report 2 "INFO " ("wrote " ++ path) lvl
        pure (.ok ())
      catch e => pure (.error ("could not write " ++ path ++ ": " ++ toString e))
    let stdout ← IO.getStdout
    match inv.command with
    | .compile src output emitAsm withListing =>
      match ← readText src with
      | .error e => fail e
      | .ok text =>
        match Compiler.compile text with
        | .error e => fail (src ++ ": " ++ e.message)
        | .ok c =>
          let asm := "\n".intercalate c.assembly ++ "\n"
          report 2 "INFO " ("compiled " ++ src ++ " to " ++ toString c.machineCode.length ++ " bytes") lvl
          let out := output.getD (withExtension src "o")
          if out = "-" then
            if emitAsm then stdout.putStrLn asm
            stdout.putStr (hexDump c.machineCode)
            stdout.putStr ("\n" ++ listing c.machineCode)
            pure 0
          else
            match ← writeOut out ⟨c.machineCode.toArray⟩ with
            | .error e => fail e
            | .ok () =>
              let r1 ← if emitAsm then writeOut (out ++ ".asm") asm.toUTF8 else pure (.ok ())
              let r2 ← if withListing then writeOut (out ++ ".txt") (listing c.machineCode).toUTF8
                else pure (.ok ())
              match r1, r2 with
              | .error e, _ | _, .error e => fail e
              | .ok (), .ok () => pure 0
    | .assemble src output =>
      match ← readText src with
      | .error e => fail e
      | .ok text =>
        match Assembly.assembleText text with
        | .error e => fail (src ++ ": " ++ e.message)
        | .ok bytes =>
          report 2 "INFO " ("assembled " ++ src ++ " to " ++ toString bytes.length ++ " bytes") lvl
          let out := output.getD (withExtension src "o")
          if out = "-" then
            stdout.putStr (hexDump bytes)
            pure 0
          else
            match ← writeOut out ⟨bytes.toArray⟩ with
            | .error e => fail e
            | .ok () => pure 0
    | .run prog maxSteps input fromSource =>
      let program ← if fromSource then do
          match ← readText prog with
          | .error e => pure (Except.error e)
          | .ok text => pure ((Compiler.compile text).map (·.machineCode) |>.mapError
              fun e => prog ++ ": " ++ e.message)
        else readBytes prog
      match program with
      | .error e => fail e
      | .ok bytes =>
        report 3 "DEBUG" ("loaded " ++ toString bytes.length ++ " bytes from " ++ prog ++ ":\n" ++
          listing bytes) lvl
        let r := (Machine.boot bytes input).run maxSteps
        for v in r.outputs do
          stdout.putStrLn (toString v)
        match r.outcome with
        | .halted n => report 2 "INFO " ("halted after " ++ toString n ++ " steps") lvl
        | .stepLimit n =>
          report 1 "WARN " ("stopped at the " ++ toString n ++ " step limit without halting") lvl
        pure 0
    | .disasm prog =>
      match ← readBytes prog with
      | .error e => fail e
      | .ok bytes =>
        stdout.putStr (listing bytes)
        pure 0
    | .check src expect =>
      match ← readText src with
      | .error e => fail e
      | .ok text =>
        match ← readText expect with
        | .error e => fail e
        | .ok expectText =>
          match Fixture.Expectation.parse expectText with
          | .error e => fail (expect ++ ": " ++ e.message)
          | .ok x =>
            match Fixture.checkSource text x with
            | .error e => fail (src ++ ": " ++ e.message)
            | .ok r =>
              if r.passed then
                report 2 "INFO " (src ++ ": ok (" ++ toString r.steps ++ " steps)") lvl
                pure 0
              else fail (src ++ ": fixture failed: " ++ "; ".intercalate r.failures)

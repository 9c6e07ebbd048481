import Mudscript.Command

/-!
# The program

The command line on the console of the system.
-/

namespace Mudscript

def FileError.ofSystem (e : IO.Error) : FileError :=
  match e with
  | .noFileOrDirectory .. => .notFound
  | .inappropriateType none _ _ => .isDirectory
  | .inappropriateType (some _) _ _ => .notDirectory
  | e => .system (toString e)

def Console.system (started : Nat) : Console IO where
  textOf := fun path => do
    try return Files.decode (← IO.FS.readBinFile path)
    catch e => return .error (.ofSystem e)
  fileExists := fun path => do
    try discard (IO.FS.readBinFile path); return true
    catch
      | .noFileOrDirectory .. | .inappropriateType (some _) _ _ => return false
      | _ => return true
  save := fun path text => do
    try IO.FS.writeFile path text
    catch _ => pure ()
  variableOf := fun name => IO.getEnv name
  readLine := do
    let line ← (← IO.getStdin).getLine
    return (Text.lines line).head?
  print := fun text => do
    let output ← IO.getStdout
    output.putStr text
    output.flush
  report := fun text => do (← IO.getStderr).putStr text
  time := return .ofDecimal ((← IO.monoNanosNow) - started) 9

end Mudscript

def main (arguments : List String) : IO UInt32 := do
  let console := Mudscript.Console.system (← IO.monoNanosNow)
  return (← console.run arguments (Nat.pow 2 62)).code

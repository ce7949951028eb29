import Stencil.Command
import Stencil.Snapshot

/-!
# The program

The program carries out a command on a snapshot of the file system, asks the file
system about the files that were missing from it, and starts again until there is
nothing new to ask. Then it prints how the command ended.
-/

namespace Stencil

/-- The reason an input or output action failed. -/
def loadError (path : Path) : IO.Error → LoadError
  | .noFileOrDirectory .. => .missing path
  | error => .refused (toString error)

/-- Asks the file system about a path. -/
def ask (path : Path) : IO Snapshot.Answer := do
  let canonical ←
    try
      let found ← IO.FS.realPath path.text
      pure (.ok ⟨found.toString⟩)
    catch error => pure (.error (loadError path error))
  let text ←
    try
      let bytes ← IO.FS.readBinFile path.text
      match String.fromUTF8? bytes with
      | some text => pure (.ok text)
      | none => pure (.error .invalidEncoding)
    catch error => pure (.error (loadError path error))
  return ⟨canonical, text⟩

/-- Adds what is known about a path, and about its canonical path, to a snapshot. -/
def learn (snapshot : Snapshot) (path : Path) : IO Snapshot := do
  let answer ← ask path
  let snapshot := snapshot.add path answer
  match answer.canonical with
  | .ok canonical =>
      if snapshot.contains canonical then return snapshot
      else return snapshot.add canonical ⟨.ok canonical, answer.text⟩
  | .error _ => return snapshot

/-- Carries out a command on larger and larger snapshots. -/
partial def carryOut (here : Path) (start : Nat) (arguments : List String) (snapshot : Snapshot) :
    IO Command.Ending := do
  let milliseconds : Json.Number := .integer ((← IO.monoMsNow) - start : Nat)
  let ending := Command.runArguments snapshot.loader here milliseconds arguments
  match ending.absent.filter fun path => !snapshot.contains path with
  | [] => return ending
  | unknown => do
      let snapshot ← unknown.foldlM learn snapshot
      carryOut here start arguments snapshot

end Stencil

def main (arguments : List String) : IO UInt32 := do
  let here : Stencil.Path := ⟨(← IO.currentDir).toString⟩
  let ending ← Stencil.carryOut here (← IO.monoMsNow) arguments .empty
  IO.print ending.output
  match ending.failure with
  | some failure => IO.eprintln s!"Error: {failure.message}"
  | none => if ending.exit == 2 then IO.eprintln Stencil.Command.helpText
  return ending.exit.toUInt32

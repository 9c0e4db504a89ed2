import Midrange.CommandLine.Run

namespace Midrange.CommandLine

/-- What the file system has to tell about some paths: the bytes of the files among them, and which
    of the places on the way are directories. -/
def lookAround (paths : List Path) : IO Files := do
  let here ← IO.currentDir
  let mut files : Files := {}
  for place in paths.flatMap Path.places do
    if ← (here / place.text).isDir then
      files := { files with directories := place.text :: files.directories }
    else if ← (here / place.text).pathExists then
      let bytes ← IO.FS.readBinFile (here / place.text)
      files := { files with present := (place.text, bytes.toList) :: files.present }
  return files

/-- The paths that a command reads or writes. -/
def pathsOf (arguments : List String) : List Path :=
  match command arguments with
  | .ok (.run settings) =>
    settings.input :: settings.hints.reduceOption ++ settings.output.toList ++
      settings.graph.toList ++ settings.logFile.toList.map Path.direct
  | _ => []

/-- Shows and writes what a command has come to. -/
def deliver (outcome : Outcome) : IO UInt32 := do
  (← IO.getStderr).putStr outcome.errors
  for (path, text) in outcome.written do
    IO.FS.writeFile path text
  match outcome.log with
  | some (path, journal) => IO.FS.withFile path .append fun file => file.putStr (logText journal)
  | none => pure ()
  (← IO.getStdout).putStr outcome.output
  return outcome.status.toUInt32

end Midrange.CommandLine

open Midrange.CommandLine

/-- Runs the command that the arguments make on the real files. -/
def main (arguments : List String) : IO UInt32 := do
  match run arguments (← lookAround (pathsOf arguments)) with
  | .ok outcome => deliver outcome
  | .error fault =>
    (← IO.getStderr).putStrLn fault.message
    return 1

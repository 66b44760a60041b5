/-
The command itself: reading, writing and the exit code.
-/
import ExprLang.CommandLine

namespace ExprLang

/-- All bytes of a stream up to its end. -/
partial def readToEnd (stream : IO.FS.Stream) (bytes : ByteArray) : IO ByteArray := do
  let more ← stream.read 65536
  if more.isEmpty then pure bytes else readToEnd stream (bytes ++ more)

/-- Why a read failed.  Of the two causes that share a class, only the one met on opening names the
file. -/
def ReadFailure.ofError : IO.Error → ReadFailure
  | .noFileOrDirectory .. => .notFound
  | .inappropriateType none .. => .isDirectory
  | .inappropriateType (some _) .. => .notDirectory
  | .permissionDenied .. => .notPermitted
  | .invalidArgument _ _ "name too long" => .nameTooLong
  | error => .other (toString error)

/-- What is at a path, or comes in when there is none. -/
def readInput (path : Option String) : IO (Except ReadFailure ByteArray) := do
  try
    match path with
    | none => return .ok (← readToEnd (← IO.getStdin) ByteArray.empty)
    | some path => return .ok (← IO.FS.readBinFile path)
  catch error => return .error (.ofError error)

end ExprLang

open ExprLang in
/-- Answers the request that the arguments make. -/
def main (args : List String) : IO UInt32 := do
  let request := Request.ofArguments args
  let input ← match request with
    | .process _ path => readInput path
    | _ => pure (.ok ByteArray.empty)
  let reply := Reply.ofRequest (fun _ => input) request
  IO.print reply.stdout
  IO.eprint reply.stderr
  return reply.code

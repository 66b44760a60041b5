/-
A working directory given by its files, as something to read from.  Nothing is known of what lies
outside it.  Only the test driver uses it, which runs the command on files that it makes up; the
command itself reads what the file system has.
-/
import ExprLang.CommandLine

namespace ExprLang

/-- The parts of a path between slashes, those that lead nowhere left out. -/
def pathSteps (path : String) : List String :=
  (path.splitOn "/").filter fun step => step != "" && step != "."

/-- Whether the end of a path says that it names a directory. -/
def namesDirectory (path : String) : Bool :=
  match (path.splitOn "/").getLast? with
  | some step => step == "" || step == "."
  | none => false

/-- A name may have this many bytes. -/
def maxNameBytes : Nat := 255

/-- A path may have this many bytes. -/
def maxPathBytes : Nat := 4095

/-- The files below a directory, by their path from it. -/
structure Directory where
  files : List (String × ByteArray)

namespace Directory

/-- The file at this place. -/
def file? (directory : Directory) (place : List String) : Option ByteArray :=
  (directory.files.find? fun file => pathSteps file.1 == place).map Prod.snd

/-- Whether there are files below this place. -/
def isInner (directory : Directory) (place : List String) : Bool :=
  directory.files.any fun file => place.isPrefixOf (pathSteps file.1)

/-- What a walk outside the directory comes to: further outwards are only directories. -/
def walkOutside : List String → Except ReadFailure ByteArray
  | [] => .error .isDirectory
  | step :: rest =>
      if step == ".." then walkOutside rest
      else if step.utf8ByteSize > maxNameBytes then .error .nameTooLong
      else .error .notFound

/-- What a walk comes to from a place that is a directory.  A file ends it, and has to be the last
step of a path that does not name a directory. -/
def walk (directory : Directory) (toDirectory : Bool) :
    List String → List String → Except ReadFailure ByteArray
  | _, [] => .error .isDirectory
  | place, step :: rest =>
      if step == ".." then
        if place.isEmpty then walkOutside rest
        else walk directory toDirectory place.dropLast rest
      else if step.utf8ByteSize > maxNameBytes then .error .nameTooLong
      else
        match directory.file? (place ++ [step]) with
        | some bytes =>
            if rest.isEmpty && !toDirectory then .ok bytes else .error .notDirectory
        | none =>
            if directory.isInner (place ++ [step]) then
              walk directory toDirectory (place ++ [step]) rest
            else .error .notFound

/-- What is at a path. -/
def read (directory : Directory) (path : String) : Except ReadFailure ByteArray :=
  if path.utf8ByteSize > maxPathBytes then .error .nameTooLong
  else if path.startsWith "/" then walkOutside (pathSteps path)
  else directory.walk (namesDirectory path) [] (pathSteps path)

end Directory

/-- The answer of the command to its arguments, in a directory and with the bytes that come in. -/
def Reply.inDirectory (directory : Directory) (stdin : ByteArray) (arguments : List String) :
    Reply :=
  Reply.ofRequest
    (fun path =>
      match path with
      | none => .ok stdin
      | some path => directory.read path)
    (Request.ofArguments arguments)

end ExprLang

/-
The program on the files of the machine it runs on.
-/
import Divisi.CommandLine

namespace Divisi.Main

/-- The words and the number of a failure of the file system. -/
def reason : IO.Error → String
  | .alreadyExists _ code details | .noFileOrDirectory _ code details
  | .permissionDenied _ code details | .resourceExhausted _ code details
  | .inappropriateType _ code details | .noSuchThing _ code details
  | .invalidArgument _ code details | .interrupted _ code details
  | .otherError code details | .resourceBusy code details | .resourceVanished code details
  | .unsupportedOperation code details | .hardwareFault code details
  | .unsatisfiedConstraints code details | .illegalOperation code details
  | .protocolError code details | .timeExpired code details => s!"{details} (os error {code})"
  | .unexpectedEof => "unexpected end of file"
  | .userError details => details

def readBytes (path : String) : IO ByteArray := do
  let file ← IO.FS.Handle.mk path .read
  file.readBinToEnd

def readText (path : String) : IO (Except String String) := do
  match ← (readBytes path).toBaseIO with
  | .error e => return .error (reason e)
  | .ok bytes =>
    match String.fromUTF8? bytes with
    | none => return .error "stream did not contain valid UTF-8"
    | some text => return .ok text

def writeText (path text : String) : IO (Except String Unit) := do
  match ← (IO.FS.writeFile path text).toBaseIO with
  | .error e => return .error (reason e)
  | .ok () => return .ok ()

end Divisi.Main

open Divisi in
def main (arguments : List String) : IO UInt32 := do
  let exit ← CommandLine.run { read := Main.readText, write := Main.writeText } arguments
  (← IO.getStderr).putStr exit.err
  (← IO.getStdout).putStr exit.out
  return exit.status.toUInt32

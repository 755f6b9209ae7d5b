import SsaIr.Command.App

/-!
# The program

The command line tool over the files of the system. Texts are octets inside the library and bytes
outside.
-/

namespace SsaIr

def bytesOf (text : String) : ByteArray := ⟨(Text.toBytes text).toArray⟩

def fileReasonOf : IO.Error → FileReason
  | .noFileOrDirectory .. => .missing
  | .permissionDenied .. => .denied
  | .inappropriateType _ _ details =>
    if details.toLower = FileReason.notDirectory.message then .notDirectory else .isDirectory
  | .invalidArgument _ _ details =>
    if details.toLower = FileReason.nameTooLong.message then .nameTooLong else .invalidPath
  | e => .other (Text.ofUtf8 (toString e))

def systemName (path : String) : String :=
  (String.fromUTF8? (bytesOf path)).getD path

instance : FileAccess IO where
  load path := do
    try
      let bytes ← IO.FS.readBinFile (systemName path)
      return .ok (Text.ofBytes bytes.toList)
    catch e =>
      let reason := fileReasonOf e
      return .error ⟨if reason = .isDirectory then .reading else .opening, path, reason⟩
  save path content := do
    try
      IO.FS.writeBinFile (systemName path) (bytesOf content)
      return .ok ()
    catch e => return .error ⟨.opening, path, fileReasonOf e⟩

end SsaIr

open SsaIr

def main (args : List String) : IO UInt32 := do
  let (result, transcript) ← ((App.run (args.map Text.ofUtf8) : Tool IO Unit).run).run {}
  let out ← IO.getStdout
  let err ← IO.getStderr
  out.write (bytesOf transcript.out)
  if transcript.help then out.putStr App.helpText
  err.write (bytesOf transcript.err)
  match result with
  | .ok _ => return 0
  | .error e =>
    err.write (bytesOf (e.message ++ "\n"))
    return 1

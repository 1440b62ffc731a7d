/-!
# Faults of files

What can go wrong with a file that is to be read or written, in the system's words.
-/

namespace MethodTrace

inductive FileFault where
  | missing
  | denied
  | notDirectory
  | directory
  | nameTooLong
  | notText
  /-- Anything else, as the system describes it. -/
  | other (description : String)
deriving DecidableEq

def FileFault.message : FileFault → String
  | missing => "No such file or directory (os error 2)"
  | denied => "Permission denied (os error 13)"
  | notDirectory => "Not a directory (os error 20)"
  | directory => "Is a directory (os error 21)"
  | nameTooLong => "File name too long (os error 36)"
  | notText => "stream did not contain valid UTF-8"
  | other description => description

end MethodTrace

import Repertoire.Manifest.Kind

/-!
# Errors

The causes for which an operation fails, with the message of each. Messages that quote the words
of another program, or of the operating system, end in the words given here.
-/

namespace Repertoire

/-- The kind of a named entry that was looked for or added. -/
inductive EntryKind where
  | skill
  | tool
deriving DecidableEq, Repr

/-- The formats in which a manifest can be written. -/
inductive ManifestFormat where
  | structured
  | narrative
  | json
deriving DecidableEq, Repr

/-- Why something at a path could not be used. -/
inductive FileFault where
  | missing
  | notDirectory
  | isDirectory
  | alreadyThere
  | tooManyLinks
  | nameTooLong
  | notText
  | badName
  | cutShort
deriving DecidableEq, Repr

/-- The cause of a failure. -/
inductive Error where
  | invalidArgument (text : String)
  | notFound (kind : EntryKind) (name : String)
  | alreadyExists (kind : EntryKind) (name : String)
  | fileNotFound (path : String)
  | readFailed (path : String) (fault : FileFault)
  | outOfMemory (what : String)
  | validation (text : String)
  | notImplemented (kind : ToolKind)
  | malformed (format : ManifestFormat) (detail : String)
  | notInitialized
  | io (fault : FileFault)
  | json
  | http
  | message (text : String)
deriving DecidableEq, Repr

/-- The name of a kind of entry. -/
def EntryKind.name : EntryKind → String
  | .skill => "skill"
  | .tool => "tool"

/-- The name of a format. -/
def ManifestFormat.name : ManifestFormat → String
  | .structured => "toml"
  | .narrative => "markdown"
  | .json => "json"

/-- The words of the operating system for a fault. -/
def FileFault.text : FileFault → String
  | .missing => "No such file or directory (os error 2)"
  | .notDirectory => "Not a directory (os error 20)"
  | .isDirectory => "Is a directory (os error 21)"
  | .alreadyThere => "File exists (os error 17)"
  | .tooManyLinks => "Too many levels of symbolic links (os error 40)"
  | .nameTooLong => "File name too long (os error 36)"
  | .notText => "stream did not contain valid UTF-8"
  | .badName => "file name contained an unexpected NUL byte"
  | .cutShort => "unexpected end of file"

namespace Error

/-- The message of an error. -/
def text : Error → String
  | .invalidArgument text => "invalid argument: " ++ text
  | .notFound kind name => kind.name ++ " '" ++ name ++ "' not found"
  | .alreadyExists kind name => kind.name ++ " '" ++ name ++ "' already exists"
  | .fileNotFound path => "file not found: " ++ path
  | .readFailed path fault => "failed to read " ++ path ++ ": " ++ fault.text
  | .outOfMemory what => "out of memory while growing the " ++ what
  | .validation text => "validation failed: " ++ text
  | .notImplemented kind => "tool kind '" ++ kind.name ++ "' has no execution strategy"
  | .malformed format detail => "malformed " ++ format.name ++ " manifest: " ++ detail
  | .notInitialized => "skill registry is not initialized"
  | .io fault => fault.text
  | .json => "the value has no JSON form"
  | .http => "the remote could not be reached"
  | .message text => text

/-- Something that was named is not there. -/
def isNotFound : Error → Bool
  | .notFound .. => true
  | .fileNotFound _ => true
  | _ => false

/-- A name is already taken. -/
def isAlreadyExists : Error → Bool
  | .alreadyExists .. => true
  | _ => false

/-- A manifest is not fit for use. -/
def isValidation : Error → Bool
  | .validation _ => true
  | _ => false

/-- The error ends an operation on many things at once instead of being collected. -/
def isFatal : Error → Bool
  | .outOfMemory _ => true
  | _ => false

end Error

/-- A result whose failure is told as a message behind a context. -/
def withContext {α : Type} (context : String) : Except String α → Except Error α
  | .ok a => .ok a
  | .error cause => .error (.message (context ++ ": " ++ cause))

/-- An optional value whose absence is told as a message. -/
def orContext {α : Type} (context : String) : Option α → Except Error α
  | some a => .ok a
  | none => .error (.message context)

end Repertoire

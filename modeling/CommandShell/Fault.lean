import CommandShell.Files.SystemError
import CommandShell.Pattern.Fault
import CommandShell.Text.Integer
import CommandShell.Text.Utf8

/-! # Faults

Why a command fails. Every cause has one wording. -/

namespace CommandShell

inductive Fault where
  /-- A flag that the application does not know. -/
  | wrongFlag
  /-- A flag for an application that takes none. -/
  | noFlags
  | wrongCutFlag
  | wrongArgumentCount
  | wrongFindFlag
  | missingFindName
  | findPathsFirst
  | severalInputs
  | severalOutputs
  | notParsed
  | unexpectedArgument (t : Text)
  /-- A zero character in a path. -/
  | zeroInPath
  | integer (e : Text.IntegerFault)
  | folderExists (name : Text)
  | notFile (name : Text)
  | fileMissing
  | system (e : SystemError) (path : Text)
  | decoding (e : Text.DecodeFault)
  | unknownApplication (name : Text)
  | listIndex
  | textIndex
  /-- A list where a text was to be added to. -/
  | addToList
  /-- A list that was to be added to a text. -/
  | addList
  | joinList (position : Nat)
  | listAsPath
  | listAsFolder
  | listAsListing
  | listAsKey
  | listAsLine
  | listAsInteger
  /-- Two sorts that have no order. -/
  | noOrder (a b : Text)
  | noOperation (name : Text)
  | notWritable (sort : Text)
  | pattern (pattern : Text) (e : Pattern.Fault)
  | endOfInput
deriving DecidableEq, Repr

namespace Fault

def message : Fault → Text
  | .wrongFlag => "Wrong flag".toList
  | .noFlags => "this application does not accept flags.".toList
  | .wrongCutFlag => "Wrong flags".toList
  | .wrongArgumentCount => "wrong number of command line arguments".toList
  | .wrongFindFlag => "wrong flag used".toList
  | .missingFindName => "missing argument to '-name'".toList
  | .findPathsFirst => "paths must precede expression".toList
  | .severalInputs => "Several files cannot be specified for input redirection.".toList
  | .severalOutputs => "Several files cannot be specified for output redirection.".toList
  | .notParsed => "unsupported application: could not parse command line".toList
  | .unexpectedArgument t => "unexpected command line argument ".toList ++ t
  | .zeroInPath => "embedded null byte".toList
  | .integer e => e.message
  | .folderExists name => name ++ " already exists. Command Unsuccessful".toList
  | .notFile name => name ++ " is not a valid file path.".toList
  | .fileMissing => []
  | .system e path => e.message path
  | .decoding e => e.message
  | .unknownApplication name => Text.quoted name
  | .listIndex => "list index out of range".toList
  | .textIndex => "string index out of range".toList
  | .addToList => "can only concatenate list (not \"str\") to list".toList
  | .addList => "can only concatenate str (not \"list\") to str".toList
  | .joinList position =>
      "sequence item ".toList ++ Text.ofNat position ++ ": expected str instance, list found".toList
  | .listAsPath => "expected str, bytes or os.PathLike object, not list".toList
  | .listAsFolder => "chdir: path should be string, bytes, os.PathLike or integer, not list".toList
  | .listAsListing =>
      "listdir: path should be string, bytes, os.PathLike, integer or None, not list".toList
  | .listAsKey => "unhashable type: 'list'".toList
  | .listAsLine => "expected string or bytes-like object, got 'list'".toList
  | .listAsInteger =>
      "int() argument must be a string, a bytes-like object or a real number, not 'list'".toList
  | .noOrder a b =>
      "'<' not supported between instances of '".toList ++ a ++ "' and '".toList ++ b ++ "'".toList
  | .noOperation name => "'list' object has no attribute '".toList ++ name ++ "'".toList
  | .notWritable sort => "write() argument must be str, not ".toList ++ sort
  | .pattern p e => e.message p
  | .endOfInput => "EOF when reading a line".toList

end Fault

end CommandShell

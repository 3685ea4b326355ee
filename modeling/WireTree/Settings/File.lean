/-
**Limits in a file.**

The limits are kept in a file as a table of two numbers.  What the file system holds at a place is
a value here, so loading and saving are functions: loading answers with limits, saving leaves the
place with the text in it, and each fails with the reason.  The text is made before the place is
looked at.

A file without the table stands for the defaults.  A table must have both numbers, and may have
other entries, which do not matter; the two numbers may also be given as an array.  Numbers of a
file are signed, so limits of `2 ^ 63` and above can be used but not saved.

Main definitions:

* `WireTree.Settings.parse`, `WireTree.Settings.print` — the text of a file;
* `WireTree.Settings.Place` — what the file system holds at a place;
* `WireTree.Settings.load`, `WireTree.Settings.store` — the limits at a place.
-/

import WireTree.Limits
import WireTree.Toml.Document
import WireTree.Toml.Print

set_option relaxedAutoImplicit false
set_option autoImplicit false

namespace WireTree.Settings

/-! ### The text of a file -/

/-- The key of the table of limits. -/
def tableKey : String := "stream"

/-- The key of the most bytes of a stream. -/
def bufferKey : String := "max_buffer_bytes"

/-- The key of the most bytes of a text. -/
def textKey : String := "max_string_length"

/-- The limit that a value stands for, if it is an integer that is not negative. -/
def limitOf : Toml.Value → Option UInt64
  | .integer n => if 0 ≤ n then some (UInt64.ofNat n.toNat) else none
  | _ => none

/-- The limits that two values stand for. -/
def limitsOf (buffer text : Option Toml.Value) : Option Limits :=
  match buffer.bind limitOf, text.bind limitOf with
  | some maxBufferBytes, some maxTextBytes => some { maxBufferBytes, maxTextBytes }
  | _, _ => none

/-- The limits that the entry of a file stands for. -/
def ofValue : Toml.Value → Option Limits
  | .table _ entries => limitsOf (entries.lookup bufferKey) (entries.lookup textKey)
  | .array elements => limitsOf elements[0]? elements[1]?
  | _ => none

/-- The limits that the entries of a file stand for. -/
def ofEntries (entries : Toml.Entries) : Option Limits :=
  match entries.lookup tableKey with
  | none => some {}
  | some value => ofValue value

/-- The limits that a text stands for. -/
def parse (text : String) : Except WireError Limits :=
  match (Toml.parse text).bind ofEntries with
  | some l => .ok l
  | none => .error (.invalidSettings "Failed to parse TOML")

/-- The entries of the table of limits. -/
def numbers (l : Limits) : List (String × Nat) :=
  [(bufferKey, l.maxBufferBytes.toNat), (textKey, l.maxTextBytes.toNat)]

/-- The text that stands for limits. -/
def print (l : Limits) : Except WireError String :=
  match Toml.printTable tableKey (numbers l) with
  | some text => .ok text
  | none => .error (.invalidSettings "Failed to serialize config")

/-- The text that stands for the default limits, as an example. -/
def exampleText : String :=
  match print {} with
  | .ok text => text
  | .error _ => "# Failed to generate example config"

/-! ### Places of the file system -/

/-- What the file system holds at a place. -/
inductive Place where
  /-- A file with its contents, or, where there is none, the room for one. -/
  | file (contents : Option ByteArray)
  /-- Nothing, and no directory that could hold a file of this name. -/
  | nowhere
  /-- A directory. -/
  | directory

/-- What the system says of a name that stands for nothing. -/
def notFound : String := "No such file or directory (os error 2)"

/-- What the system says of a directory that is used as a file. -/
def isDirectory : String := "Is a directory (os error 21)"

/-- What is said of bytes that are no text. -/
def notText : String := "stream did not contain valid UTF-8"

/-- The failure of doing something with a file, for a reason. -/
def fileFault (doing reason : String) : WireError :=
  .invalidSettings ("Failed to " ++ doing ++ " config file: " ++ reason)

/-- The text in the file at a place. -/
def Place.read : Place → Except WireError String
  | .file none => .error (fileFault "open" notFound)
  | .nowhere => .error (fileFault "open" notFound)
  | .directory => .error (fileFault "read" isDirectory)
  | .file (some contents) =>
    match String.fromUTF8? contents with
    | none => .error (fileFault "read" notText)
    | some text => .ok text

/-- Makes a text the contents of the file at a place, whatever it held before. -/
def Place.write (text : String) : Place → Outcome Place Unit
  | .file _ => (.ok (), .file (some text.toUTF8))
  | .nowhere => (.error (fileFault "write" notFound), .nowhere)
  | .directory => (.error (fileFault "write" isDirectory), .directory)

/-- The limits in the file at a place. -/
def load (place : Place) : Except WireError Limits :=
  match place.read with
  | .error e => .error e
  | .ok text => parse text

/-- Saves limits in the file at a place. -/
def store (l : Limits) (place : Place) : Outcome Place Unit :=
  match print l with
  | .error e => (.error e, place)
  | .ok text => place.write text

/-- The text that the file at a place holds after limits have been saved there. -/
def save (l : Limits) (place : Place) : Except WireError String :=
  match store l place with
  | (.error e, _) => .error e
  | (.ok (), place) => place.read

end WireTree.Settings

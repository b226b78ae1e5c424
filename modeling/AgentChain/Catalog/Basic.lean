import AgentChain.Document.Record
import AgentChain.Json.Printer
import AgentChain.Text.NameSet

/-!
# The package catalog

A catalog is a published list of the packages that can be vendored: the file of each, the packages
it needs itself and, if known, the hash of its file.
-/

namespace AgentChain

structure Catalog.Entry where
  name : String
  fileName : String
  /-- The packages needed directly, by their normal names. -/
  depends : Text.NameSet
  /-- The hash of the file, if the catalog has one. -/
  sha256 : Option String
  deriving DecidableEq, Repr

/-- The packages under their normal names, in ascending order of the names. -/
structure Catalog where
  /-- The release, which is part of the download location. -/
  version : String
  /-- The version of the language that the release was built for. -/
  languageVersion : String
  packages : List (String × Catalog.Entry)
  deriving DecidableEq, Repr

namespace Catalog

def get? (catalog : Catalog) (name : String) : Option Entry :=
  Json.lookup? name catalog.packages

/-- The direct needs of a package; a name that is not listed needs nothing. -/
def needs (catalog : Catalog) (name : String) : List String :=
  match catalog.get? name with
  | some entry => entry.depends
  | none => []

/-- Replace every occurrence of `mark`, which is not empty, from left to right. -/
def substitute (mark value : List Char) : (fuel : Nat) → List Char → List Char
  | 0, cs => cs
  | _ + 1, [] => []
  | fuel + 1, c :: rest =>
    if mark.isPrefixOf (c :: rest) then
      value ++ substitute mark value fuel ((c :: rest).drop mark.length)
    else c :: substitute mark value fuel rest

def versionMark : String :=
  "\x7bversion\x7d"

/-- The download location of a release: the template with the release filled in, ending in a slash.
-/
def downloadBase (catalog : Catalog) (template : String) : String :=
  let base := substitute versionMark.toList catalog.version.toList (template.length + 1)
    template.toList
  String.ofList (if base.getLast? = some '/' then base else base ++ ['/'])

namespace Entry

def toValue (e : Entry) : Json.Value :=
  .object [
    ("name", .string e.name), ("file_name", .string e.fileName),
    ("depends", .ofTexts e.depends), ("sha256", .ofOption .string e.sha256)]

def ofDocument? (d : Document) : Option Entry := do
  let f ← d.fields? ["name", "file_name", "depends", "sha256"]
  let name ← f.required? "name" Document.text?
  let fileName ← f.required? "file_name" Document.text?
  let depends ← f.required? "depends" (Document.list? Document.text?)
  let sha256 ← f.optional? "sha256" Document.text?
  return { name, fileName, depends := Text.NameSet.ofList depends, sha256 }

end Entry

def toValue (catalog : Catalog) : Json.Value :=
  .object [
    ("version", .string catalog.version), ("language_version", .string catalog.languageVersion),
    ("packages", .object (catalog.packages.map fun p => (p.1, p.2.toValue)))]

end Catalog

end AgentChain

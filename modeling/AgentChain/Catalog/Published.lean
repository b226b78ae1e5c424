import AgentChain.Catalog.Basic
import AgentChain.Json.Parser
import AgentChain.Requirement

/-!
# Published catalogs

A catalog is published as a JSON document with the versions under `info` and the packages under
`packages`. Reading brings all names to their normal spelling and checks the packages in ascending
order of the names as written; the first flaw counts.
-/

namespace AgentChain.Catalog

inductive Flaw where
  /-- The text is not a catalog document. -/
  | malformed
  | emptyFileName (key : String)
  | separatorInFileName (key : String)
  | repeatedName (name : String)
  deriving DecidableEq, Repr

def Flaw.message : Flaw → String
  | malformed => "parse catalog json: not a catalog document"
  | emptyFileName key => s!"catalog package '{key}' has empty file_name"
  | separatorInFileName key =>
    s!"catalog package '{key}' file_name must not contain path separators"
  | repeatedName name => s!"catalog lists '{name}' more than once after normalisation"

structure Listing where
  fileName : String
  depends : List String
  sha256 : Option String

def Listing.ofDocument? (d : Document) : Option Listing := do
  let f ← d.fields? ["file_name", "depends", "sha256"]
  let fileName ← f.required? "file_name" Document.text?
  let depends ← f.withDefault? "depends" [] (Document.list? Document.text?)
  let sha256 ← f.withDefault? "sha256" none (Document.option? Document.text?)
  return { fileName, depends, sha256 }

/-- A published document: the release, the language version and the packages in ascending order. -/
structure Listings where
  version : String
  languageVersion : String
  packages : List (String × Listing)

def Listings.ofDocument? (d : Document) : Option Listings := do
  let f ← d.fields? ["info", "packages"]
  let (version, languageVersion) ← f.required? "info" fun info => do
    let g ← info.fields? ["version", "python"]
    return (← g.required? "version" Document.text?, ← g.required? "python" Document.text?)
  let packages ← f.required? "packages" (Document.map? Listing.ofDocument?)
  return { version, languageVersion, packages }

/-- The catalog entry of a published package, unless its file name is unusable. -/
def Listing.entry (key : String) (listing : Listing) : Except Flaw Entry :=
  if Text.isAllBlank listing.fileName then .error (.emptyFileName key)
  else if listing.fileName.toList.any fun c => c = '/' || c = '\\' then
    .error (.separatorInFileName key)
  else .ok {
    name := PackageName.normalize key
    fileName := listing.fileName
    depends := Text.NameSet.ofList (listing.depends.map PackageName.normalize)
    sha256 := listing.sha256.filter fun hash => !Text.isAllBlank hash }

def gather (found : List (String × Entry)) :
    List (String × Listing) → Except Flaw (List (String × Entry))
  | [] => .ok found
  | (key, listing) :: rest =>
    match listing.entry key with
    | .error flaw => .error flaw
    | .ok entry =>
      if (Json.lookup? entry.name found).isSome then .error (.repeatedName entry.name)
      else gather (Json.setMember entry.name entry found) rest

/-- Read a published catalog; one that breaks a rule is refused. -/
def parse (contents : String) : Except Flaw Catalog :=
  match (Json.parse? contents).bind Listings.ofDocument? with
  | none => .error .malformed
  | some listings =>
    match gather [] listings.packages with
    | .error flaw => .error flaw
    | .ok packages =>
      .ok { version := listings.version, languageVersion := listings.languageVersion, packages }

end AgentChain.Catalog

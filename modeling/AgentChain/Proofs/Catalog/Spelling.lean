import AgentChain.Proofs.Catalog.Published

/-!
# The spelling of names does not matter

A published catalog and a requirement file can be written in many ways that mean the same. Names
differ in letter case and punctuation, and packages, needs and lines come in any order. Here two
written forms are compared by what corresponds in them: a package with one whose key has the same
normal spelling, a line with one that names the same package. Written forms that correspond are read
to the same catalog and the same request, and so they have the same closure.

A key that is repeated letter by letter is left out of this: the document format lets the last of
several entries with one key win, so the order of those matters.
-/

namespace AgentChain

open Json (parse? Value)
open PackageName (normalize isPart)

/-! ### Correspondence in some order -/

/-- The elements of two lists correspond one to one, in some order. -/
def Rearranged {α : Type} (R : α → α → Prop) (xs ys : List α) : Prop :=
  ∃ zs, List.Forall₂ R xs zs ∧ zs.Perm ys

theorem Rearranged.perm_map (h : Rearranged R xs ys) (hf : ∀ x y, R x y → f x = f y) :
    (xs.map f).Perm (ys.map f) := by
  obtain ⟨zs, hzs, hperm⟩ := h
  have hmap : xs.map f = zs.map f := by
    clear hperm
    induction hzs with
    | nil => rfl
    | cons hxy _ ih => rw [List.map_cons, List.map_cons, hf _ _ hxy, ih]
  exact hmap ▸ hperm.map f

theorem Rearranged.symm (h : Rearranged R xs ys)
    (hR : ∀ x y, R x y → R y x) : Rearranged R ys xs := by
  obtain ⟨zs, hzs, hperm⟩ := h
  obtain ⟨back, hback, hperm'⟩ := List.perm_comp_forall₂ hperm.symm hzs.flip
  exact ⟨back, hback.imp fun _ _ hxy => hR _ _ hxy, hperm'⟩

/-! ### Published documents as they are written -/

namespace Document

variable {α : Type}

/-- A table from names to values of one kind, in the order in which it is written. -/
def entries? (read : Reader α) : Reader (List (String × α))
  | .table entries => readEntries read entries
  | _ => none

end Document

namespace Catalog

namespace Listings

/-- A published document with its packages in the order in which they are written. -/
def asWritten? (d : Document) : Option Listings := do
  let f ← d.fields? ["info", "packages"]
  let (version, languageVersion) ← f.required? "info" fun info => do
    let g ← info.fields? ["version", "python"]
    return (← g.required? "version" Document.text?, ← g.required? "python" Document.text?)
  let packages ← f.required? "packages" (Document.entries? Listing.ofDocument?)
  return { version, languageVersion, packages }

/-- The same document with its packages sorted by their keys. -/
def sorted (l : Listings) : Listings :=
  { l with packages := Json.sortMembers l.packages }

theorem ofDocument?_eq (d : Document) : ofDocument? d = (asWritten? d).map sorted := by
  have hpackages (f : Document.Fields) :
      f.required? "packages" (Document.map? Listing.ofDocument?) =
        (f.required? "packages" (Document.entries? Listing.ofDocument?)).map Json.sortMembers := by
    rw [Document.Fields.required?, Document.Fields.required?, Option.map_bind]
    exact congrArg _ (funext fun d => by cases d <;> rfl)
  simp only [ofDocument?, asWritten?, hpackages, Option.bind_eq_bind, Option.pure_def,
    Option.map_bind, Function.comp_def, Option.map_some, Option.bind_map]
  rfl

end Listings

/-! ### Packages that correspond -/

/-- A package stands in two documents, spelt in one way or another. -/
structure SamePackage (p q : String × Listing) : Prop where
  key : normalize p.1 = normalize q.1
  fileName : p.2.fileName = q.2.fileName
  sha256 : p.2.sha256 = q.2.sha256
  depends : ∀ need, need ∈ p.2.depends.map normalize ↔ need ∈ q.2.depends.map normalize

/-- Two documents differ only in how names are spelt and in what order they are written. -/
structure Listings.SpeltAlike (first second : Listings) : Prop where
  version : first.version = second.version
  languageVersion : first.languageVersion = second.languageVersion
  packages : Rearranged SamePackage first.packages second.packages

theorem SamePackage.entry_eq_ok (h : SamePackage p q)
    (hp : p.2.entry p.1 = .ok entry) : q.2.entry q.1 = .ok entry := by
  have hdepends : Text.NameSet.ofList (p.2.depends.map normalize) =
      .ofList (q.2.depends.map normalize) :=
    Text.NameSet.eq_of_mem_iff (Text.NameSet.pairwise_lt_ofList _)
      (Text.NameSet.pairwise_lt_ofList _) fun need => by
        rw [Text.NameSet.mem_ofList, Text.NameSet.mem_ofList, h.depends]
  rw [Listing.entry, h.key, h.fileName, h.sha256, hdepends] at hp
  rw [Listing.entry]
  split at hp
  · cases hp
  · next husable =>
    rw [if_neg husable]
    split at hp
    · cases hp
    · next hplain => rw [if_neg hplain, hp]

theorem SamePackage.symm (h : SamePackage p q) : SamePackage q p :=
  ⟨h.key.symm, h.fileName.symm, h.sha256.symm, fun need => (h.depends need).symm⟩

variable {listings others : List (String × Listing)} {entries : List (String × Entry)}

theorem Entries.perm (h : Entries listings entries) (hperm : listings.Perm others) :
    ∃ entries', Entries others entries' ∧ entries'.Perm entries :=
  List.perm_comp_forall₂ hperm.symm h

theorem Entries.rearranged (h : Entries listings entries)
    (hsame : Rearranged SamePackage listings others) :
    ∃ entries', Entries others entries' ∧ entries'.Perm entries := by
  obtain ⟨between, hbetween, hperm⟩ := hsame
  have hentries : Entries between entries := by
    clear hperm
    induction hbetween generalizing entries with
    | nil => exact h
    | cons hpq _ ih =>
      obtain ⟨entry, rest, hentry, hrest, rfl⟩ := entries_cons_iff.mp h
      exact entries_cons_iff.mpr ⟨entry, rest, hpq.entry_eq_ok hentry, ih hrest, rfl⟩
  exact hentries.perm hperm

namespace Listings.SpeltAlike

variable {first second : Listings} {firstText secondText : String} {catalog : Catalog}

theorem symm (h : SpeltAlike first second) : SpeltAlike second first where
  version := h.version.symm
  languageVersion := h.languageVersion.symm
  packages := h.packages.symm fun _ _ => SamePackage.symm

theorem parse_eq_ok (h : SpeltAlike first second)
    (hfirst : (parse? firstText).bind asWritten? = some first)
    (hsecond : (parse? secondText).bind asWritten? = some second)
    (hfirstKeys : (first.packages.map (·.1)).Nodup)
    (hsecondKeys : (second.packages.map (·.1)).Nodup)
    (hparse : parse firstText = .ok catalog) : parse secondText = .ok catalog := by
  have hread {text : String} {l : Listings}
      (hl : (parse? text).bind asWritten? = some l) :
      (parse? text).bind ofDocument? = some l.sorted := by
    obtain ⟨d, hd, hwritten⟩ := Option.bind_eq_some_iff.mp hl
    rw [hd, Option.bind_some, ofDocument?_eq, hwritten, Option.map_some]
  obtain ⟨_, hlistings, hversion, hlanguage, entries, hentries, hascending, hperm⟩ :=
    parse_eq_ok_iff.mp hparse
  obtain rfl : first.sorted = _ := Option.some.inj ((hread hfirst).symm.trans hlistings)
  -- sorting by the keys as written is a first change of order, the correspondence a second
  obtain ⟨written, hwritten, hperm₁⟩ := hentries.perm (Json.perm_sortMembers hfirstKeys)
  obtain ⟨other, hother, hperm₂⟩ := hwritten.rearranged h.packages
  obtain ⟨sorted, hsorted, hperm₃⟩ := hother.perm (Json.perm_sortMembers hsecondKeys).symm
  exact parse_eq_ok_iff.mpr ⟨second.sorted, hread hsecond, hversion.trans h.version,
    hlanguage.trans h.languageVersion, sorted, hsorted, hascending,
    hperm.trans ((hperm₃.trans (hperm₂.trans hperm₁)).symm)⟩

end Listings.SpeltAlike

end Catalog

/-! ### Lines that correspond -/

namespace Requirement

variable {agent : String} {requirements : List Requirement}

/-- The package name on a line as it is written, if the line declares anything. -/
def rawName? (line : String) : Option String :=
  match statement line with
  | [] => none
  | c :: rest => some (String.ofList ((c :: rest).takeWhile isPart))

def name? (line : String) : Option String :=
  (rawName? line).map normalize

/-- Two lines name the same package, or neither names any. -/
def SameName (line other : String) : Prop :=
  name? line = name? other

theorem name_of_parseLine
    (h : parseLine agent line = .ok declared) : declared.map (·.name) = name? line := by
  rw [parseLine] at h
  rw [name?, rawName?]
  rcases hstatement : statement line with _ | ⟨c, rest⟩
  · simp only [hstatement] at h ⊢
    cases h
    rfl
  · simp only [hstatement] at h ⊢
    split at h
    · next hinitial =>
      cases h
      have hpart : isPart c := by simp [isPart, hinitial]
      simp [List.takeWhile_cons_of_pos hpart]
    · cases h

theorem names_of_parseLines (h : parseLines agent number lines = .ok requirements) :
    requirements.map (·.name) = lines.filterMap name? := by
  induction lines generalizing number requirements with
  | nil =>
    cases h
    rfl
  | cons line lines ih =>
    rw [parseLines] at h
    split at h
    · cases h
    · next declared hdeclared =>
      split at h
      · cases h
      · next more hmore =>
        cases h
        rw [List.map_append, ih hmore, List.filterMap_cons, ← name_of_parseLine hdeclared]
        cases declared <;> rfl

theorem perm_names (hlines : Rearranged SameName (Text.lines firstFile) (Text.lines secondFile))
    (hfirst : parseFile firstAgent firstFile = .ok first)
    (hsecond : parseFile secondAgent secondFile = .ok second) :
    (first.map (·.name)).Perm (second.map (·.name)) := by
  have hfilter (lines : List String) : lines.filterMap name? = (lines.map name?).filterMap id := by
    rw [List.filterMap_map]
    rfl
  rw [names_of_parseLines hfirst, names_of_parseLines hsecond, hfilter, hfilter]
  exact (hlines.perm_map fun _ _ h => h).filterMap id

end Requirement

namespace Catalog

open Text (NameSet)
open PackageName

/-- Let two published documents repeat no key and correspond package by package, and two requirement
files line by line, in whatever order: with keys, needs and names on lines that have the same normal
spelling. Then both documents are accepted as the same catalog or both are refused, and the files
request the same packages, whatever else is requested with them, with the same closure. In every
catalog that is accepted, the keys, the names of the entries and the needs are in normal spelling. -/
theorem spelling_immaterial {firstText secondText : String} {first second : Listings}
    (hfirst : (parse? firstText).bind Listings.asWritten? = some first)
    (hsecond : (parse? secondText).bind Listings.asWritten? = some second)
    (hfirstKeys : (first.packages.map (·.1)).Nodup)
    (hsecondKeys : (second.packages.map (·.1)).Nodup) (hpackages : first.SpeltAlike second)
    {firstFile secondFile : String}
    (hlines : Rearranged Requirement.SameName (Text.lines firstFile) (Text.lines secondFile)) :
    (∀ catalog, parse firstText = .ok catalog ↔ parse secondText = .ok catalog) ∧
    (∀ firstAgent secondAgent declared declared',
      Requirement.parseFile firstAgent firstFile = .ok declared →
      Requirement.parseFile secondAgent secondFile = .ok declared' →
      ∀ others : List String,
        NameSet.ofList (declared.map (·.name) ++ others) =
          NameSet.ofList (declared'.map (·.name) ++ others) ∧
        ∀ catalog catalog', parse firstText = .ok catalog → parse secondText = .ok catalog' →
          catalog.close (NameSet.ofList (declared.map (·.name) ++ others)) =
            catalog'.close (NameSet.ofList (declared'.map (·.name) ++ others))) ∧
    ∀ text catalog, parse text = .ok catalog → ∀ p ∈ catalog.packages,
      normalize p.1 = p.1 ∧ normalize p.2.name = p.2.name ∧
        ∀ need ∈ p.2.depends, normalize need = need := by
  have hparse (catalog : Catalog) : parse firstText = .ok catalog ↔ parse secondText = .ok catalog :=
    ⟨hpackages.parse_eq_ok hfirst hsecond hfirstKeys hsecondKeys,
      hpackages.symm.parse_eq_ok hsecond hfirst hsecondKeys hfirstKeys⟩
  refine ⟨hparse, ?_, ?_⟩
  · intro firstAgent secondAgent declared declared' hdeclared hdeclared' others
    have hperm := Requirement.perm_names hlines hdeclared hdeclared'
    have hrequested : NameSet.ofList (declared.map (·.name) ++ others) =
        NameSet.ofList (declared'.map (·.name) ++ others) :=
      NameSet.eq_of_mem_iff (NameSet.pairwise_lt_ofList _) (NameSet.pairwise_lt_ofList _)
        fun name => by
          rw [NameSet.mem_ofList, NameSet.mem_ofList]
          exact (hperm.append_right others).mem_iff
    refine ⟨hrequested, fun catalog catalog' hcatalog hcatalog' => ?_⟩
    rw [hrequested, Except.ok.inj (((hparse catalog).mp hcatalog).symm.trans hcatalog')]
  · intro text catalog hcatalog p hp
    have hnormal := normal_of_parse hcatalog
    refine ⟨hnormal.normalize_key p hp, ?_, hnormal.normalize_depends p hp⟩
    rw [hnormal.name_eq p hp, hnormal.normalize_key p hp]

/-- The text of a published document with the given packages. -/
def textOf (packages : List (String × Value)) : String :=
  (Value.object [
    ("info", .object [("version", .string "0.26"), ("python", .string "3.12")]),
    ("packages", .object packages)]).pretty ++ "\n"

/-- Two packages as they are written, one of which needs the other. -/
def plain : List (String × Value) :=
  [("foo-bar", .object [("file_name", .string "foo.whl"), ("depends", .ofTexts ["six"])]),
    ("six", .object [("file_name", .string "six.whl")])]

/-- The same packages, spelt and arranged in another way. -/
def respelt : List (String × Value) :=
  [("SIX", .object [("file_name", .string "six.whl"), ("depends", .array [])]),
    ("Foo_Bar", .object [("depends", .ofTexts ["Six", "six"]), ("file_name", .string "foo.whl")])]

theorem spelling_immaterial_respelt :
    ∃ catalog, parse (textOf plain) = .ok catalog ∧ parse (textOf respelt) = .ok catalog ∧
      NameSet.ofList (["foo-bar", "six"] ++ ["micropip"]) =
        NameSet.ofList (["six", "foo-bar"] ++ ["micropip"]) ∧
      catalog.close (NameSet.ofList (["foo-bar", "six"] ++ ["micropip"])) =
        catalog.close (NameSet.ofList (["six", "foo-bar"] ++ ["micropip"])) := by
  have hplain : (parse? (textOf plain)).bind Listings.asWritten? = some ⟨"0.26", "3.12",
      [("foo-bar", ⟨"foo.whl", ["six"], none⟩), ("six", ⟨"six.whl", [], none⟩)]⟩ := by
    rw [textOf, Json.parse?_pretty (by decide)]
    rfl
  have hrespelt : (parse? (textOf respelt)).bind Listings.asWritten? = some ⟨"0.26", "3.12",
      [("SIX", ⟨"six.whl", [], none⟩), ("Foo_Bar", ⟨"foo.whl", ["Six", "six"], none⟩)]⟩ := by
    rw [textOf, Json.parse?_pretty (by decide)]
    rfl
  have hcatalog : parse (textOf plain) = .ok ⟨"0.26", "3.12",
      [("foo-bar", ⟨"foo-bar", "foo.whl", ["six"], none⟩), ("six", ⟨"six", "six.whl", [], none⟩)]⟩ := by
    rw [parse, textOf, Json.parse?_pretty (by decide)]
    rfl
  have hneeds (need : String) : need ∈ ["six"].map normalize ↔
      need ∈ ["Six", "six"].map normalize := by
    have hsix : ["Six", "six"].map normalize = ["six", "six"] := by decide
    have hone : ["six"].map normalize = ["six"] := by decide
    rw [hsix, hone]
    simp
  have hlines : Rearranged Requirement.SameName (Text.lines "Foo.Bar>=1\nsix")
      (Text.lines "Six\nfoo_bar") := by
    refine ⟨["foo_bar", "Six"], .cons ?_ (.cons ?_ .nil), .swap _ _ _⟩ <;>
    · rw [Requirement.SameName]
      decide
  obtain ⟨hparse, hrequest, -⟩ := spelling_immaterial hplain hrespelt (by decide) (by decide)
    ⟨rfl, rfl, [("Foo_Bar", ⟨"foo.whl", ["Six", "six"], none⟩), ("SIX", ⟨"six.whl", [], none⟩)],
      .cons ⟨by decide, rfl, rfl, hneeds⟩ (.cons ⟨by decide, rfl, rfl, fun _ => .rfl⟩ .nil),
      .swap _ _ _⟩ hlines
  have hsecond := (hparse _).mp hcatalog
  obtain ⟨hnames, hclose⟩ := hrequest "root" "root" _ _ rfl rfl ["micropip"]
  exact ⟨_, hcatalog, hsecond, hnames, hclose _ _ hcatalog hsecond⟩

end Catalog

end AgentChain

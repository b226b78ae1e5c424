import AgentChain.Manifest
import AgentChain.Proofs.Document

/-!
# Manifests that are read back

The manifest of an archive is kept as a text. Reading that text gives the manifest that was written,
with every field, also those that are left out when they have no value. The one thing that the written
form does not keep is the order of a table of package files, so that the names in it have to be sorted
already.
-/

namespace AgentChain

open Document (ofValue)
open Json (Ascending)
open Json (Value)
open Option (bind_eq_some_iff)
open Document (text? option? list? fields? map? ofValue)

theorem FileEntry.ofDocument?_toValue (e : FileEntry) :
    FileEntry.ofDocument? (ofValue e.toValue) = some e := by
  have hfields : fields? ["filename", "size", "sha256"] (ofValue e.toValue) = _ :=
    Document.fields?_of_sublist (by decide) (List.Sublist.refl _)
  rw [ofDocument?, hfields]
  rfl

theorem VendorManifest.ascending_packageFiles
    (h : ofDocument? d = some m) : Ascending m.packageFiles := by
  have hmap : ∀ {d : Document} {entries : List (String × String)},
      map? text? d = some entries → Ascending entries := by
    intro d entries hd
    cases d with
    | table found =>
      obtain ⟨read, -, rfl⟩ := Option.map_eq_some_iff.1 hd
      exact Json.ascending_sortMembers read
    | _ => cases hd
  simp only [ofDocument?, Option.bind_eq_bind, bind_eq_some_iff] at h
  obtain ⟨f, -, timestamp, -, runtime, -, runtimeVersion, -, language, -, languageVersion, -,
    requested, -, resolved, -, missing, -, failed, -, packageFiles, hfiles, files, -, h⟩ := h
  cases h
  obtain ⟨found, -, hread⟩ := bind_eq_some_iff.1 hfiles
  exact hmap hread

/-! ### The values that manifests are made of -/

theorem integral_ofTexts (texts : List String) : (Value.ofTexts texts).Integral := by
  refine Value.itemsIntegral_iff.2 fun v hv => ?_
  obtain ⟨text, -, rfl⟩ := List.mem_map.1 hv
  trivial

theorem integral_textTable (entries : List (String × String)) : (textTable entries).Integral := by
  refine Value.membersIntegral_iff.2 fun e he => ?_
  obtain ⟨entry, -, rfl⟩ := List.mem_map.1 he
  trivial

theorem integral_files (files : List FileEntry) :
    (Value.array (files.map FileEntry.toValue)).Integral := by
  refine Value.itemsIntegral_iff.2 fun v hv => ?_
  obtain ⟨e, -, rfl⟩ := List.mem_map.1 hv
  exact ⟨trivial, trivial, trivial, trivial⟩

theorem depth_ofTexts (texts : List String) : (Value.ofTexts texts).depth ≤ 2 := by
  refine Nat.succ_le_succ (Value.itemsDepth_le_iff.2 fun v hv => ?_)
  obtain ⟨text, -, rfl⟩ := List.mem_map.1 hv
  exact Nat.zero_le 1

theorem depth_textTable (entries : List (String × String)) : (textTable entries).depth ≤ 2 := by
  refine Nat.succ_le_succ (Value.membersDepth_le_iff.2 fun e he => ?_)
  obtain ⟨entry, -, rfl⟩ := List.mem_map.1 he
  exact Nat.zero_le 1

theorem depth_files (files : List FileEntry) :
    (Value.array (files.map FileEntry.toValue)).depth ≤ 2 := by
  refine Nat.succ_le_succ (Value.itemsDepth_le_iff.2 fun v hv => ?_)
  obtain ⟨e, -, rfl⟩ := List.mem_map.1 hv
  exact Nat.le_refl 1

theorem list?_files (files : List FileEntry) :
    list? FileEntry.ofDocument? (ofValue (.array (files.map FileEntry.toValue))) = some files :=
  Document.list?_ofValue_array fun e _ => e.ofDocument?_toValue

theorem map?_textTable (h : Ascending entries) :
    map? text? (ofValue (textTable entries)) = some entries :=
  Document.map?_ofValue_object h fun _ _ => rfl

namespace ArchiveManifest

variable {α : Type} (m : ArchiveManifest) {P : Value → Prop}

@[simp] theorem lookup?_present (name other : String) (write : α → Value) (value : Option α) :
    Json.lookup? name (present other write value) =
      if other = name then value.map write else none := by
  cases value with
  | none => simp [present]
  | some a => simp [present]

theorem sublist_present (name : String) (write : α → Value) (value : Option α) :
    ((present name write value).map (·.1)).Sublist [name] := by
  cases value with
  | none => exact List.nil_sublist _
  | some a => exact List.Sublist.refl _

def members : List (String × Value) :=
  [("schema_version", .ofUInt32 m.schemaVersion), ("runtime", .string m.runtime),
    ("runtime_version", .string m.runtimeVersion), ("language", .string m.language),
    ("language_version", .string m.languageVersion), ("archive", .string m.archive),
    ("archive_sha256", .string m.archiveSha256),
    ("archive_size", .ofOption .ofUInt64 m.archiveSize),
    ("files", .array (m.files.map FileEntry.toValue))] ++
    present "requested_packages" .ofTexts m.requestedPackages ++
    present "resolved_packages" .ofTexts m.resolvedPackages ++
    present "package_files" textTable m.packageFiles ++
    present "missing_packages" .ofTexts m.missingPackages ++
    present "vendored_at" .string m.vendoredAt

/-- The names of the fields of a manifest, in their order. -/
def fieldNames : List String :=
  ["schema_version", "runtime", "runtime_version", "language", "language_version", "archive",
    "archive_sha256", "archive_size", "files", "requested_packages", "resolved_packages",
    "package_files", "missing_packages", "vendored_at"]

theorem sublist_members : (m.members.map (·.1)).Sublist fieldNames := by
  rw [members]
  simp only [List.map_append]
  exact (((((List.Sublist.refl _).append (sublist_present _ _ _)).append
    (sublist_present _ _ _)).append (sublist_present _ _ _)).append
    (sublist_present _ _ _)).append (sublist_present _ _ _)

/-- The fields that a written manifest is read from. -/
def written : Document.Fields :=
  ⟨Document.ofMembers m.members, false⟩

theorem lookup?_written (name : String) :
    Json.lookup? name m.written.found = (Json.lookup? name m.members).map ofValue :=
  Document.lookup?_ofMembers name m.members

section Fields

variable {name : String} {read : Document.Reader α} {v : Value} {a b : α} {value : Option α}
  {write : α → Value}

theorem required?_written (hv : Json.lookup? name m.members = some v)
    (ha : read (ofValue v) = some a) : m.written.required? name read = some a := by
  rw [Document.Fields.required?, lookup?_written, hv]
  exact ha

theorem withDefault?_written (hv : Json.lookup? name m.members = some v)
    (ha : read (ofValue v) = some a) : m.written.withDefault? name b read = some a := by
  rw [Document.Fields.withDefault?, lookup?_written, hv]
  exact ha

theorem text?_written (hv : Json.lookup? name m.members = some (.string text)) :
    m.written.required? name text? = some text :=
  m.required?_written hv rfl

theorem option?_written (hname : Json.lookup? name m.members = value.map write)
    (hread : ∀ a, value = some a → read (ofValue (write a)) = some a)
    (hnull : ∀ a, write a ≠ .null) :
    m.written.withDefault? name none (option? read) = some value := by
  cases value with
  | none =>
    rw [Document.Fields.withDefault?, lookup?_written, hname]
    rfl
  | some a =>
    have hoption : option? read (ofValue (write a)) = some (some a) := by
      have hne := hnull a
      have ha := hread a rfl
      cases hw : write a <;> simp_all [ofValue, option?]
    exact m.withDefault?_written hname hoption

theorem texts?_written (hname : Json.lookup? name m.members = texts.map .ofTexts) :
    m.written.withDefault? name none (option? (list? text?)) = some texts :=
  m.option?_written hname (fun texts _ => Document.list?_ofTexts texts) (by simp [Value.ofTexts])

end Fields

theorem ofDocument?_toValue (h : ∀ files, m.packageFiles = some files → Ascending files) :
    ofDocument? (ofValue m.toValue) = some m := by
  have hfields : fields? fieldNames (ofValue m.toValue) = some m.written :=
    Document.fields?_of_sublist (by decide) m.sublist_members
  have hschema : m.written.required? "schema_version" Document.uint32? = some m.schemaVersion :=
    m.required?_written (v := .ofUInt32 m.schemaVersion) (by simp [members])
      (Document.uint32?_natural _)
  have hhash : m.written.withDefault? "archive_sha256" "" text? = some m.archiveSha256 :=
    m.withDefault?_written (v := .string m.archiveSha256) (by simp [members]) rfl
  have hsize : m.written.withDefault? "archive_size" none (option? Document.uint64?) =
      some m.archiveSize :=
    m.withDefault?_written (v := .ofOption .ofUInt64 m.archiveSize) (by simp [members])
      (by cases m.archiveSize <;> rfl)
  have hfiles : m.written.required? "files" (list? FileEntry.ofDocument?) = some m.files :=
    m.required?_written (v := .array (m.files.map FileEntry.toValue)) (by simp [members])
      (list?_files m.files)
  have htable : m.written.withDefault? "package_files" none
      (option? (map? text?)) = some m.packageFiles :=
    m.option?_written (by simp [members])
      (fun files hsome => map?_textTable (h files hsome)) (by simp [textTable])
  have hname : Json.lookup? "vendored_at" m.members = m.vendoredAt.map .string := by simp [members]
  have htime : m.written.withDefault? "vendored_at" none (option? text?) =
      some m.vendoredAt :=
    m.option?_written hname (fun _ _ => rfl) (by simp)
  -- the fields are read in the order of their declaration
  refine bind_eq_some_iff.2 ⟨_, hfields, ?_⟩
  refine bind_eq_some_iff.2 ⟨_, hschema, ?_⟩
  refine bind_eq_some_iff.2 ⟨m.runtime, m.text?_written (by simp [members]), ?_⟩
  refine bind_eq_some_iff.2 ⟨m.runtimeVersion, m.text?_written (by simp [members]), ?_⟩
  refine bind_eq_some_iff.2 ⟨m.language, m.text?_written (by simp [members]), ?_⟩
  refine bind_eq_some_iff.2 ⟨m.languageVersion, m.text?_written (by simp [members]), ?_⟩
  refine bind_eq_some_iff.2 ⟨m.archive, m.text?_written (by simp [members]), ?_⟩
  refine bind_eq_some_iff.2 ⟨_, hhash, ?_⟩
  refine bind_eq_some_iff.2 ⟨_, hsize, ?_⟩
  refine bind_eq_some_iff.2 ⟨_, hfiles, ?_⟩
  refine bind_eq_some_iff.2 ⟨m.requestedPackages, m.texts?_written (by simp [members]), ?_⟩
  refine bind_eq_some_iff.2 ⟨m.resolvedPackages, m.texts?_written (by simp [members]), ?_⟩
  refine bind_eq_some_iff.2 ⟨_, htable, ?_⟩
  refine bind_eq_some_iff.2 ⟨m.missingPackages, m.texts?_written (by simp [members]), ?_⟩
  exact bind_eq_some_iff.2 ⟨_, htime, rfl⟩

theorem forall_mem_present
    (value : Option α) (h : ∀ a, P (write a)) : ∀ e ∈ present name write value, P e.2 := by
  cases value with
  | none => simp [present]
  | some a => simpa [present] using h a

theorem forall_mem_members (hnull : P .null)
    (hnumber : ∀ n, P (.number (.natural n))) (htext : ∀ s, P (.string s))
    (hfiles : P (.array (m.files.map FileEntry.toValue))) (htexts : ∀ texts, P (.ofTexts texts))
    (htable : ∀ entries, P (textTable entries)) : ∀ e ∈ m.members, P e.2 := by
  have hsize : P (.ofOption .ofUInt64 m.archiveSize) := by
    cases m.archiveSize with
    | none => exact hnull
    | some n => exact hnumber n
  simp only [members, List.forall_mem_append, List.forall_mem_cons]
  refine ⟨⟨⟨⟨⟨⟨hnumber _, htext _, htext _, htext _, htext _, htext _, htext _, hsize, hfiles,
    List.forall_mem_nil _⟩, ?_⟩, ?_⟩, ?_⟩, ?_⟩, ?_⟩
  · exact forall_mem_present _ htexts
  · exact forall_mem_present _ htexts
  · exact forall_mem_present _ htable
  · exact forall_mem_present _ htexts
  · exact forall_mem_present _ htext

theorem integral_toValue : m.toValue.Integral :=
  Value.membersIntegral_iff.2 (m.forall_mem_members trivial (fun _ => trivial)
    (fun _ => trivial) (integral_files _) integral_ofTexts integral_textTable)

theorem depth_toValue : m.toValue.depth ≤ 3 := by
  suffices hmembers : ∀ e ∈ m.members, e.2.depth ≤ 2 from
    Nat.succ_le_succ (Value.membersDepth_le_iff.2 hmembers)
  exact m.forall_mem_members (P := fun v => v.depth ≤ 2) (Nat.zero_le 2) (fun _ => Nat.zero_le 2)
    (fun _ => Nat.zero_le 2) (depth_files _) depth_ofTexts depth_textTable

theorem parse?_toValue (h : ∀ files, m.packageFiles = some files → Ascending files) :
    (Json.parse? (m.toValue.pretty ++ "\n")).bind ofDocument? = some m :=
  Document.bind_parse?_pretty m.depth_toValue m.integral_toValue (m.ofDocument?_toValue h)

end ArchiveManifest

namespace VendorManifest

variable (m : VendorManifest)

theorem ofDocument?_toValue (hfailed : Ascending m.failedPackages)
    (hfiles : Ascending m.packageFiles) : ofDocument? (ofValue m.toValue) = some m := by
  have hfields : fields? ["timestamp", "runtime", "runtime_version", "language",
      "language_version", "requested_packages", "resolved_packages", "missing_packages",
      "failed_packages", "package_files", "files"] (ofValue m.toValue) = _ :=
    Document.fields?_of_sublist (by decide) (List.Sublist.refl _)
  have htext (text : String) : text? (ofValue (.string text)) = some text := rfl
  rw [ofDocument?, hfields]
  simp [Document.Fields.required?, Document.Fields.withDefault?, Document.lookup?_ofMembers,
    Document.list?_ofTexts, htext, list?_files, map?_textTable hfailed, map?_textTable hfiles]

theorem integral_toValue : m.toValue.Integral :=
  ⟨trivial, trivial, trivial, trivial, trivial, integral_ofTexts _, integral_ofTexts _,
    integral_ofTexts _, integral_textTable _, integral_textTable _, integral_files _, trivial⟩

theorem depth_toValue : m.toValue.depth ≤ 3 := by
  refine Nat.succ_le_succ (Value.membersDepth_le_iff.2 ?_)
  simp only [List.forall_mem_cons]
  exact ⟨Nat.zero_le 2, Nat.zero_le 2, Nat.zero_le 2, Nat.zero_le 2, Nat.zero_le 2,
    depth_ofTexts _, depth_ofTexts _, depth_ofTexts _, depth_textTable _, depth_textTable _,
    depth_files _, List.forall_mem_nil _⟩

theorem parse?_toValue (hfailed : Ascending m.failedPackages) (hfiles : Ascending m.packageFiles) :
    (Json.parse? (m.toValue.pretty ++ "\n")).bind ofDocument? = some m :=
  Document.bind_parse?_pretty m.depth_toValue m.integral_toValue (m.ofDocument?_toValue hfailed hfiles)

end VendorManifest

end AgentChain

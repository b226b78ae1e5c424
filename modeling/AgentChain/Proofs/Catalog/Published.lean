import AgentChain.Proofs.Closure
import AgentChain.Proofs.Json.Returned

/-!
# Published catalogs that are read

A published catalog is read package by package, and every name in it is brought to its normal
spelling. What comes out is described without the order of reading: the catalog is sorted, and its
packages are the entries of the published ones, each under its own name. A catalog is refused for an
unusable file name, or because two of its keys have one normal spelling.
-/

namespace AgentChain

/-! ### Normal spellings -/

namespace Text

theorem trimEndChars_eq (cs : List Char) : trimEndChars cs = cs.rdropWhile isBlank :=
  rfl

theorem trimChars_trimChars (cs : List Char) : trimChars (trimChars cs) = trimChars cs := by
  -- the first character of what is left is not blank, and trimming the end keeps it
  have hstart : (trimChars cs).dropWhile isBlank = trimChars cs := by
    cases hcs : trimChars cs with
    | nil => rfl
    | cons c rest =>
      obtain ⟨after, hafter⟩ : c :: rest <+: cs.dropWhile isBlank := by
        rw [← hcs, trimChars, trimEndChars_eq]
        exact List.rdropWhile_prefix _ _
      have hc : isBlank c = false := by
        have hhead := List.head?_dropWhile_not isBlank cs
        rw [← hafter] at hhead
        simpa using hhead
      rw [List.dropWhile_cons_of_neg (by simp [hc])]
  rw [trimChars, hstart, trimChars, trimEndChars_eq, trimEndChars_eq, List.rdropWhile_idempotent]

/-- Trimming goes along with a change of characters that keeps the blanks apart from the others. -/
theorem trimChars_map (hf : ∀ c, isBlank (f c) = isBlank c) (cs : List Char) :
    trimChars (cs.map f) = (trimChars cs).map f := by
  have hcomp : isBlank ∘ f = isBlank := funext hf
  simp only [trimChars, trimEndChars, List.dropWhile_map, ← List.map_reverse, hcomp]

end Text

namespace PackageName

theorem foldChar_cases (c : Char) :
    (foldChar c = c ∧ c ≠ '_' ∧ c ≠ '.' ∧ ¬(65 ≤ c.toNat ∧ c.toNat ≤ 90)) ∨
      (foldChar c = '-' ∧ (c = '_' ∨ c = '.')) ∨
      ((foldChar c).toNat = c.toNat + 32 ∧ 65 ≤ c.toNat ∧ c.toNat ≤ 90) := by
  have hcapital : c.val ≥ 'A'.val ∧ c.val ≤ 'Z'.val ↔ 65 ≤ c.toNat ∧ c.toNat ≤ 90 := by
    simp only [ge_iff_le, UInt32.le_iff_toNat_le, Char.toNat]
    rfl
  rw [foldChar]
  split
  · next h => exact .inr (.inl ⟨rfl, by simpa using h⟩)
  · next h =>
    rw [Bool.or_eq_true, decide_eq_true_iff, decide_eq_true_iff, not_or] at h
    delta Char.toLower
    split
    · next hcap =>
      obtain ⟨hlow, hhigh⟩ := hcapital.mp hcap
      have hstep : ('a'.val - 'A'.val).toNat = 32 := by decide
      refine .inr (.inr ⟨?_, hlow, hhigh⟩)
      simp only [Char.toNat, UInt32.toNat_add, hstep] at hhigh ⊢
      omega
    · next hcap => exact .inl ⟨rfl, h.1, h.2, fun hc => hcap (hcapital.mpr hc)⟩

theorem isBlank_foldChar (c : Char) : Text.isBlank (foldChar c) = Text.isBlank c := by
  have hletter (a : Char) (hlow : 65 ≤ a.toNat) (hhigh : a.toNat ≤ 122) :
      Text.isBlank a = false := by
    simp only [Text.isBlank, Bool.or_eq_false_iff, Bool.and_eq_false_iff, decide_eq_false_iff_not,
      beq_eq_false_iff_ne]
    omega
  obtain ⟨h, -⟩ | ⟨-, rfl | rfl⟩ | ⟨h, hlow, hhigh⟩ := foldChar_cases c
  · rw [h]
  · decide
  · decide
  · rw [hletter c hlow (by omega), hletter _ (by omega) (by omega)]

theorem foldChar_foldChar (c : Char) : foldChar (foldChar c) = foldChar c := by
  obtain ⟨h, -⟩ | ⟨h, -⟩ | ⟨h, hlow, hhigh⟩ := foldChar_cases c
  · rw [h, h]
  · rw [h]
    decide
  · -- a small letter is neither folded to a hyphen nor a capital
    obtain ⟨hkept, -⟩ | ⟨-, hmark | hmark⟩ | ⟨-, -, hcapital⟩ := foldChar_cases (foldChar c)
    · exact hkept
    · rw [hmark] at h
      change 95 = c.toNat + 32 at h
      omega
    · rw [hmark] at h
      change 46 = c.toNat + 32 at h
      omega
    · omega

@[simp] theorem normalize_normalize (name : String) : normalize (normalize name) = normalize name := by
  have hfold : foldChar ∘ foldChar = foldChar := funext foldChar_foldChar
  rw [normalize, normalize, String.toList_ofList, Text.trimChars_map isBlank_foldChar,
    Text.trimChars_trimChars, List.map_map, hfold]

end PackageName

/-! ### Packages that are read -/

namespace Catalog

open Json (Ascending)

variable {key : String} {listing : Listing} {listings : List (String × Listing)}
  {found packages : List (String × Entry)} {entry : Entry} {contents : String} {catalog : Catalog}
  {entries : List (String × Entry)}

/-- The entry of a published package: its names are brought to their normal spelling, and nothing
else but its file name and its hash is taken over. -/
theorem Listing.entry_eq_ok (h : listing.entry key = .ok entry) :
    entry.name = PackageName.normalize key ∧ entry.fileName = listing.fileName ∧
      entry.depends = .ofList (listing.depends.map PackageName.normalize) := by
  rw [Listing.entry] at h
  split at h
  · cases h
  · split at h
    · cases h
    · cases h
      exact ⟨rfl, rfl, rfl⟩

theorem Listing.fileName_of_entry (h : listing.entry key = .ok entry) :
    entry.fileName ≠ "" ∧ '/' ∉ entry.fileName.toList := by
  have hname := (Listing.entry_eq_ok h).2.1
  rw [Listing.entry] at h
  split at h
  · cases h
  · next hblank =>
    split at h
    · cases h
    · next hslash =>
      rw [hname]
      refine ⟨fun hempty => hblank (by rw [hempty]; rfl), fun hmem => hslash ?_⟩
      rw [List.any_eq_true]
      exact ⟨'/', hmem, rfl⟩

/-- Published packages have the given entries, each under its name. -/
def Entries (listings : List (String × Listing)) (entries : List (String × Entry)) : Prop :=
  List.Forall₂ (fun p m => p.2.entry p.1 = .ok m.2 ∧ m.1 = m.2.name) listings entries

theorem entries_nil_iff : Entries [] entries ↔ entries = [] :=
  List.forall₂_nil_left_iff

theorem entries_cons_iff : Entries ((key, listing) :: listings) entries ↔
      ∃ entry rest, listing.entry key = .ok entry ∧ Entries listings rest ∧
        entries = (entry.name, entry) :: rest := by
  rw [Entries, List.forall₂_cons_left_iff]
  constructor
  · rintro ⟨⟨name, entry⟩, rest, ⟨hentry, hname⟩, hrest, rfl⟩
    exact ⟨entry, rest, hentry, hrest, congrArg (fun n => (n, entry) :: rest) hname⟩
  · rintro ⟨entry, rest, hentry, hrest, rfl⟩
    exact ⟨_, rest, ⟨hentry, rfl⟩, hrest, rfl⟩

theorem Entries.exists_of_mem (h : Entries listings entries) (hm : m ∈ entries) :
    ∃ p ∈ listings, p.2.entry p.1 = .ok m.2 ∧ m.1 = m.2.name := by
  induction h with
  | nil => exact absurd hm List.not_mem_nil
  | cons h _ ih =>
    obtain rfl | hm := List.mem_cons.mp hm
    · exact ⟨_, List.mem_cons_self, h⟩
    · obtain ⟨p, hp, h⟩ := ih hm
      exact ⟨p, List.mem_cons_of_mem _ hp, h⟩

/-- Packages are gathered exactly if they have entries whose names differ from each other and from
those found before; the entries are then sorted in. -/
theorem gather_eq_ok_iff (hfound : Ascending found) :
    gather found listings = .ok packages ↔
      ∃ entries, Entries listings entries ∧ Ascending packages ∧
        packages.Perm (found ++ entries) := by
  induction listings generalizing found with
  | nil =>
    constructor
    · intro h
      cases h
      exact ⟨[], .nil, hfound, .of_eq (List.append_nil _).symm⟩
    · rintro ⟨entries, hentries, hpackages, hperm⟩
      rw [entries_nil_iff.mp hentries, List.append_nil] at hperm
      rw [gather, hpackages.eq_of_perm hfound hperm]
  | cons p listings ih =>
    obtain ⟨key, listing⟩ := p
    simp only [entries_cons_iff]
    rw [gather]
    split
    · next flaw hflaw =>
      refine ⟨fun h => (by cases h), ?_⟩
      rintro ⟨_, ⟨entry, _, hentry, -⟩, -⟩
      cases hflaw.symm.trans hentry
    · next entry hentry =>
      split
      · next htwice =>
        -- the name stands twice among the entries, so that they cannot be sorted
        refine ⟨fun h => (by cases h), ?_⟩
        rintro ⟨_, ⟨entry', entries, hentry', -, rfl⟩, hpackages, hperm⟩
        obtain rfl : entry = entry' := Except.ok.inj (hentry.symm.trans hentry')
        have hnodup := (hperm.map (·.1)).nodup_iff.mp hpackages.nodup_names
        obtain ⟨e, he⟩ := Option.isSome_iff_exists.mp htwice
        have hname : entry.name ∈ found.map (·.1) := List.mem_map_of_mem (Json.mem_of_lookup? he)
        rw [List.map_append, List.map_cons] at hnodup
        exact absurd hname fun h =>
          (List.nodup_append.mp hnodup).2.2 _ h _ List.mem_cons_self rfl
      · next honce =>
        have hname : entry.name ∉ found.map (·.1) :=
          Json.lookup?_eq_none_iff.mp (Option.not_isSome_iff_eq_none.mp honce)
        have hset (entries : List (String × Entry)) :
            (Json.setMember entry.name entry found ++ entries).Perm
              (found ++ (entry.name, entry) :: entries) :=
          ((Json.perm_setMember entry hname).append_right entries).trans List.perm_middle.symm
        rw [ih (Json.ascending_setMember entry hfound)]
        constructor
        · rintro ⟨entries, hentries, hpackages, hperm⟩
          exact ⟨_, ⟨entry, entries, hentry, hentries, rfl⟩, hpackages, hperm.trans (hset entries)⟩
        · rintro ⟨_, ⟨entry', entries, hentry', hentries, rfl⟩, hpackages, hperm⟩
          obtain rfl : entry = entry' := Except.ok.inj (hentry.symm.trans hentry')
          exact ⟨entries, hentries, hpackages, hperm.trans (hset entries).symm⟩

/-- A text is accepted as a catalog exactly if it is a published document whose packages have entries
with different names. -/
theorem parse_eq_ok_iff :
    parse contents = .ok catalog ↔
      ∃ listings, (Json.parse? contents).bind Listings.ofDocument? = some listings ∧
        catalog.version = listings.version ∧ catalog.languageVersion = listings.languageVersion ∧
        ∃ entries, Entries listings.packages entries ∧ Ascending catalog.packages ∧
          catalog.packages.Perm entries := by
  rw [parse]
  split
  · next hnone => simp [hnone]
  · next listings hsome =>
    have hgather : gather [] listings.packages = .ok catalog.packages ↔ _ := gather_eq_ok_iff .nil
    simp only [List.nil_append] at hgather
    simp only [hsome, Option.some.injEq, exists_eq_left', ← hgather]
    split
    · next flaw hflaw => simp [hflaw]
    · next packages hpackages =>
      rw [hpackages]
      obtain ⟨version, languageVersion, packages'⟩ := catalog
      simp [eq_comm]

/-- Every name in a catalog is in its normal spelling, and a package is listed under its name. -/
structure Normal (catalog : Catalog) : Prop where
  normalize_key : ∀ p ∈ catalog.packages, PackageName.normalize p.1 = p.1
  name_eq : ∀ p ∈ catalog.packages, p.2.name = p.1
  normalize_depends : ∀ p ∈ catalog.packages, ∀ need ∈ p.2.depends,
    PackageName.normalize need = need

theorem exists_listing_of_parse (h : parse contents = .ok catalog) (hp : p ∈ catalog.packages) :
    p.2.name = p.1 ∧ ∃ q : String × Listing, q.2.entry q.1 = .ok p.2 := by
  obtain ⟨listings, -, -, -, entries, hentries, -, hperm⟩ := parse_eq_ok_iff.mp h
  obtain ⟨q, -, hq, hname⟩ := hentries.exists_of_mem (hperm.mem_iff.mp hp)
  exact ⟨hname.symm, q, hq⟩

theorem normal_of_parse (h : parse contents = .ok catalog) : catalog.Normal := by
  refine ⟨fun p hp => ?_, fun p hp => (exists_listing_of_parse h hp).1, fun p hp need hneed => ?_⟩
  · obtain ⟨hname, q, hq⟩ := exists_listing_of_parse h hp
    rw [← hname, (Listing.entry_eq_ok hq).1, PackageName.normalize_normalize]
  · obtain ⟨-, q, hq⟩ := exists_listing_of_parse h hp
    rw [(Listing.entry_eq_ok hq).2.2, Text.NameSet.mem_ofList] at hneed
    obtain ⟨written, -, rfl⟩ := List.mem_map.mp hneed
    exact PackageName.normalize_normalize written

theorem fileName_of_parse (h : parse contents = .ok catalog)
    (hentry : catalog.get? name = some entry) :
    entry.fileName ≠ "" ∧ '/' ∉ entry.fileName.toList := by
  obtain ⟨-, q, hq⟩ := exists_listing_of_parse h (Json.mem_of_lookup? hentry)
  exact Listing.fileName_of_entry hq

end Catalog

end AgentChain

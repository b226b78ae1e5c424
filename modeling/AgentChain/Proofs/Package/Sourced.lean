import AgentChain.Proofs.Package.Success
import AgentChain.Proofs.Storage
import AgentChain.Proofs.Vendor.Accounts

/-!
# Where dependencies come from

What is packaged as dependencies is what the vendor manifest lists. If the manifest is the one that a
vendoring with the same configuration wrote, and the vendoring succeeded, then every bootstrap package
is among the dependencies.
-/

namespace AgentChain

open AgentChain.Action
open VendorManifest (ofDocument? fileName)

/-! ### Manifests that go back to a vendoring -/

namespace Vendor

variable {fetcher : Download.Fetcher S} {catalog : Catalog} {root contents : String}
  {config : Config} {s t : Session S} {o : Outcome}

/-- A vendoring that succeeds has a file of every bootstrap package, and the text of its manifest is
read to the manifest. -/
theorem bootstrap_of_run (hcatalog : Catalog.parse contents = .ok catalog)
    (h : (run fetcher root config catalog).result s = (.ok o, t)) :
    (∀ name ∈ config.vendor.bootstrapSet, name ∈ o.manifest.packageFiles.map (·.1)) ∧
      (Json.parse? (o.manifest.toValue.pretty ++ "\n")).bind ofDocument? = some o.manifest := by
  obtain ⟨discovery, u, hopening⟩ := exists_opening h
  obtain ⟨rounds, v, hrounds, hnames, -, hrun⟩ := result_run fetcher hopening
  rw [hrun] at h
  obtain ⟨d, -, rfl, -, hshortage⟩ := closing_eq_ok h
  generalize hm : manifestOf config discovery (catalog.close discovery.requested) (.ofRounds rounds)
    v.world.clock = m
  obtain ⟨haccounts, -, heq⟩ := Vendor.accounts_of_pass hcatalog hrounds hnames hm
  rw [heq] at hshortage
  refine ⟨fun name => haccounts.mem_packageFiles hopening ?_,
    m.parse?_toValue haccounts.failedPackages_sorted haccounts.packageFiles_sorted⟩
  split at hshortage
  · next hempty => exact hempty
  · cases hshortage

end Vendor

namespace Package

variable {root : String} {config : Config} {w w' : World} {o : Outcome}

theorem packageFiles_of_finish [Gzip.Encoder]
    (h : (finish tree artifact base).result d = (.ok m, d')) :
    m.packageFiles = base.packageFiles := by
  obtain ⟨summary, d₁, -, h⟩ := result_bind_eq_ok.1 h
  obtain ⟨⟨⟩, d₂, -, h⟩ := result_bind_eq_ok.1 h
  cases h
  rfl

theorem exists_inputs_of_run [Gzip.Encoder] (h : (run root config).result w = (.ok o, w')) :
    ∃ discovery vendor w₁, (inputs root config).result w = (.ok (discovery, vendor), w₁) ∧
      o.depsManifest.packageFiles = some vendor.packageFiles := by
  obtain ⟨discovery, vendor, w₁, w₂, w₃, hinputs, -, hrun, -⟩ := run_eq_ok h
  refine ⟨discovery, vendor, w₁, hinputs, ?_⟩
  -- of the eight steps only the one before the last makes the manifest
  simp only [runIn, result_bind_eq_ok] at hrun
  obtain ⟨_, _, -, _, _, -, _, _, -, _, _, -, _, _, -, _, _, -, _, _, hdeps, _, _, -, hrun⟩ := hrun
  cases hrun
  exact packageFiles_of_finish (World.of_result_onDisk hdeps).1

theorem vendor_of_inputs (h : (inputs root config).result w = (.ok (discovery, vendor), w'))
    (htext : w'.disk.readText (Path.join (config.vendorDir root) fileName) = .ok text) :
    (Json.parse? text).bind ofDocument? = some vendor := by
  obtain ⟨discovery', w₁, -, h⟩ := result_bind_eq_ok.1 h
  obtain ⟨vendor', w₂, hload, h⟩ := result_bind_eq_ok.1 h
  cases h
  obtain ⟨hload, -⟩ := World.of_result_onDisk hload
  have hload := result_within_eq_ok.1 hload
  rcases Storage.result_readDocument ofDocument?
    (Path.join (config.vendorDir root) fileName) w₁.disk with
    ⟨text', vendor', htext', hparse, hres⟩ | ⟨-, f, hres⟩
  · obtain ⟨hvendor, hdisk⟩ := Prod.mk.inj (hres.symm.trans hload)
    cases hvendor
    rw [← hdisk, htext'] at htext
    cases htext
    exact hparse
  · cases hres.symm.trans hload

/-- The manifest of dependencies goes back to a vendoring with a configuration that succeeded: a
workspace was packaged with the configuration, from the text of the manifest that was written then. -/
def Sourced [Gzip.Encoder] (root : String) (config : Config) (deps : ArchiveManifest) : Prop :=
  ∃ (S : Type) (fetcher : Download.Fetcher S) (contents : String) (catalog : Catalog)
    (s t : Session S) (o : Vendor.Outcome) (w w₁ w' : World) (found : Discovery × VendorManifest)
    (p : Outcome),
    Catalog.parse contents = .ok catalog ∧
    (Vendor.run fetcher root config catalog).result s = (.ok o, t) ∧
    (inputs root config).result w = (.ok found, w₁) ∧
    w₁.disk.readText (Vendor.manifestPath root config) = .ok (o.manifest.toValue.pretty ++ "\n") ∧
    (run root config).result w = (.ok p, w') ∧ p.depsManifest = deps

theorem Sourced.lookup?_ne_none [Gzip.Encoder] (h : Sourced root config deps)
    (hpackage : package ∈ config.vendor.bootstrapSet) :
    Json.lookup? package (deps.packageFiles.getD []) ≠ none := by
  obtain ⟨S, fetcher, contents, catalog, s, t, o, w, w₁, w', ⟨discovery, vendor⟩, p, hcatalog, hvendor,
    hinputs, htext, hrun, rfl⟩ := h
  obtain ⟨hfiles, hparse⟩ := Vendor.bootstrap_of_run hcatalog hvendor
  obtain ⟨discovery', vendor', w₂, hinputs', hdeps⟩ := exists_inputs_of_run hrun
  cases hinputs'.symm.trans hinputs
  have hsame : vendor = o.manifest :=
    Option.some.inj ((vendor_of_inputs hinputs htext).symm.trans hparse)
  rw [hdeps, Option.getD_some, hsame, ne_eq, Json.lookup?_eq_none_iff, not_not]
  exact hfiles package hpackage

end Package

/-! ### A small workspace -/

set_option maxRecDepth 100000

namespace Vendor

/-- What the pass over the small workspace leaves. -/
def filling : Option (Outcome × Session (List String)) :=
  finish? bootstrapShelf found ⟨["foo", "micropip", "packaging"], []⟩ opened

/-- The manifest that is written for the small workspace. -/
def filled : VendorManifest :=
  (filling.map (·.1.manifest)).getD (manifestOf {} found ⟨[], []⟩ {} ⟨0⟩)

theorem exists_result_run_fresh : ∃ o t,
    (run bootstrapShelf "/w" {} small).result fresh = (.ok o, t) ∧ o.manifest = filled := by
  have hfilled : filling.isSome := by decide +kernel
  obtain ⟨⟨o, t⟩, hres⟩ := Option.isSome_iff_exists.mp hfilled
  refine ⟨o, t, result_run_of_finish? result_opening_fresh close_small hres, ?_⟩
  rw [filled, hres]
  rfl

end Vendor

namespace Package

open Disk

/-- The small workspace after its packages were fetched. -/
def stocked : World :=
  { Vendor.fresh.world with disk := { Vendor.fresh.world.disk with
      entries := Vendor.fresh.world.disk.entries ++ [
        (placeOf ["w", "vendor"], .directory), (placeOf ["w", "vendor", "m"], .file (Bytes.ofText "M")),
        (placeOf ["w", "vendor", "p"], .file (Bytes.ofText "P")),
        (placeOf ["w", "vendor", fileName],
          .file (Bytes.ofText (Vendor.filled.toValue.pretty ++ "\n")))] } }

def scanned : World :=
  ((Discovery.scan "/w" ({} : Config).vendor.bootstrapSet).result stocked).2

theorem readText_scanned : scanned.disk.readText (Vendor.manifestPath "/w" {}) =
    .ok (Vendor.filled.toValue.pretty ++ "\n") := by
  have hdisk : scanned.disk = stocked.disk :=
    World.Reported.disk_eq (Discovery.reported_scan "/w" _ stocked) rfl
  rw [hdisk]
  exact readText_eq_ok.2 rfl

theorem inputs_stocked :
    (inputs "/w" {}).result stocked = (.ok (Vendor.found, Vendor.filled), scanned) := by
  have hscan : ((Discovery.scan "/w" ({} : Config).vendor.bootstrapSet).result stocked).1 =
      .ok Vendor.found := by
    decide +kernel
  obtain ⟨o, t, hrun, ho⟩ := Vendor.exists_result_run_fresh
  have hparse := (Vendor.bootstrap_of_run Vendor.parse_smallCatalog hrun).2
  rw [ho] at hparse
  have hload := Storage.result_readDocument_of_parse readText_scanned hparse
  rw [inputs, result_bind_of_ok (Prod.ext hscan rfl)]
  refine result_bind_of_ok ?_ _
  rw [World.onDisk, result_onPart]
  exact congrArg (fun r : Except Failure VendorManifest × Disk => (r.1, { scanned with disk := r.2 }))
    (result_within_eq_ok.2 hload)

theorem exists_result_run_stocked : ∃ p w', (run "/w" {}).result stocked = (.ok p, w') := by
  have hlegible : stocked.disk.Legible := legible_of_fits (by decide +kernel)
  have hrun : ((runDirectly "/w" {}).result stocked).1.toOption.isSome := by
    rw [runDirectly, result_bind_of_ok inputs_stocked]
    decide +kernel
  obtain ⟨p, w', hres⟩ := exists_of_isSome hrun
  exact ⟨p, w', result_run_of_directly hlegible hres⟩

theorem exists_sourced : ∃ deps, Sourced "/w" {} deps := by
  obtain ⟨o, t, hvendor, ho⟩ := Vendor.exists_result_run_fresh
  obtain ⟨p, w', hrun⟩ := exists_result_run_stocked
  exact ⟨p.depsManifest, _, Vendor.bootstrapShelf, Vendor.smallCatalog, Vendor.small, Vendor.fresh, t, o,
    stocked, scanned, w', _, p, by decide +kernel, hvendor, inputs_stocked,
    ho ▸ readText_scanned, hrun, rfl⟩

end Package

end AgentChain

import AgentChain.Document.Record
import AgentChain.Requirement
import AgentChain.Text.NameSet
import AgentChain.Toml.Parser
import AgentChain.Toml.Printer
import AgentChain.Workflow.Basic

/-!
# The configuration of a workspace

A workspace is configured by a TOML file with four tables; every key has a default. A configuration
is usable when its runtime has a name and a language, its counts are positive and the package of the
installer is among the bootstrap packages.
-/

namespace AgentChain

open Document (list? option? text? uint32? uint64?)

namespace Config

structure Runtime where
  name : String := "pyodide"
  version : String := "0.26.1"
  language : String := "python"
  languageVersion : String := "3.12.1"
  deriving DecidableEq, Repr

structure Layout where
  distDir : String := "dist"
  vendorDir : String := "vendor"
  /-- Files of the runtime that are shipped with the code. -/
  runtimeDir : String := "runtime"
  deriving DecidableEq, Repr

structure Vendoring where
  /-- The packages that the installer needs before it can install anything. -/
  bootstrapPackages : List String := ["micropip", "packaging"]
  installerPackage : String := "micropip"
  /-- The download location, with a mark for the release of the catalog. -/
  downloadBase : String := "https://cdn.jsdelivr.net/pyodide/v\x7bversion\x7d/full/"
  maxAttempts : UInt32 := 3
  backoffMs : UInt64 := 500
  timeoutSecs : UInt64 := 60
  deriving DecidableEq, Repr

structure Bounds where
  maxSteps : UInt32 := 20
  stagnationThreshold : UInt32 := 5
  /-- How long one step may take; without it there is no bound. -/
  stepTimeoutSecs : Option UInt64 := none
  deriving DecidableEq, Repr

/-- How often a download is tried, and how long to wait in between. -/
structure RetryPolicy where
  maxAttempts : UInt32 := 3
  backoffMs : UInt64 := 500
  deriving DecidableEq, Repr

def RetryPolicy.toValue (p : RetryPolicy) : Json.Value :=
  .object [("max_attempts", .ofUInt32 p.maxAttempts), ("backoff_ms", .ofUInt64 p.backoffMs)]

end Config

/-- The configuration of a workspace. -/
structure Config where
  runtime : Config.Runtime := {}
  layout : Config.Layout := {}
  vendor : Config.Vendoring := {}
  engine : Config.Bounds := {}
  deriving DecidableEq, Repr

namespace Config

def fileName : String :=
  "agentpack.toml"

def Vendoring.bootstrapSet (v : Vendoring) : Text.NameSet :=
  Text.NameSet.ofList (v.bootstrapPackages.map PackageName.normalize)

def Vendoring.retryPolicy (v : Vendoring) : RetryPolicy :=
  { maxAttempts := v.maxAttempts, backoffMs := v.backoffMs }

def Bounds.limits (b : Bounds) : Workflow.Limits :=
  { maxSteps := b.maxSteps, stagnationThreshold := b.stagnationThreshold }

def Bounds.stepTimeoutMs (b : Bounds) : Option Nat :=
  b.stepTimeoutSecs.map fun s => s.toNat * 1000

/-! ### Rules -/

/-- The rules that a configuration can break. -/
inductive Flaw where
  | unnamedRuntime
  | noAttempts
  | noTransferTime
  | unlistedInstaller (name : String)
  | noSteps
  | noStagnation
  | noStepTime
  deriving DecidableEq, Repr

def Flaw.message : Flaw → String
  | unnamedRuntime => "runtime.name and runtime.language must be non-empty"
  | noAttempts => "vendor.max_attempts must be > 0"
  | noTransferTime => "vendor.timeout_secs must be > 0"
  | unlistedInstaller name =>
    s!"vendor.installer_package '{name}' must be listed in vendor.bootstrap_packages"
  | noSteps => "engine.max_steps must be > 0"
  | noStagnation => "engine.stagnation_threshold must be > 0"
  | noStepTime => "engine.step_timeout_secs must be > 0 when set"

/-- The first rule that a configuration breaks. -/
def flaw? (c : Config) : Option Flaw :=
  if Text.isAllBlank c.runtime.name || Text.isAllBlank c.runtime.language then some .unnamedRuntime
  else if c.vendor.maxAttempts = 0 then some .noAttempts
  else if c.vendor.timeoutSecs = 0 then some .noTransferTime
  else if PackageName.normalize c.vendor.installerPackage ∉ c.vendor.bootstrapSet then
    some (.unlistedInstaller c.vendor.installerPackage)
  else if c.engine.maxSteps = 0 then some .noSteps
  else if c.engine.stagnationThreshold = 0 then some .noStagnation
  else if c.engine.stepTimeoutSecs = some 0 then some .noStepTime
  else none

/-! ### Written forms -/

def Runtime.ofDocument? (surplus : Bool) (d : Document) : Option Runtime := do
  let f ← d.fieldsUpTo? surplus ["name", "version", "language", "language_version"]
  let fallback : Runtime := {}
  return {
    name := ← f.withDefault? "name" fallback.name text?
    version := ← f.withDefault? "version" fallback.version text?
    language := ← f.withDefault? "language" fallback.language text?
    languageVersion := ← f.withDefault? "language_version" fallback.languageVersion text? }

def Layout.ofDocument? (surplus : Bool) (d : Document) : Option Layout := do
  let f ← d.fieldsUpTo? surplus ["dist_dir", "vendor_dir", "runtime_dir"]
  let fallback : Layout := {}
  return {
    distDir := ← f.withDefault? "dist_dir" fallback.distDir text?
    vendorDir := ← f.withDefault? "vendor_dir" fallback.vendorDir text?
    runtimeDir := ← f.withDefault? "runtime_dir" fallback.runtimeDir text? }

def Vendoring.ofDocument? (surplus : Bool) (d : Document) : Option Vendoring := do
  let f ← d.fieldsUpTo? surplus [
    "bootstrap_packages", "installer_package", "download_base", "max_attempts", "backoff_ms",
    "timeout_secs"]
  let fallback : Vendoring := {}
  return {
    bootstrapPackages := ←
      f.withDefault? "bootstrap_packages" fallback.bootstrapPackages (list? text?)
    installerPackage := ←
      f.withDefault? "installer_package" fallback.installerPackage text?
    downloadBase := ← f.withDefault? "download_base" fallback.downloadBase text?
    maxAttempts := ← f.withDefault? "max_attempts" fallback.maxAttempts uint32?
    backoffMs := ← f.withDefault? "backoff_ms" fallback.backoffMs uint64?
    timeoutSecs := ← f.withDefault? "timeout_secs" fallback.timeoutSecs uint64? }

def Bounds.ofDocument? (surplus : Bool) (d : Document) : Option Bounds := do
  let f ← d.fieldsUpTo? surplus ["max_steps", "stagnation_threshold", "step_timeout_secs"]
  let fallback : Bounds := {}
  return {
    maxSteps := ← f.withDefault? "max_steps" fallback.maxSteps uint32?
    stagnationThreshold := ←
      f.withDefault? "stagnation_threshold" fallback.stagnationThreshold uint32?
    stepTimeoutSecs := ←
      f.withDefault? "step_timeout_secs" none (option? uint64?) }

/-- Read a configuration from its written form, where `surplus` says whether a list of fields may go
on after the last field. -/
def ofDocument? (surplus : Bool) (d : Document) : Option Config := do
  let f ← d.fieldsUpTo? surplus ["runtime", "layout", "vendor", "engine"]
  return {
    runtime := ← f.withDefault? "runtime" {} (Runtime.ofDocument? surplus)
    layout := ← f.withDefault? "layout" {} (Layout.ofDocument? surplus)
    vendor := ← f.withDefault? "vendor" {} (Vendoring.ofDocument? surplus)
    engine := ← f.withDefault? "engine" {} (Bounds.ofDocument? surplus) }

def parse? (contents : String) : Option Config :=
  (Toml.parse? contents).bind (ofDocument? true)

def toValue (c : Config) : Json.Value :=
  .object [
    ("runtime", .object [
      ("name", .string c.runtime.name), ("version", .string c.runtime.version),
      ("language", .string c.runtime.language),
      ("language_version", .string c.runtime.languageVersion)]),
    ("layout", .object [
      ("dist_dir", .string c.layout.distDir), ("vendor_dir", .string c.layout.vendorDir),
      ("runtime_dir", .string c.layout.runtimeDir)]),
    ("vendor", .object [
      ("bootstrap_packages", .ofTexts c.vendor.bootstrapPackages),
      ("installer_package", .string c.vendor.installerPackage),
      ("download_base", .string c.vendor.downloadBase),
      ("max_attempts", .ofUInt32 c.vendor.maxAttempts),
      ("backoff_ms", .ofUInt64 c.vendor.backoffMs),
      ("timeout_secs", .ofUInt64 c.vendor.timeoutSecs)]),
    ("engine", .object [
      ("max_steps", .ofUInt32 c.engine.maxSteps),
      ("stagnation_threshold", .ofUInt32 c.engine.stagnationThreshold),
      ("step_timeout_secs", .ofOption .ofUInt64 c.engine.stepTimeoutSecs)])]

/-- The written form of a configuration. -/
def toToml (c : Config) : String :=
  Toml.writeTables [
    ("runtime", [
      ("name", Toml.writeText c.runtime.name), ("version", Toml.writeText c.runtime.version),
      ("language", Toml.writeText c.runtime.language),
      ("language_version", Toml.writeText c.runtime.languageVersion)]),
    ("layout", [
      ("dist_dir", Toml.writeText c.layout.distDir),
      ("vendor_dir", Toml.writeText c.layout.vendorDir),
      ("runtime_dir", Toml.writeText c.layout.runtimeDir)]),
    ("vendor", [
      ("bootstrap_packages", Toml.writeArray c.vendor.bootstrapPackages),
      ("installer_package", Toml.writeText c.vendor.installerPackage),
      ("download_base", Toml.writeText c.vendor.downloadBase),
      ("max_attempts", s!"{c.vendor.maxAttempts.toNat}"),
      ("backoff_ms", s!"{c.vendor.backoffMs.toNat}"),
      ("timeout_secs", s!"{c.vendor.timeoutSecs.toNat}")]),
    ("engine", [
      ("max_steps", s!"{c.engine.maxSteps.toNat}"),
      ("stagnation_threshold", s!"{c.engine.stagnationThreshold.toNat}")] ++
      (c.engine.stepTimeoutSecs.map fun s => ("step_timeout_secs", s!"{s.toNat}")).toList)]

end Config

end AgentChain

import AgentChain.Proofs.Archive.Unpack
import AgentChain.Proofs.Manifest
import AgentChain.Proofs.Verify
import AgentChain.Run

/-!
# Runs touch the sandbox only when everything is verified

A run stops before it touches the sandbox unless both archives are those that their manifests
describe and the unpacked trees hold the files of the manifests. A run that stops comes to the same
failure in every sandbox and leaves its state as it was. An artifact is judged by what it is when it
is looked at. The files of a tree are judged by their names as they are shown: where two names that
are not UTF-8 are shown alike, only one of the files is compared with the manifest.
-/

namespace AgentChain

open AgentChain.Action (result_onPart result_bind_of_error result_bind_of_ok)

def World.logging (w : World) (path : String) : World :=
  { w with logs := w.logs ++ [path] }

namespace Run

open Bytes (ofText)
open Verify (Authentic Lists acceptedEvent rejectedEvent)

/-- The files of the tree in a directory are those of a manifest by their names as they are shown,
and exactly those if no two of them are shown alike. -/
def Holds (d : Disk) (directory : String) (m : ArchiveManifest) : Prop :=
  ∃ found, d.treeFiles directory = .ok found ∧ Lists m.files found ∧
    ((found.map fun file => Disk.shown file.1).Nodup → m.files.Perm (found.map Verify.entryOf))

/-- The world after the code artifact was accepted. -/
abbrev codeAccepted (dist : String) (w : World) (code : ArchiveManifest) : World :=
  w.reporting (acceptedEvent (Artifact.code dist) code)

/-- The world after both artifacts were accepted. -/
abbrev bothAccepted (dist : String) (w : World) (code deps : ArchiveManifest) : World :=
  (codeAccepted dist w code).reporting (acceptedEvent (Artifact.deps dist) deps)

/-! ### Preparing a run -/

theorem staysSound_unpack (dist : String) (paths : Paths) :
    Action.Moves Disk.StaysSound (unpack dist paths) :=
  Disk.StaysSound.frame.bind (Archive.staysSound_unpack _ _) fun _ => Archive.staysSound_unpack _ _

variable {dist : String} {paths : Paths} {w : World} {code deps : ArchiveManifest} {d : Disk}

theorem prepare_of_no_code (paths : Paths) (h : ∀ m, ¬ Authentic w.disk (Artifact.code dist) m) :
    ∃ i, (prepare dist paths).result w =
      (.error (.integrity i), w.reporting (rejectedEvent (Artifact.code dist) (.integrity i))) := by
  rcases Verify.dist_cases dist w with ⟨code, -, hcode, -⟩ | ⟨code, -, hcode, -⟩ | ⟨-, i, hres⟩
  · exact absurd hcode (h code)
  · exact absurd hcode (h code)
  · exact ⟨i, result_bind_of_error hres _⟩

theorem prepare_of_no_deps (paths : Paths) (hcode : Authentic w.disk (Artifact.code dist) code)
    (h : ∀ m, ¬ Authentic (codeAccepted dist w code).disk (Artifact.deps dist) m) :
    ∃ i, (prepare dist paths).result w = (.error (.integrity i),
      (codeAccepted dist w code).reporting (rejectedEvent (Artifact.deps dist) (.integrity i))) := by
  rcases Verify.dist_cases dist w with ⟨code', deps, hcode', hdeps, -⟩ | ⟨code', i, hcode', -, hres⟩ |
    ⟨hnone, -⟩
  · obtain rfl := hcode.unique hcode'
    exact absurd hdeps (h deps)
  · obtain rfl := hcode.unique hcode'
    exact ⟨i, result_bind_of_error hres _⟩
  · exact absurd hcode (hnone code)

section

variable (hcode : Authentic w.disk (Artifact.code dist) code)
  (hdeps : Authentic (codeAccepted dist w code).disk (Artifact.deps dist) deps)
include hcode hdeps

theorem result_dist :
    (Verify.dist dist).result w = (.ok { code, deps }, bothAccepted dist w code deps) := by
  rcases Verify.dist_cases dist w with ⟨code', deps', hcode', hdeps', hres⟩ |
    ⟨code', i, hcode', hnone, -⟩ | ⟨hnone, -⟩
  · obtain rfl := hcode.unique hcode'
    obtain rfl := hdeps.unique hdeps'
    exact hres
  · obtain rfl := hcode.unique hcode'
    exact absurd hdeps (hnone deps)
  · exact absurd hcode (hnone code)

theorem prepare_of_unpack_error
    (hunpack : (unpack dist paths).result (bothAccepted dist w code deps).disk = (.error f, d)) :
    (prepare dist paths).result w = (.error f, (bothAccepted dist w code deps).on d) := by
  rw [prepare, result_bind_of_ok (result_dist hcode hdeps)]
  refine result_bind_of_error ?_ _
  rw [World.onDisk, result_onPart, hunpack]

end

theorem prepare_of_unpack (hd : w.disk.Sound) (hcode : Authentic w.disk (Artifact.code dist) code)
    (hdeps : Authentic (codeAccepted dist w code).disk (Artifact.deps dist) deps)
    (hunpack : (unpack dist paths).result (bothAccepted dist w code deps).disk = (.ok (), d)) :
    (Holds d paths.codeDir code ∧ Holds d paths.depsDir deps) ∨
      ∃ i, (prepare dist paths).result w =
        (.error (.integrity i), (bothAccepted dist w code deps).on d) := by
  have hsound : d.Sound := by
    have h := staysSound_unpack dist paths (bothAccepted dist w code deps).disk
    rw [hunpack] at h
    exact h (World.sound_reporting (World.sound_reporting hd _) _)
  have hunpack' : (World.onDisk (unpack dist paths)).result (bothAccepted dist w code deps) =
      (.ok (), (bothAccepted dist w code deps).on d) := by
    rw [World.onDisk, result_onPart, hunpack]
  rw [prepare, result_bind_of_ok (result_dist hcode hdeps), result_bind_of_ok hunpack']
  rcases Verify.tree_cases hsound code paths.codeDir with ⟨found, hfound, hlists, hres⟩ | ⟨i, hres⟩
  swap
  · refine .inr ⟨i, result_bind_of_error ?_ _⟩
    rw [World.onDisk, result_onPart, hres]
  rcases Verify.tree_cases hsound deps paths.depsDir with ⟨found', hfound', hlists', -⟩ | ⟨i, hres'⟩
  · exact .inl ⟨⟨found, hfound, hlists, hlists.perm⟩, found', hfound', hlists', hlists'.perm⟩
  · refine .inr ⟨i, ?_⟩
    have hcodeTree : (World.onDisk (Verify.tree code paths.codeDir)).result
        ((bothAccepted dist w code deps).on d) =
          (.ok (), (bothAccepted dist w code deps).on d) := by
      rw [World.onDisk, result_onPart, hres]
    rw [result_bind_of_ok hcodeTree]
    refine result_bind_of_error ?_ _
    rw [World.onDisk, result_onPart, hres']

/-! ### Runs that stop -/

variable {root : String} {config : Config} {request : Request} {w₁ v : World} {f : Failure}

/-- A run fails without touching the sandbox: in every sandbox it comes to the same failure and the
same world, and the state of the sandbox is as it was. -/
def Stops (root : String) (config : Config) (request : Request) (paths : Paths) (w : World)
    (f : Failure) (v : World) : Prop :=
  ∀ (S : Type) (box : Sandbox S) (state : S),
    (inBox box root config request paths).result { world := w, state } =
      (.error f, { world := v, state })

theorem stops_of_begin (h : (begin paths).result w = (.error f, v)) :
    Stops root config request paths w f v := by
  intro S box state
  refine result_bind_of_error ?_ _
  rw [Session.onWorld, result_onPart, h]

theorem stops_of_prepare (hbegin : (begin paths).result w = (.ok (), w₁))
    (h : (prepare (config.distDir root) paths).result (w₁.logging paths.events) = (.error f, v)) :
    Stops root config request paths w f { v with logs := w₁.logs } := by
  intro S box state
  have hworld : (Session.onWorld (begin paths)).result ({ world := w, state } : Session S) =
      (.ok (), { world := w₁, state }) := by
    rw [Session.onWorld, result_onPart, hbegin]
  have hprepare : (Session.onWorld (prepare (config.distDir root) paths)).result
      ({ world := w₁.logging paths.events, state } : Session S) =
        (.error f, { world := v, state }) := by
    rw [Session.onWorld, result_onPart, h]
  rw [inBox, result_bind_of_ok hworld, Session.withLog, World.withLog, Action.result_ofResult]
  exact congrArg (fun r : Except Failure Engine.Run × Session S =>
      (r.1, { r.2 with world := { r.2.world with logs := w₁.logs } }))
    (result_bind_of_error hprepare fun verified => execute box config request paths verified)

theorem along_begin (paths : Paths) : Action.Moves (World.Along Disk.StaysSound) (begin paths) := by
  have hmake := Disk.StaysSound.createDirectory
  refine (World.Along.frame Disk.StaysSound.frame).bind ?_ fun _ => ?_
  · exact World.moves_onDisk (OnDisk.moves_createDirectories Disk.StaysSound.frame hmake _)
  · exact World.moves_prepareLog Disk.StaysSound.frame hmake _

/-- Everything that is checked before the sandbox is touched holds: both archives are those that
their manifests describe, they are unpacked, and the trees hold the files of the manifests. -/
structure Passed (dist : String) (paths : Paths) (w : World) (code deps : ArchiveManifest)
    (d : Disk) : Prop where
  codeArchive : Authentic w.disk (Artifact.code dist) code
  depsArchive : Authentic (codeAccepted dist w code).disk (Artifact.deps dist) deps
  unpacked : (unpack dist paths).result (bothAccepted dist w code deps).disk = (.ok (), d)
  codeTree : Holds d paths.codeDir code
  depsTree : Holds d paths.depsDir deps

theorem stops_or_passed (hd : w.disk.Sound) :
    (∃ f v, Stops root config request paths w f v) ∨
      ∃ w₁ code deps d, (begin paths).result w = (.ok (), w₁) ∧
        Passed (config.distDir root) paths (w₁.logging paths.events) code deps d := by
  rcases hbegin : (begin paths).result w with ⟨f | u, w₁⟩
  · exact .inl ⟨f, w₁, stops_of_begin hbegin⟩
  have hsound : (w₁.logging paths.events).disk.Sound := by
    have h := (along_begin paths w).1 hd
    rw [hbegin] at h
    exact h
  generalize hv : w₁.logging paths.events = v at hsound
  have hstops : ∀ {f u}, (prepare (config.distDir root) paths).result v = (.error f, u) →
      ∃ f v, Stops root config request paths w f v := fun {f u} h =>
    ⟨f, _, stops_of_prepare hbegin (hv ▸ h)⟩
  by_cases hcode : ∃ code, Authentic v.disk (Artifact.code (config.distDir root)) code
  swap
  · obtain ⟨i, h⟩ := prepare_of_no_code paths (not_exists.1 hcode)
    exact .inl (hstops h)
  obtain ⟨code, hcode⟩ := hcode
  by_cases hdeps : ∃ deps, Authentic (codeAccepted (config.distDir root) v code).disk
      (Artifact.deps (config.distDir root)) deps
  swap
  · obtain ⟨i, h⟩ := prepare_of_no_deps paths hcode (not_exists.1 hdeps)
    exact .inl (hstops h)
  obtain ⟨deps, hdeps⟩ := hdeps
  rcases hunpack : (unpack (config.distDir root) paths).result
      (bothAccepted (config.distDir root) v code deps).disk with ⟨f | u, d⟩
  · exact .inl (hstops (prepare_of_unpack_error hcode hdeps hunpack))
  rcases prepare_of_unpack hsound hcode hdeps hunpack with ⟨hcodeTree, hdepsTree⟩ | ⟨i, h⟩
  · exact .inr ⟨w₁, code, deps, d, rfl, hv ▸ ⟨hcode, hdeps, hunpack, hcodeTree, hdepsTree⟩⟩
  · exact .inl (hstops h)

/-- Runs fail closed. If the sandbox is touched, then both archives were those that their manifests
describe and the unpacked trees hold exactly the files of the manifests, as far as no two files are
shown alike. Otherwise, once the directory of the run and its log are made, what is wrong with an archive
or with an unpacked tree is a failure of integrity that leaves every sandbox as it was; and nothing
is unpacked unless both archives are accepted. -/
theorem sandbox_untouched_unless_verified (root : String) (config : Config) (request : Request)
    (paths : Paths) (w : World) (hd : w.disk.Sound) :
    ((∀ f v, ¬ Stops root config request paths w f v) →
      ∃ w₁ code deps d, (begin paths).result w = (.ok (), w₁) ∧
        Passed (config.distDir root) paths (w₁.logging paths.events) code deps d) ∧
    ∀ w₁ v dist, (begin paths).result w = (.ok (), w₁) → v = w₁.logging paths.events →
      dist = config.distDir root →
      ((∀ m, ¬ Authentic v.disk (Artifact.code dist) m) →
        ∃ i, (Failure.integrity i).exitCode = 2 ∧ Stops root config request paths w (.integrity i)
          { v.reporting (rejectedEvent (Artifact.code dist) (.integrity i)) with logs := w.logs }) ∧
      (∀ code, Authentic v.disk (Artifact.code dist) code →
        (∀ m, ¬ Authentic (codeAccepted dist v code).disk (Artifact.deps dist) m) →
        ∃ i, (Failure.integrity i).exitCode = 2 ∧ Stops root config request paths w (.integrity i)
          { (codeAccepted dist v code).reporting
              (rejectedEvent (Artifact.deps dist) (.integrity i)) with logs := w.logs }) ∧
      ∀ code deps d, Authentic v.disk (Artifact.code dist) code →
        Authentic (codeAccepted dist v code).disk (Artifact.deps dist) deps →
        (unpack dist paths).result (bothAccepted dist v code deps).disk = (.ok (), d) →
        ¬ (Holds d paths.codeDir code ∧ Holds d paths.depsDir deps) →
        ∃ i, (Failure.integrity i).exitCode = 2 ∧ Stops root config request paths w (.integrity i)
          { bothAccepted dist v code deps with disk := d, logs := w.logs } := by
  refine ⟨fun h => ?_, ?_⟩
  · rcases stops_or_passed hd with ⟨f, v, hstops⟩ | hpassed
    · exact absurd hstops (h f v)
    · exact hpassed
  rintro w₁ v dist hbegin rfl rfl
  have hlogs : w₁.logs = w.logs := by
    have h := congrArg World.logs (along_begin paths w).2
    rw [hbegin] at h
    exact h
  have hsound : (w₁.logging paths.events).disk.Sound := by
    have h := (along_begin paths w).1 hd
    rw [hbegin] at h
    exact h
  rw [← hlogs]
  refine ⟨fun hnone => ?_, fun code hcode hnone => ?_, fun code deps d hcode hdeps hunpack hnot => ?_⟩
  · obtain ⟨i, h⟩ := prepare_of_no_code paths hnone
    exact ⟨i, rfl, stops_of_prepare hbegin h⟩
  · obtain ⟨i, h⟩ := prepare_of_no_deps paths hcode hnone
    exact ⟨i, rfl, stops_of_prepare hbegin h⟩
  · obtain ⟨i, h⟩ := (prepare_of_unpack hsound hcode hdeps hunpack).resolve_left hnot
    exact ⟨i, rfl, stops_of_prepare hbegin h⟩

def blank : World where
  disk := .empty
  reported := []
  logs := []
  clock := ⟨0⟩
  supply _ := ""
  drawn := 0

def alteredManifest : ArchiveManifest :=
  { ArchiveManifest.new {} Artifact.codeArchive [] with
    archiveSha256 := Sha256.hex [1]
    archiveSize := some 1 }

/-- A workspace at `/w` whose code archive has one byte more than the archive of its manifest. -/
def altered : World :=
  { blank with
    disk :=
      { entries := [([ofText "w"], .directory), ([ofText "w", ofText "dist"], .directory),
          ([ofText "w", ofText "dist", ofText "code.manifest.json"],
            .file (ofText (alteredManifest.toValue.pretty ++ "\n"))),
          ([ofText "w", ofText "dist", ofText "code.tar.gz"], .file [1, 2])]
        home := [] } }

set_option maxRecDepth 100000 in
theorem altered_run_stops : altered.disk.Sound ∧ ∃ i v, (Failure.integrity i).exitCode = 2 ∧
    Stops "/w" {} ⟨.null, .null⟩ (Paths.new "/w/dist" "r") altered (.integrity i) v := by
  have hsound : altered.disk.Sound := Disk.sound_of_fits (by decide +kernel)
  have hbegin : ((begin (Paths.new "/w/dist" "r")).result altered).1.toOption = some () := by
    decide +kernel
  have hmanifest : ((begin (Paths.new "/w/dist" "r")).result altered).2.disk.readBytes
      (Artifact.code "/w/dist").manifest = .ok (ofText (alteredManifest.toValue.pretty ++ "\n")) := rfl
  have harchive : ((begin (Paths.new "/w/dist" "r")).result altered).2.disk.readBytes
      (Artifact.code "/w/dist").archive = .ok [1, 2] := rfl
  rcases hres : (begin (Paths.new "/w/dist" "r")).result altered with ⟨f | u, w₁⟩
  · rw [hres] at hbegin
    cases hbegin
  rw [hres] at hmanifest harchive
  obtain ⟨i, hexit, hstops⟩ := ((sandbox_untouched_unless_verified "/w" {} ⟨.null, .null⟩
    (Paths.new "/w/dist" "r") altered hsound).2 w₁ _ _ hres rfl rfl).1 fun m hm => by
      obtain rfl : m = alteredManifest := hm.eq_of_parse (Disk.readText_eq_ok.2 hmanifest)
        (ArchiveManifest.parse?_toValue alteredManifest nofun)
      obtain ⟨contents, hcontents, -, hsize⟩ := hm.held
      obtain rfl := Except.ok.inj (harchive.symm.trans hcontents)
      exact absurd (hsize 1 rfl) (by decide)
  exact ⟨hsound, i, _, hexit, hstops⟩

end Run

end AgentChain

import AgentChain.Proofs.Sandbox.Installing
import AgentChain.Proofs.Stage.HandOver

/-!
# Only verified files are installed

The files that a run opens in the unpacked trees, the registry and the files of packages, are recorded
in the verified manifests: with a scripted sandbox, which does not touch the disk, and with a native
sandbox, which works in a directory outside of the trees. This holds for paths of plain names in trees
without links. A native sandbox stays in its directory as long as no zip archive is unpacked while a
link stands in its library.
-/

namespace AgentChain

open AgentChain.Action Disk
open Sandbox (Scripted scripted native Native)

/-! ### Sessions -/

namespace Session

variable {St : Type} {directory : String} {D S : Place} {d₀ : Disk} {logs : List String}
  {P P' : Disk × St → Prop} {s t : Session St}

/-- A session in which a tree is as it was, and in which the disk and the state of the sandbox are as
they should be. -/
structure Guards (directory : String) (D S : Place) (d₀ : Disk) (logs : List String)
    (P : Disk × St → Prop) (s : Session St) : Prop where
  custody : Custody directory D S d₀ logs s.world.disk
  logs_eq : s.world.logs = logs
  fit : P (s.world.disk, s.state)

namespace Guards

variable (h : Guards directory D S d₀ logs P s)
include h

theorem reporting (hP : ∀ state, Unlogged S fun d => P (d, state)) (e : Event) :
    Guards directory D S d₀ logs P (s.reporting e) := by
  obtain ⟨hcustody, rfl, hfit⟩ := h
  obtain ⟨hcustody, hfit⟩ := hcustody.reporting (hP s.state) e hfit
  exact ⟨hcustody, rfl, hfit⟩

theorem of_spares (hworld : t.world = s.world.on t.world.disk)
    (hsound : t.world.disk.Sound) (hs : Spares (inside S ·) s.world.disk t.world.disk)
    (hapart : ∀ q, inside D q → inside S q = false) (hfit : P' (t.world.disk, t.state)) :
    Guards directory D S d₀ logs P' t where
  custody := h.custody.of_spares hsound hs hapart
  logs_eq := by rw [hworld, h.logs_eq]
  fit := hfit

end Guards

end Session

/-! ### The directory of a native sandbox -/

namespace Sandbox.Native

variable {root : String} {S : Place} {d d' : Disk} {package archive : String} {pass : InstallPass}
  {s : Disk × Native}

/-- A workplace for a sandbox in which no directory is closed. -/
structure Clean (root : String) (S : Place) (d : Disk) : Prop where
  workplace : Workplace root S d
  home : inside S d.home = false
  opened : ∀ q ∈ d.closed, inside S q = false

theorem clean_of_empty (hd : d.Sound) (h : d.EmptyDirectory root S)
    (hhome : inside S d.home = false) : Clean root S d where
  workplace := h.workplace hd
  home := hhome
  opened q hq := by
    rw [← Bool.not_eq_true]
    exact fun hin => hd.closed q hq (h.empty q hin)

theorem Clean.of_changes (h : Clean root S d) (hworkplace : Workplace root S d')
    (hc : Changes (inside S ·) d d') : Clean root S d' where
  workplace := hworkplace
  home := by rw [hc.home, h.home]
  opened q hq := h.opened q (hc.closed q hq)

theorem Clean.housed (h : Clean root S d) : Housed root S d where
  sound := h.workplace.sound
  leads := h.workplace.leads.mono ⟨fun q hq => by rw [get?_without, ← get?_apart, hq],
    fun q t hq => by rw [get?_without, ← get?_apart, hq], fun q hq => (List.mem_filter.1 hq).1⟩ rfl
  home := h.home
  library q hq t := h.workplace.linkless q t hq.inside
  twins p q c hp _ hpq := by
    rwa [← (h.workplace.plain p (inside_of_inside_library hp)).alone.areTwins_iff.1 hpq]
  closed q hq hin := by
    have hout := h.opened q hq
    simp [inside_of_inside_library hin] at hout

theorem unlogged_clean : Unlogged S (Clean root S) := by
  intro d p c c' h hp halone hout
  have hw : d.Vacant p ∨ ∃ c', d.get? p = some (.file c') := .inr ⟨c', hp⟩
  exact ⟨h.workplace.grows (h.workplace.sound.fill hw) (h.workplace.sound.grows_fill hw),
    by rw [home_fill, h.home], fun q hq => h.opened q (closed_fill ▸ hq)⟩

theorem unlogged_housed : Unlogged S (Housed root S) := by
  intro d p c c' h hp halone hout
  have hne : p ≠ [] := by
    rintro rfl
    simp at hp
  have hsame : ∀ q, inside S q → (d.fill p c).get? q = d.get? q := by
    intro q hq
    rw [get?_fill_of_alone hne halone, if_neg]
    rintro rfl
    simp [hout] at hq
  exact {
    sound := h.sound.fill (.inr ⟨c', hp⟩)
    leads := h.leads.mono (retains_fill hp halone).keeps home_fill
    home := by rw [home_fill, h.home]
    library := fun q hq t => by
      rw [hsame q hq.inside]
      exact h.library q hq t
    twins := fun p' q c'' hp' hfile htwins => by
      rw [hsame p' (inside_of_inside_library hp')] at hfile
      rw [areTwins_fill] at htwins
      exact h.twins p' q c'' hp' hfile htwins
    closed := fun q hq hin => by
      rw [hsame q (inside_of_inside_library hin)]
      exact h.closed q (closed_fill ▸ hq) hin }

theorem houses_taking (hroot : s.2.root = root)
    (hzip : isZip archive → Linkless (libraryAt S) s.1) :
    Houses root S s.1 ((Stage.taking native pass package archive).result s).2.1 ∧
      ((Stage.taking native pass package archive).result s).2.2.root = root := by
  cases pass with
  | bootstrap => exact (Call.unpack package archive).houses hroot hzip
  | general =>
    refine (Call.install package archive).houses hroot fun hopens => hzip ?_
    rw [Call.opensZip, Bool.and_eq_true] at hopens
    exact hopens.2

/-- A sandbox with a directory that is as it should be. -/
def In (root : String) (Q : Disk → Prop) (s : Disk × Native) : Prop :=
  s.2.root = root ∧ Q s.1

theorem unlogged_in (h : Unlogged S Q) (state : Native) :
    Unlogged S fun d => In root Q (d, state) :=
  fun d p c c' hd hp halone hout => ⟨hd.1, h d p c c' hd.2 hp halone hout⟩

end Sandbox.Native

/-! ### Runs -/

namespace Run

open Session (Guards)
open Sandbox.Native (Clean Housed In isZip libraryAt clean_of_empty unlogged_in unlogged_clean
  unlogged_housed houses_taking)

variable {root : String} {config : Config} {paths : Paths} {verified : Verify.Verified} {v : World}
  {m : ArchiveManifest} {directory name path : String} {D S : Place} {code : ArchiveManifest}

/-- A sandbox into which the code is brought from a directory in the world `v` leaves a tree alone with
every operation of a run. The sandbox itself is as `P` says until the host is taken in, and as `P'` says
then. A package file should be as `Q` says when it is handed over. -/
structure Careful {St : Type} (box : Sandbox St) (codeDir : String) (v : World) (state : St)
    (directory : String) (D S : Place) (P P' : Disk × St → Prop) (Q : String → Session St → Prop) :
    Prop where
  resolve : ∀ path, Moves Eq (box.resolveModule path)
  unlogged_before : ∀ state, Unlogged S fun d => P (d, state)
  unlogged_after : ∀ state, Unlogged S fun d => P' (d, state)
  bring : ∀ {n : Nat} {u : Session St},
    (box.bringIn codeDir Sandbox.appRoot).result (v.disk, state) = (.ok n, (u.world.disk, u.state)) →
    u.world = v.on u.world.disk → Guards directory D S v.disk v.logs P u
  inject : ∀ {host : Sandbox.HostInfo} {t u : Session St}, Guards directory D S v.disk v.logs P t →
    (box.injectHost host).result (t.world.disk, t.state) = (.ok (), (u.world.disk, u.state)) →
    u.world = t.world.on u.world.disk → Guards directory D S v.disk v.logs P' u
  take : ∀ {pass : InstallPass} {package archive : String} {t u : Session St},
    Guards directory D S v.disk v.logs P' t → Q archive t →
    (Stage.taking box pass package archive).result (t.world.disk, t.state) =
      (.ok (), (u.world.disk, u.state)) →
    u.world = t.world.on u.world.disk → Guards directory D S v.disk v.logs P' u

/-- A tree that every operation of the sandbox leaves alone is as it was when a run opens a file. -/
theorem Opens.intact (h : Opens box root config paths s verified v m directory name path t)
    (hbox : Careful box paths.codeDir v s.state directory D S P P' Q)
    (hQ : ∀ m directory name path t,
      Opens box root config paths s verified v m directory name path t → Q path t) :
    Intact directory D v.disk t.world.disk := by
  have hmirroring : ∀ {t}, (Stage.mirroring box (inputs paths verified)).result
      { world := v, state := s.state } = (.ok (), t) → Guards directory D S v.disk v.logs P t := by
    intro t hmirrored
    obtain ⟨n, u, e, hbrought, hworld, rfl⟩ := Stage.mirroring_eq_ok hmirrored
    exact (hbox.bring hbrought hworld).reporting hbox.unlogged_before e
  suffices hcustody : Custody directory D S v.disk v.logs t.world.disk from hcustody.intact
  cases h with
  | registry _ mirrored _ => exact (hmirroring mirrored).custody
  | @package u _ _ _ _ _ reached handed _ =>
    obtain ⟨w, staged, -, -, hentering⟩ := id reached
    obtain ⟨t', e, hmirrored, hinjected, hworld⟩ := Stage.exists_mirroring hbox.resolve hentering
    have hu : Guards paths.depsDir D S v.disk v.logs P' u :=
      hbox.inject ((hmirroring hmirrored).reporting hbox.unlogged_before e) hinjected hworld
    have hhanded : ∀ pass package archive t, Stage.HandsOver box (inputs paths verified) config.vendor u
        pass package archive t → Q archive t := by
      intro pass package archive t handed
      obtain ⟨filename, hfilename, -⟩ := handed.finds.exists_filename
      exact hQ _ _ _ _ _ (.package reached handed hfilename)
    have ht : Guards paths.depsDir D S v.disk v.logs P' t :=
      handed.invariant (fun e ht hq htaken hworld =>
        (hbox.take ht hq htaken hworld).reporting hbox.unlogged_after e) hu hhanded
    exact ht.custody

theorem disk_taking_scripted (pass : InstallPass) (package archive : String) (s : Disk × Scripted) :
    ((Stage.taking scripted pass package archive).result s).2.1 = s.1 := by
  have hunpack : ((Scripted.unpackIntoLibrary package archive).result s).2.1 = s.1 := by
    rw [Scripted.unpackIntoLibrary, result_ofResult]
    split <;> rfl
  cases pass with
  | bootstrap => exact hunpack
  | general =>
    change ((Scripted.installPackage package archive).result s).2.1 = s.1
    rw [Scripted.installPackage, result_ofResult]
    split
    · rfl
    split
    · rfl
    · exact hunpack

theorem careful_scripted (hv : v.disk.Sound) (hcode : Holds v.disk paths.codeDir code)
    (h : Custody directory D S v.disk v.logs v.disk) :
    Careful scripted paths.codeDir v state directory D S (fun _ => True) (fun _ => True)
      fun _ _ => True := by
  have hstill : ∀ {s u : Session Scripted},
      Guards directory D S v.disk v.logs (fun _ => True) s → u.world.disk = s.world.disk →
      u.world = s.world.on u.world.disk →
      Guards directory D S v.disk v.logs (fun _ => True) u := fun hs hdisk hworld =>
    ⟨hdisk ▸ hs.custody, by rw [hworld, hs.logs_eq], trivial⟩
  refine ⟨fun _ _ => rfl, fun _ _ _ _ _ _ _ _ _ => trivial, fun _ _ _ _ _ _ _ _ _ => trivial,
    fun hbrought hworld => ?_, fun ht hinjected hworld => ?_, fun ht _ htaken hworld => ?_⟩
  · obtain ⟨found, hfound, -⟩ := hcode
    have hreads : (Scripted.view v.disk).Reads paths.codeDir found :=
      fun file hfile s c hs hread => hv.eq_of_readBytes_collected hfound hfile (hs ▸ hread)
    obtain ⟨hsame, -⟩ := Sandbox.View.exists_overlay_of_bringIn (V := Scripted.view v.disk)
      (s := (v.disk, state)) rfl trivial hfound (fun _ _ _ _ => trivial) hreads hbrought
    exact hstill (s := { world := v, state }) ⟨h, rfl, trivial⟩ hsame hworld
  · exact hstill ht (congrArg (fun r => r.2.1) hinjected).symm hworld
  · exact hstill ht ((congrArg (fun r => r.2.1) htaken).symm.trans (disk_taking_scripted _ _ _ _)) hworld

section Native

open Sandbox.Native

theorem careful_native (hv : v.disk.Sound)
    (hcode : Holds v.disk paths.codeDir code) (hroot : v.disk.EmptyDirectory state.root S)
    (hhome : inside S v.disk.home = false) (hapart : ∀ q, inside D q → inside S q = false)
    (h : Custody directory D S v.disk v.logs v.disk) :
    Careful Sandbox.native paths.codeDir v state directory D S (In state.root (Clean state.root S))
      (In state.root (Housed state.root S))
      fun archive t => isZip archive → Linkless (libraryAt S) t.world.disk := by
  have hclean := clean_of_empty hv hroot hhome
  refine ⟨moves_resolveModule, unlogged_in unlogged_clean, unlogged_in unlogged_housed,
    fun hbrought hworld => ?_, fun ht hinjected hworld => ?_, fun ht hzip htaken hworld => ?_⟩
  · obtain ⟨found, hfound, -⟩ := hcode
    have hproper := hv.proper_of_treeFiles hfound
    obtain ⟨hstands, -⟩ := Sandbox.View.exists_overlay_of_bringIn (V := view state.root S v.disk)
      (s := (v.disk, state)) ⟨rfl, hclean.workplace, .refl _ _, .refl _⟩
      ⟨["app"], by simp, by decide, by decide⟩ hfound (ready_view hproper)
      (reads_view hv hroot.empty hfound) hbrought
    have hstart : Guards directory D S v.disk v.logs (In state.root (Clean state.root S))
        { world := v, state } := ⟨h, rfl, rfl, hclean⟩
    exact hstart.of_spares hworld hstands.workplace.sound hstands.changes.spares hapart
      ⟨hstands.root_eq, hclean.of_changes hstands.workplace hstands.changes⟩
  · obtain ⟨hroot', hclean'⟩ := ht.fit
    have hstart : Stands state.root S _ (_, _) := ⟨hroot', hclean'.workplace, .refl _ _, .refl _⟩
    obtain ⟨hstands, -⟩ := hstart.injectHost hinjected
    exact ht.of_spares hworld hstands.workplace.sound hstands.changes.spares hapart
      ⟨hstands.root_eq, (hclean'.of_changes hstands.workplace hstands.changes).housed⟩
  · obtain ⟨hroot', hhoused⟩ := ht.fit
    obtain ⟨hhouses, hroot''⟩ := houses_taking hroot' hzip
    rw [htaken] at hhouses hroot''
    obtain ⟨hhoused', hs⟩ := hhouses hhoused
    exact ht.of_spares hworld hhoused'.sound hs hapart ⟨hroot'', hhoused'⟩

end Native

theorem Opens.intact_scripted
    (h : Opens scripted root config paths s verified v m directory name path t)
    (hs : s.world.disk.Sound) (hleads : v.disk.LeadsTo (Bytes.ofText directory) D)
    (hlogs : ∀ log ∈ v.logs, Elsewhere D v.disk log) : Intact directory D v.disk t.world.disk := by
  obtain ⟨hv, hcode, -⟩ := h.prepares.holds hs
  obtain ⟨S, hbare, hhome⟩ := hv.exists_bare
  have hcustody := custody_of_bare hv hhome hbare hleads hlogs
  exact h.intact (careful_scripted hv hcode hcustody) fun _ _ _ _ _ _ => trivial

theorem Opens.intact_native
    (h : Opens Sandbox.native root config paths s verified v m directory name path t)
    (hs : s.world.disk.Sound) (hleads : v.disk.LeadsTo (Bytes.ofText directory) D)
    (hlogs : ∀ log ∈ v.logs, Elsewhere D v.disk log)
    (hroot : v.disk.EmptyDirectory s.state.root S) (hapart : Apart D S)
    (hhome : inside S v.disk.home = false) (hzip : ∀ m directory name path t,
      Opens Sandbox.native root config paths s verified v m directory name path t →
      isZip path → Linkless (libraryAt S) t.world.disk) :
    Intact directory D v.disk t.world.disk := by
  obtain ⟨hv, hcode, -⟩ := h.prepares.holds hs
  have hcustody := custody_of_bare hv hhome hroot.empty hleads hlogs
  have houtside : ∀ q, inside D q → inside S q = false := by
    intro q hq
    rw [← Bool.not_eq_true]
    intro hq'
    obtain ⟨names, -, hD⟩ := inside_iff.1 hq
    obtain ⟨names', -, hS⟩ := inside_iff.1 hq'
    rcases List.prefix_or_prefix_of_prefix ⟨names, hD.symm⟩ ⟨names', hS.symm⟩ with hpre | hpre
    · exact hapart.1 hpre
    · exact hapart.2 hpre
  exact h.intact (careful_native hv hcode hroot hhome houtside hcustody) hzip

/-- The files that a run opens in the unpacked trees, the registry and the files of packages, are
recorded in the verified manifests under their names, with their sizes and hashes: if their names are
plain, the trees have no links and no files that are shown alike, and the trees are still as they were.
With a scripted sandbox they are, if the event logs are elsewhere. With a native sandbox they are too, if
its directory is empty at first and outside of the trees, and if no zip archive is handed over while a
link stands in its library. -/
theorem opened_files_are_recorded (root : String) (config : Config) (paths : Paths) :
    (∀ (St : Type) (box : Sandbox St) (s t : Session St) (verified : Verify.Verified) (v : World)
        (m : ArchiveManifest) (directory name path : String) (D : Place),
      Opens box root config paths s verified v m directory name path t → s.world.disk.Sound →
      v.disk.Settled directory D → Path.IsPlain name → Intact directory D v.disk t.world.disk →
      RecordedAt m t.world.disk path name) ∧
    (∀ (s t : Session Scripted) (verified : Verify.Verified) (v : World) (m : ArchiveManifest)
        (directory name path : String) (D : Place),
      Opens scripted root config paths s verified v m directory name path t →
      s.world.disk.Sound → v.disk.Settled directory D → Path.IsPlain name →
      (∀ log ∈ v.logs, Elsewhere D v.disk log) → RecordedAt m t.world.disk path name) ∧
    ∀ (s t : Session Sandbox.Native) (verified : Verify.Verified) (v : World) (m : ArchiveManifest)
        (directory name path : String) (D S : Place),
      Opens Sandbox.native root config paths s verified v m directory name path t →
      s.world.disk.Sound → v.disk.Settled directory D → Path.IsPlain name →
      (∀ log ∈ v.logs, Elsewhere D v.disk log) → v.disk.EmptyDirectory s.state.root S → Apart D S →
      inside S v.disk.home = false →
      (∀ m directory name path t,
        Opens Sandbox.native root config paths s verified v m directory name path t →
        isZip path = true → Linkless (libraryAt S) t.world.disk) →
      RecordedAt m t.world.disk path name := by
  refine ⟨fun _ _ _ _ _ _ _ _ _ _ _ h hs hsettled hname hintact => ?_,
    fun _ _ _ _ _ _ _ _ _ h hs hsettled hname hlogs => ?_,
    fun _ _ _ _ _ _ _ _ _ _ h hs hsettled hname hlogs hroot hapart hhome hzip => ?_⟩
  · exact h.recorded hs hsettled hname hintact
  · exact h.recorded hs hsettled hname (h.intact_scripted hs hsettled.leads hlogs)
  · exact h.recorded hs hsettled hname
      (h.intact_native hs hsettled.leads hlogs hroot hapart hhome hzip)

/-! ### A small run with a package -/

def stockTree : List (List Name × Bytes) :=
  [(placeAt ["packages", "p.whl"], [7])]

/-- The manifests of the small code and of the dependencies with one package. -/
def stockVerified : Verify.Verified where
  code := smallVerified.code
  deps := { smallManifest "deps.tar.gz" stockTree with packageFiles := some [("p", "p.whl")] }

/-- A configuration in which the package is installed first. -/
def stockConfig : Config :=
  { vendor := { bootstrapPackages := ["p"] } }

/-- A disk of the small run with a package among the unpacked dependencies. -/
def stockWith (archive code deps registry log : Bytes) : Disk where
  entries := (diskWith archive code deps registry log).entries ++ [
    (runPlace ["deps", "packages"], .directory),
    (runPlace ["deps", "packages", "p.whl"], .file [7])]
  home := []

/-- The disk of the small run with a package, with what is in its event log. -/
def stockDisk (log : Bytes) : Disk :=
  stockWith smallArchive (Bytes.ofText (stockVerified.code.toValue.pretty ++ "\n"))
    (Bytes.ofText (stockVerified.deps.toValue.pretty ++ "\n")) smallRegistry log

set_option maxRecDepth 100000

section StockWith

variable {archive code deps registry log : Bytes}

theorem sound_stockWith : (stockWith archive code deps registry log).Sound :=
  sound_of_fits ⟨show (stockWith [] [] [] [] []).places.Nodup by decide +kernel, by rfl, rfl, rfl⟩

theorem emptyDirectory_stockWith :
    (stockWith archive code deps registry log).EmptyDirectory "/s" (placeAt ["s"]) where
  leads := walkLinks_eq_present_directory_iff.mp (by rfl)
  directory := rfl
  empty := bare_of_places
    (show ∀ q ∈ (stockWith [] [] [] [] []).places, ¬ inside (placeAt ["s"]) q by decide +kernel)

end StockWith

/-- Where the unpacked dependencies of the small run are. -/
def stockPlace : Place :=
  runPlace ["deps"]

theorem treeFiles_stock :
    (stockDisk log).treeFiles smallPaths.codeDir = .ok (smallTree smallRegistry) ∧
      (stockDisk log).treeFiles smallPaths.depsDir = .ok stockTree :=
  ⟨rfl, rfl⟩

theorem settled_stock : (stockDisk log).Settled smallPaths.depsDir stockPlace ∧
    Elsewhere stockPlace (stockDisk log) smallPaths.events where
  left := {
    leads := walkLinks_eq_present_directory_iff.mp (by rfl)
    linkless := linkless_of_hasNoLinks rfl
    shown := fun found hfound => by
      cases treeFiles_stock.2.symm.trans hfound
      exact List.nodup_singleton _ }
  right := .file (p := runPlace ["events.jsonl"]) (c := log) rfl rfl
    (by decide +kernel) fun group hgroup => by cases hgroup

theorem stocked_stock : Stocked stockDisk stockVerified where
  begun := rfl
  logged _ _ := rfl
  code _ := authentic_small rfl rfl rfl rfl
    (by simp [stockVerified, smallVerified, smallManifest, ArchiveManifest.new])
  deps _ := authentic_small rfl rfl rfl rfl
    (by simp [stockVerified, smallManifest, ArchiveManifest.new, Json.Ascending])
  unpacked _ := unpack_small rfl rfl rfl rfl
  codeTree _ := result_tree_small sound_stockWith treeFiles_stock.1 fun file hfile => by
    simp only [smallTree, List.mem_cons, List.not_mem_nil, or_false] at hfile
    rcases hfile with rfl | rfl | rfl <;> exact ⟨_, rfl⟩
  depsTree _ := Verify.result_tree sound_stockWith treeFiles_stock.2
    (fun file hfile => by cases List.mem_singleton.1 hfile; exact ⟨_, rfl⟩) (.refl _)
    (List.nodup_singleton _)
  files _ := collect_of_treeFiles treeFiles_stock.1

/-- The world when the small code is brought in and a package is there. -/
def stockReached : World :=
  reachedWith stockDisk stockVerified

/-- What entering a sandbox comes to in the small run with a package. -/
def stockEntered {St : Type} (box : Sandbox St) (state : St) :
    Except Failure Stage.Staged × Session St :=
  (Stage.enteringWith box (inputs smallPaths stockVerified) (hostInfo stockVerified.code)
    smallFiles).result { world := stockReached, state }

def stockPath : String :=
  "/w/dist/runs/r/deps/packages/p.whl"

/-- The sandbox is entered, the package file is there then, and there are no links. -/
def stockPasses {St : Type} (box : Sandbox St) (state : St) : Bool :=
  let (entered, session) := stockEntered box state
  entered.toOption.isSome && session.world.disk.isFile stockPath && session.world.disk.hasNoLinks

theorem bootstrapSet_stock : stockConfig.vendor.bootstrapSet = ["p"] := by
  decide +kernel

section StockPasses

variable {St : Type} {box : Sandbox St} {state : St} (h : stockPasses box state)
include h

theorem reaches_stock : Reaches box "/w" stockConfig smallPaths
    { world := startWith stockDisk, state } stockVerified stockReached (stockEntered box state).2 := by
  rw [stockPasses, Bool.and_eq_true, Bool.and_eq_true] at h
  obtain ⟨⟨hsome, -⟩, -⟩ := h
  rcases hentered : stockEntered box state with ⟨_ | staged, u⟩
  · simp [hentered, Except.toOption] at hsome
  · exact stocked_stock.reaches (by decide) box state hentered

theorem opens_stock :
    Opens box "/w" stockConfig smallPaths { world := startWith stockDisk, state } stockVerified
      stockReached stockVerified.deps smallPaths.depsDir "packages/p.whl" stockPath
      (stockEntered box state).2 := by
  have hreached := reaches_stock h
  rw [stockPasses, Bool.and_eq_true, Bool.and_eq_true] at h
  obtain ⟨⟨-, hfile⟩, -⟩ := h
  have hlisted : Json.lookup? "p" (stockVerified.deps.packageFiles.getD []) = some "p.whl" := by
    decide
  have hpath : stockPath = Path.join (Path.join smallPaths.depsDir Package.packagesDir) "p.whl" := by
    decide +kernel
  have hfound : Stage.Finds (inputs smallPaths stockVerified) .bootstrap
      (stockEntered box state).2.world.disk "p" stockPath := by
    rw [hpath] at hfile ⊢
    exact Stage.finds_of_isFile hlisted hfile
  have hhanded : Stage.HandsOver box (inputs smallPaths stockVerified) stockConfig.vendor
      (stockEntered box state).2 .bootstrap "p" stockPath (stockEntered box state).2 := by
    refine .bootstrap ?_
    rw [bootstrapSet_stock]
    exact .here hfound
  exact .package hreached hhanded hlisted

theorem linkless_stock
    (hopens : Opens box "/w" stockConfig smallPaths { world := startWith stockDisk, state }
      stockVerified stockReached m directory name path t) (hzip : isZip path) :
    Linkless D t.world.disk := by
  have hregistry : isZip (Path.join smallPaths.codeDir Registry.fileName) = false := by decide +kernel
  cases hopens with
  | registry =>
    rw [hregistry] at hzip
    cases hzip
  | package reached handed _ =>
    cases reached.unique (reaches_stock h)
    cases handed with
    | bootstrap handed =>
      rw [bootstrapSet_stock] at handed
      cases handed with
      | here =>
        rw [stockPasses, Bool.and_eq_true] at h
        exact linkless_of_hasNoLinks h.2
      | later _ handed => cases handed
    | general _ _ handed => cases handed

end StockPasses

/-- A small run hands over a package file that is recorded, with a scripted and with a native sandbox. -/
theorem opened_files_small :
    (∃ t, Opens scripted "/w" stockConfig smallPaths ⟨startWith stockDisk, smallScripted⟩
        stockVerified stockReached stockVerified.deps smallPaths.depsDir "packages/p.whl" stockPath t ∧
      RecordedAt stockVerified.deps t.world.disk stockPath "packages/p.whl") ∧
    ∃ t, Opens Sandbox.native "/w" stockConfig smallPaths ⟨startWith stockDisk, smallNative⟩
        stockVerified stockReached stockVerified.deps smallPaths.depsDir "packages/p.whl" stockPath t ∧
      RecordedAt stockVerified.deps t.world.disk stockPath "packages/p.whl" := by
  obtain ⟨log, hlog⟩ : ∃ log, stockReached.disk = stockDisk log := stocked_stock.prepares.1
  have hs : (startWith stockDisk).disk.Sound := sound_stockWith
  have hsettled : stockReached.disk.Settled smallPaths.depsDir stockPlace := hlog ▸ settled_stock.1
  have hlogs : ∀ path ∈ stockReached.logs, Elsewhere stockPlace stockReached.disk path := by
    intro path hpath
    obtain rfl : path = smallPaths.events := List.mem_singleton.1 hpath
    exact hlog ▸ settled_stock.2
  have hroot : stockReached.disk.EmptyDirectory smallNative.root (placeAt ["s"]) :=
    hlog ▸ emptyDirectory_stockWith
  have hhome : inside (placeAt ["s"]) stockReached.disk.home = false := by
    rw [hlog]
    rfl
  have hapart : Apart stockPlace (placeAt ["s"]) := ⟨by decide +kernel, by decide +kernel⟩
  have hname : Path.IsPlain "packages/p.whl" := by decide +kernel
  have hscripted : stockPasses Sandbox.scripted smallScripted = true := by decide +kernel
  have hnative : stockPasses Sandbox.native smallNative = true := by decide +kernel
  exact ⟨⟨_, opens_stock hscripted, (opened_files_are_recorded "/w" stockConfig smallPaths).2.1 _ _ _ _ _
      _ _ _ _ (opens_stock hscripted) hs hsettled hname hlogs⟩,
    _, opens_stock hnative, (opened_files_are_recorded "/w" stockConfig smallPaths).2.2 _ _ _ _ _ _ _ _ _
      (placeAt ["s"]) (opens_stock hnative) hs hsettled hname hlogs hroot hapart hhome
      fun _ _ _ _ _ hopens hzip => linkless_stock hnative hopens hzip⟩

end Run

end AgentChain

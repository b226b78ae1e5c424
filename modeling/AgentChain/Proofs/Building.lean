import AgentChain.Package
import AgentChain.Proofs.Frame

/-!
# Actions that are built from operations

An action on a disk looks at the disk and changes it, step after step. A class of actions that has
looks at the disk and changes of some kind, and everything that is built from its members, has every
action whose changes are of that kind. So an action has to be taken apart only once: what it does to a
disk and what it fails with both follow.

A failure is told by its cause, which the contexts around it leave alone. Most actions raise faults and
refusals only.
-/

namespace AgentChain

/-! ### Failures of actions -/

namespace Action

variable {σ α β : Type} {P : Failure → Prop}

def Fails (P : Failure → Prop) (x : Action σ α) : Prop :=
  ∀ s f, (x.result s).1 = .error f → P f

namespace Fails

theorem of_result (hx : Fails P x) (h : x.result s = (.error f, t)) : P f :=
  hx s f (by rw [h])

theorem pure (a : α) : Fails P (Pure.pure a : Action σ α) :=
  nofun

theorem ofResult {g : σ → Except Failure α × σ} (h : ∀ s f, (g s).1 = .error f → P f) :
    Fails P (Action.ofResult g) :=
  h

theorem fail (hf : P f) : Fails P (Action.fail f : Action σ α) := by
  intro s f' h
  cases h
  exact hf

theorem bind_of_ok (hx : Fails P x)
    (hf : ∀ s a t, x.result s = (.ok a, t) → Fails P (f a)) : Fails P (x >>= f) := by
  intro s e h
  rcases result_bind_eq_error.1 (Prod.ext h rfl) with hres | ⟨a, t, hres, h⟩
  · exact hx.of_result hres
  · exact hf s a t hres t e (congrArg Prod.fst h)

theorem bind (hx : Fails P x) (hf : ∀ a, Fails P (f a)) : Fails P (x >>= f) :=
  hx.bind_of_ok fun _ a _ _ => hf a

theorem attempt_bind {x : Action σ α} {f : Except Failure α → Action σ β} (hx : Fails P x)
    (hok : ∀ a, Fails P (f (.ok a))) (herror : ∀ e, P e → Fails P (f (.error e))) :
    Fails P (x.attempt >>= f) := by
  intro s e h
  rw [result_bind, result_attempt] at h
  rcases hres : x.result s with ⟨e' | a, t⟩
  · rw [hres] at h
    exact herror e' (hx.of_result hres) t e h
  · rw [hres] at h
    exact hok a t e h

theorem onPart (hx : Fails P x) : Fails P (Action.onPart part put x) :=
  fun s => hx (part s)

end Fails

/-- A class of actions that has what is built from its members. -/
structure Composes (C : (α : Type) → Action σ α → Prop) : Prop where
  pure : ∀ {α : Type} (a : α), C α (Pure.pure a)
  bind : ∀ {α β : Type} {x : Action σ α} {f : α → Action σ β}, C α x → (∀ a, C β (f a)) →
    C β (x >>= f)

end Action

/-- A property of faults and refusals that contexts keep. Registries are refused in one place only, so
nothing is asked of that refusal. -/
structure Failure.Routine (P : Failure → Prop) : Prop where
  fault : ∀ f, P (.fault f)
  refusal : ∀ r, (∀ path flaws, r ≠ .registry path flaws) → P (.refusal r)
  within : ∀ c f, P f → P (.within c f)

theorem Action.Fails.within
    (hP : Failure.Routine P) (hx : Fails P x) (context : Context) : Fails P (x.within context) := by
  intro s f h
  rw [result_within] at h
  rcases hres : x.result s with ⟨e | a, t⟩
  · rw [hres] at h
    cases h
    exact hP.within _ _ (hx.of_result hres)
  · rw [hres] at h
    cases h

/-! ### Classes of actions on a disk -/

namespace OnDisk

open AgentChain.Action

variable {K : (Disk → Except Fault Disk) → Prop} {P : Failure → Prop}
  {C : (α : Type) → Action Disk α → Prop} {R : Disk → Disk → Prop} {α β : Type}

/-- A class of actions that has looks at the disk, changes of some kind, and everything that is built
from its members, with failures of some kind. -/
structure Closed (K : (Disk → Except Fault Disk) → Prop) (P : Failure → Prop)
    (C : (α : Type) → Action Disk α → Prop) : Prop where
  routine : Failure.Routine P
  view : ∀ {α : Type} {g : Disk → Except Failure α}, (∀ d f, g d = .error f → P f) →
    C α (.ofResult fun d => (g d, d))
  change : ∀ {f : Disk → Except Fault Disk}, K f → C Unit (change f)
  changeOr : ∀ {f : Disk → Except Fault Disk} {x : Action Disk Unit}, K f → C Unit x →
    C Unit (changeOr f x)
  makeDirectories : ∀ {path : Route}, (∀ r ∈ path.ancestors, K (·.createDirectory r)) →
    C Unit (makeDirectories path)
  bind : ∀ {α β : Type} {x : Action Disk α} {f : α → Action Disk β}, C α x → (∀ a, C β (f a)) →
    C β (x >>= f)
  attempt_bind : ∀ {α β : Type} {x : Action Disk α} {f : Except Failure α → Action Disk β}, C α x →
    (∀ a, C β (f (.ok a))) → (∀ e, P e → C β (f (.error e))) → C β (x.attempt >>= f)
  within : ∀ {α : Type} {x : Action Disk α} (context : Context), C α x → C α (x.within context)

theorem closed_moves (hR : Frame R) (hK : ∀ f, K f → ∀ d d', f d = .ok d' → R d d') :
    Closed K (fun _ => True) fun _ x => Moves R x where
  routine := ⟨fun _ => trivial, fun _ _ => trivial, fun _ _ _ => trivial⟩
  view _ := hR.refl
  change hf := moves_change hR (hK _ hf)
  changeOr hf hx := moves_changeOr hR (hK _ hf) hx
  makeDirectories h d := moves_createChain hR _ (fun r hr => hK _ (h r hr)) d
  bind hx hf := hR.bind hx hf
  attempt_bind hx hok herror := hR.bind (Frame.attempt hx) fun
    | .ok a => hok a
    | .error e => herror e trivial
  within context hx := Frame.within hx context

theorem closed_changes (hR : Frame R) :
    Closed (fun f => Moves R (change f)) (fun _ => True) fun _ x => Moves R x :=
  closed_moves hR fun _ hf _ _ h => hf.of_result (result_change_of_ok h)

theorem closed_still (hR : Frame R) : Closed (fun _ => False) (fun _ => True) fun _ x => Moves R x :=
  closed_moves hR nofun

theorem closed_fails (hP : Failure.Routine P) : Closed K P fun _ x => Fails P x where
  routine := hP
  view h := .ofResult h
  change {f} _ d e h := by
    rw [change, result_ofResult] at h
    split at h
    · cases h
    · cases h
      exact hP.fault _
  changeOr {f x} _ hx d e h := by
    rw [changeOr, result_ofResult] at h
    split at h
    · cases h
    · exact hx d e h
    · cases h
      exact hP.fault _
  makeDirectories {path} _ d e h := by
    rcases hres : d.createDirectories path with ⟨f | u, d'⟩
    · simp only [makeDirectories, result_ofResult, hres] at h
      cases h
      exact hP.fault f
    · simp only [makeDirectories, result_ofResult, hres] at h
      cases h
  bind hx hf := .bind hx hf
  attempt_bind hx hok herror := .attempt_bind hx hok herror
  within context hx := .within hP hx context

namespace Closed

variable (hC : Closed K P C)
include hC

theorem pure (a : α) : C α (Pure.pure a) :=
  hC.view (g := fun _ => .ok a) nofun

theorem fail (hf : P f) : C α (.fail f) :=
  hC.view (g := fun _ => .error f) fun _ _ h => Except.error.inj h ▸ hf

theorem look (f : Disk → α) : C α (look f) :=
  hC.view (g := fun d => .ok (f d)) nofun

theorem read (f : Disk → Except Fault α) : C α (read f) := by
  refine hC.view fun d e h => ?_
  cases hf : f d with
  | error fault =>
    rw [hf] at h
    exact Except.error.inj h ▸ hC.routine.fault fault
  | ok a =>
    rw [hf] at h
    cases h

theorem ofFault (x : Except Fault α) : C α (.ofFault x) :=
  hC.read fun _ => x

theorem readBytes (path : Route) : C Bytes (readBytes path) :=
  hC.within _ (hC.read _)

theorem readText (path : Route) : C String (readText path) :=
  hC.within _ (hC.read _)

theorem collect (path : Route) : C (List Disk.Collected) (collect path) :=
  hC.within _ (hC.read _)

theorem createDirectoriesFor (act : Act)
    (h : ∀ r ∈ path.ancestors, K (·.createDirectory r)) : C Unit (createDirectoriesFor act path) :=
  hC.within _ (hC.makeDirectories h)

theorem createDirectories (h : ∀ r ∈ path.ancestors, K (·.createDirectory r)) :
    C Unit (createDirectories path) :=
  hC.createDirectoriesFor _ h

end Closed

end OnDisk

/-! ### Paths that are texts -/

/-- A change at a path that is a text. -/
inductive Disk.TextChange : (Disk → Except Fault Disk) → Prop
  | writeFile (path : String) (c : Bytes) : TextChange (·.writeFile path c)
  | copy (source : Route) (path : String) : TextChange (·.copy source path)
  | rename (source : Route) (path : String) : TextChange (·.rename source path)
  | removeFile (r : Route) : TextChange (·.removeFile r)
  | removeTree (r : Route) : TextChange (·.removeTree r)
  | removeAny (r : Route) : TextChange fun d =>
    match d.removeFile r with
    | .error .notFound => .ok d
    | x => x
  | createDirectory (path : String) : TextChange (·.createDirectory path)

section Classes

open AgentChain.Action Disk OnDisk

variable {K : (Disk → Except Fault Disk) → Prop} {P : Failure → Prop}
  {C : (α : Type) → Action Disk α → Prop} {path : String}

namespace OnDisk.Closed

variable (hmake : ∀ path : String, K (·.createDirectory path)) (hC : Closed K P C)
include hmake hC

theorem createDirectories_text (path : String) : C Unit (OnDisk.createDirectories path) := by
  refine hC.createDirectories fun r hr => ?_
  rw [Route.ancestors] at hr
  obtain ⟨a, -, rfl⟩ : ∃ a ∈ Path.ancestors path, (a : Route) = r := by simpa using hr
  exact hmake a

theorem createParent_text (path : String) : C Unit (OnDisk.createParent path) := by
  rw [OnDisk.createParent, Route.parent?]
  simp only [List.isEmpty_nil, if_true]
  cases Path.parent? path with
  | none => exact hC.pure ()
  | some a => exact hC.createDirectories_text hmake a

end OnDisk.Closed

/-! ### Stored documents -/

theorem Storage.closed_readDocument (hC : Closed K P C) (read : Document.Reader α)
    (path : String) : C α (readDocument read path) := by
  refine hC.bind (hC.readText _) fun contents => ?_
  split
  · exact hC.pure _
  · exact hC.fail (hC.routine.within _ _ (hC.routine.fault _))

theorem Storage.closed_writeDocument (hC : Closed TextChange P C) (path : String)
    (value : Json.Value) : C Unit (writeDocument path value) := by
  refine hC.bind (hC.createParent_text .createDirectory _) fun _ => ?_
  refine hC.bind (hC.within _ (hC.change (.writeFile _ _))) fun _ => ?_
  exact hC.within _ (hC.change (.rename _ _))

theorem Registry.closed_check (hC : Closed K P C)
    (hflaws : r.flaws ≠ [] → P (.refusal (.registry path r.flaws))) :
    C Unit (Registry.check path r) := by
  rw [Registry.check]
  split
  · exact hC.pure ()
  · next hsome => exact hC.fail (hflaws fun hnil => hsome (List.isEmpty_iff.2 hnil))

theorem Registry.closed_load (hC : Closed K P C)
    (hflaws : ∀ flaws, P (.refusal (.registry path flaws))) : C Registry (load path) :=
  hC.bind (Storage.closed_readDocument hC _ _) fun r =>
    hC.bind (closed_check hC fun _ => hflaws r.flaws) fun _ => hC.pure r

theorem Registry.closed_store (hC : Closed TextChange P C)
    (hflaws : r.flaws ≠ [] → P (.refusal (.registry path r.flaws))) : C Unit (store path r) :=
  hC.bind (closed_check hC hflaws) fun _ => Storage.closed_writeDocument hC _ _

/-! ### Archives -/

namespace Archive

variable (hC : Closed K P C)
include hC

theorem closed_membersFor (files : List Collected) : C _ (membersFor files) := by
  induction files with
  | nil => exact hC.pure _
  | cons file files ih =>
    refine hC.bind (hC.readBytes _) fun contents => ?_
    split
    · exact hC.fail (hC.routine.within _ _ (hC.routine.fault _))
    · exact hC.bind ih fun _ => hC.pure _

theorem closed_count (path : String) : C Nat (count path) := by
  refine hC.bind (hC.within _ (hC.read _)) fun opened => ?_
  simp only
  split
  · exact hC.fail (hC.routine.within _ _ (hC.routine.fault _))
  · exact hC.pure _

theorem closed_hashFile (path : Route) : C String (hashFile path) :=
  hC.bind (hC.within _ (hC.read _)) fun _ => hC.bind (hC.within _ (hC.ofFault _)) fun _ => hC.pure _

theorem closed_sizeOf (path : Route) : C UInt64 (sizeOf path) :=
  hC.bind (hC.within _ (hC.read _)) fun _ => hC.pure _

theorem closed_writeMembers [Gzip.Encoder] {temporary : String}
    (hwrite : ∀ c, K (·.writeFile temporary c)) (files : List Collected)
    : C _ (writeMembers files temporary) := by
  refine hC.bind (hC.within _ (hC.change (hwrite _))) fun _ => ?_
  refine hC.bind (closed_membersFor hC files) fun _ => ?_
  exact hC.bind (hC.within _ (hC.change (hwrite _))) fun _ => hC.pure _

theorem closed_writeChecked [Gzip.Encoder] {temporary out : String}
    (hempty : P (.packaging (.emptyArchive out))) (hwrite : ∀ c, K (·.writeFile temporary c))
    (files : List Collected) :
    C _ (writeChecked files temporary out) := by
  refine hC.bind (closed_writeMembers hC hwrite files) fun entries => ?_
  refine hC.bind (closed_count hC _) fun n => ?_
  split
  · exact hC.fail hempty
  · exact hC.pure _

theorem closed_pack [Gzip.Encoder] (hempty : P (.packaging (.emptyArchive out)))
    (hparent : C Unit (createParent out)) (hchange : ∀ name, Path.fileName? out = some name →
      let temporary := Path.withFileName out (name ++ ".tmp")
      (∀ c, K (·.writeFile temporary c)) ∧ K (·.removeFile temporary) ∧ K (·.rename temporary out))
    (tree : String) : C Summary (pack tree out) := by
  refine hC.bind (hC.collect _) fun files => hC.bind hparent fun _ => ?_
  split
  · exact hC.fail (hC.routine.refusal _ nofun)
  next name hname =>
    obtain ⟨hwrite, hremove, hrename⟩ := hchange name hname
    refine hC.attempt_bind (closed_writeChecked hC hempty hwrite files) (fun entries => ?_)
      fun f hf => ?_
    · refine hC.bind (hC.within _ (hC.change hrename)) fun _ => ?_
      exact hC.bind (closed_sizeOf hC _) fun _ => hC.bind (closed_hashFile hC _) fun _ => hC.pure _
    · have hdiscard : C Unit (discard _) :=
        hC.attempt_bind (hC.change hremove) (fun _ => hC.pure _) fun _ _ => hC.pure _
      exact hC.bind hdiscard fun _ => hC.fail hf

end Archive

/-! ### Packaging -/

namespace Package

theorem closed_copyPackages (hC : Closed K P C) (hmissing : ∀ f, P (.packaging f))
    (vendorDir dest : String) (files : List (String × String))
    (hcopy : ∀ p ∈ files, ∀ source : Route, K (·.copy source (Path.join dest p.2))) :
    C Unit (copyPackages vendorDir dest files) := by
  induction files with
  | nil => exact hC.pure _
  | cons file files ih =>
    refine hC.bind (hC.look _) fun there => ?_
    split
    · exact hC.fail (hmissing _)
    · refine hC.bind (hC.within _ (hC.change (hcopy _ List.mem_cons_self _))) fun _ => ?_
      exact ih fun p hp => hcopy p (List.mem_cons_of_mem _ hp)

theorem closed_buildDepsTree (hC : Closed K P C) (hmissing : ∀ f, P (.packaging f))
    (hmake : ∀ path : String, K (·.createDirectory path))
    (hcopy : ∀ (source : Route) (path : String), K (·.copy source path)) (vendorDir : String)
    (vendor : VendorManifest) (tree : String) : C Unit (buildDepsTree vendorDir vendor tree) :=
  hC.bind (hC.createDirectories_text hmake _) fun _ =>
    closed_copyPackages hC hmissing _ _ _ fun _ _ source => hcopy source _

variable (hC : Closed TextChange P C)
include hC

theorem closed_resetDirectory (path : String) : C Unit (resetDirectory path) := by
  have hmake := hC.createDirectories_text .createDirectory path
  refine hC.bind (hC.look _) fun there => ?_
  split
  · exact hC.bind (hC.within _ (hC.change (.removeTree _))) fun _ => hmake
  · exact hmake

theorem closed_remove (a : Artifact) : C Unit a.remove :=
  have hfile (path : String) : C Unit (Artifact.removeFile path) :=
    hC.within _ (hC.change (.removeAny path))
  hC.bind (hfile _) fun _ => hfile _

theorem closed_copyFiles (dest : String) (files : List Collected) : C Unit (copyFiles dest files) := by
  induction files with
  | nil => exact hC.pure _
  | cons file files ih =>
    rw [copyFiles]
    split
    · refine hC.bind (hC.createParent_text .createDirectory _) fun _ => ?_
      exact hC.bind (hC.within _ (hC.change (.copy _ _))) fun _ => ih
    · exact ih

theorem closed_copyTree (source dest : String) : C Unit (copyTree source dest) :=
  hC.bind (hC.collect _) fun files => closed_copyFiles hC dest files

variable (hmissing : ∀ f, P (.packaging f))
include hmissing

theorem closed_copyAgents (tree : String) (agents : List Agent.Descriptor) :
    C _ (copyAgents tree agents) := by
  induction agents with
  | nil => exact hC.pure _
  | cons agent agents ih =>
    refine hC.bind (hC.look _) fun there => ?_
    split
    · exact hC.fail (hmissing _)
    · exact hC.bind (closed_copyTree hC _ _) fun _ => hC.bind ih fun _ => hC.pure _

theorem closed_buildCodeTree (hflaws : ∀ path flaws, P (.refusal (.registry path flaws)))
    (runtimeDir : String) (discovery : Discovery) (tree : String) :
    C Registry (buildCodeTree runtimeDir discovery tree) := by
  refine hC.bind (hC.createDirectories_text .createDirectory _) fun _ => ?_
  refine hC.bind (hC.look _) fun there => ?_
  have hrest : C Registry (do
      let agents ← copyAgents tree discovery.agents
      let registry : Registry := { agents, rootAgent := discovery.rootAgent }
      Registry.store (Path.join tree Registry.fileName) registry
      return registry) :=
    hC.bind (closed_copyAgents hC hmissing tree _) fun agents =>
      hC.bind (Registry.closed_store hC fun _ => hflaws _ _) fun _ => hC.pure _
  split
  · exact hC.bind (closed_copyTree hC _ _) fun _ => hrest
  · exact hrest

theorem closed_finish [Gzip.Encoder] (tree : String) (a : Artifact) (m : ArchiveManifest) :
    C ArchiveManifest (finish tree a m) := by
  refine hC.bind (Archive.closed_pack hC (hmissing _) (hC.createParent_text .createDirectory _)
    (fun _ _ => ⟨.writeFile _, .removeFile _, .rename _ _⟩) tree) fun _ => ?_
  exact hC.bind (Storage.closed_writeDocument hC _ _) fun _ => hC.pure _

end Package

end Classes

end AgentChain

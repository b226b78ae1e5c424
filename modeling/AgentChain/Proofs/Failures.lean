import AgentChain.Proofs.Archive.ZipContainment
import AgentChain.Run

/-!
# What actions fail with

A property of failures that contexts keep is a property of all failures of an action once it holds of
those that the action raises itself. Most actions raise faults and refusals only: operations on a disk,
archives that are unpacked, stored documents, and the operations of a native sandbox.
-/

namespace AgentChain

open AgentChain.Action

variable {P : Failure → Prop}

/-! ### Worlds -/

theorem World.fails_report (e : Event) : Fails P (World.report e) :=
  nofun

section Routine

variable (hP : Failure.Routine P)
include hP

theorem OnDisk.closed_routine : OnDisk.Closed (fun _ => True) P fun _ x => Fails P x :=
  closed_fails hP

theorem OnDisk.fails_change (f : Disk → Except Fault Disk) : Fails P (change f) :=
  (closed_routine hP).change trivial

theorem OnDisk.fails_createParent (path : String) : Fails P (createParent path) :=
  (closed_routine hP).createParent_text (fun _ => trivial) path

end Routine

/-! ### Sandboxes -/

namespace Sandbox

variable {S : Type} {box : Sandbox S}

/-- The failures of the operations of a sandbox have a property. -/
structure Fails (P : Failure → Prop) (box : Sandbox S) : Prop where
  createDirectories : ∀ path, Action.Fails P (box.createDirectories path)
  writeFile : ∀ path contents, Action.Fails P (box.writeFile path contents)
  readBytes : ∀ path, Action.Fails P (box.readBytes path)
  removeFile : ∀ path, Action.Fails P (box.removeFile path)
  injectHost : ∀ info, Action.Fails P (box.injectHost info)
  resolveModule : ∀ path, Action.Fails P (box.resolveModule path)
  invoke : ∀ call, Action.Fails P (box.invoke call)

namespace Native

variable (hP : Failure.Routine P)
include hP

theorem fails_atPath (hact : ∀ host, Action.Fails P (act host))
    (path : String) : Action.Fails P (atPath path act) := by
  intro s f h
  rw [atPath, result_ofResult] at h
  split at h
  · next f' hpath =>
    cases h
    rw [hostPath] at hpath
    split at hpath
    · split at hpath
      · cases hpath
      · cases hpath
        exact hP.refusal _ nofun
    · cases hpath
      exact hP.refusal _ nofun
  · next host _ => exact hact host s.1 f h

theorem fails_writeFile (path : String) (contents : Bytes) :
    Action.Fails P (writeFile path contents) :=
  fails_atPath hP (fun _ => .bind (OnDisk.fails_createParent hP _) fun _ =>
    .within hP (OnDisk.fails_change hP _) _) path

theorem fails_readBytes (path : String) : Action.Fails P (readBytes path) := by
  refine fails_atPath hP (fun _ => .bind ((OnDisk.closed_routine hP).look _) fun there => ?_) path
  split
  · exact .bind ((OnDisk.closed_routine hP).readBytes _) fun _ => .pure _
  · exact .pure _

theorem fails_resolveModule (path : String) : Action.Fails P (resolveModule path) := by
  intro s f h
  rw [resolveModule, result_ofResult] at h
  split at h
  · cases h
    exact hP.refusal _ nofun
  · split at h
    · cases h
    · cases h
      exact hP.refusal _ nofun

theorem fails_invoke (call : Invocation) : Action.Fails P (invoke call) := by
  have hmodule : Action.Fails P (moduleOf call.module) := by
    intro s f h
    rw [moduleOf, result_ofResult] at h
    split at h
    · cases h
    · cases h
      exact hP.refusal _ nofun
  have hhost : Action.Fails P requireHost := by
    intro s f h
    rw [requireHost, result_ofResult] at h
    split at h
    · cases h
    · cases h
      exact hP.refusal _ nofun
  have htape : Action.Fails P (readTape call.inputTape) := by
    refine .bind (fails_readBytes hP _) fun raw => ?_
    split
    · exact .fail (hP.refusal _ nofun)
    · split
      · exact .pure _
      · exact .fail (hP.within _ _ (hP.fault _))
  refine .bind hmodule fun program => .bind hhost fun _ => .bind htape fun tape => ?_
  dsimp only
  split
  · exact .pure _
  · split
    · exact .bind (fails_writeFile hP _ _) fun _ => .pure _
    · exact .pure _

end Native

theorem native_fails (hP : Failure.Routine P) : native.Fails P where
  createDirectories path :=
    Native.fails_atPath hP (fun _ => (OnDisk.closed_routine hP).createDirectoriesFor _ fun _ _ => trivial) path
  writeFile := Native.fails_writeFile hP
  readBytes := Native.fails_readBytes hP
  removeFile path := Native.fails_atPath hP (fun _ => .within hP (OnDisk.fails_change hP _) _) path
  injectHost _ := .bind (Native.fails_writeFile hP _ _) fun _ => .ofResult fun _ => nofun
  resolveModule := Native.fails_resolveModule hP
  invoke := Native.fails_invoke hP

/-- A class of actions that has what is built from its members brings in code if it has the operations
of the sandbox for that. -/
theorem composes_bringIn {C : (α : Type) → Action (Disk × S) α → Prop} {source : String} (hC : Composes C)
    (hread : ∀ path, C Bytes (onDisk (OnDisk.readBytes path)))
    (hcollect : C _ (onDisk (OnDisk.collect source)))
    (hcreate : ∀ path, C Unit (box.createDirectories path))
    (hwrite : ∀ path contents, C Unit (box.writeFile path contents)) (dest : String) :
    C Nat (box.bringIn source dest) := by
  have hfiles : ∀ files : List Disk.Collected, C Unit (box.bringInFiles dest files) := by
    intro files
    induction files with
    | nil => exact hC.pure ()
    | cons file files ih =>
      refine hC.bind (hread _) fun contents => ?_
      have hrest : ∀ target, C Unit (box.writeFile target contents >>= fun _ =>
          box.bringInFiles dest files) := fun target => hC.bind (hwrite target contents) fun _ => ih
      dsimp only
      split
      · split
        · exact hrest _
        · exact hC.bind (hcreate _) fun _ => hrest _
      · exact hrest _
  exact hC.bind hcollect fun files => hC.bind (hcreate _) fun _ =>
    hC.bind (hfiles files) fun _ => hC.pure _

theorem fails_bringIn (hP : Failure.Routine P) (hbox : box.Fails P) (source dest : String) :
    Action.Fails P (box.bringIn source dest) :=
  have hdisk := OnDisk.closed_routine hP
  composes_bringIn (C := fun _ x => Action.Fails P x) ⟨.pure, .bind⟩ (fun _ => .onPart (hdisk.readBytes _))
    (.onPart (hdisk.collect _)) hbox.createDirectories hbox.writeFile dest

end Sandbox

theorem Stage.fails_buildTable (hP : Failure.Routine P)
    (hbox : box.Fails P) (registry : Registry) : Fails P (buildTable box registry) := by
  have hagents : ∀ agents table, Fails P (resolveAgents box agents table) := by
    intro agents
    induction agents with
    | nil => exact fun table => .pure table
    | cons agent agents ih =>
      exact fun table => .bind (.within hP (hbox.resolveModule _) _) fun _ => ih _
  exact hagents registry.agents []

end AgentChain

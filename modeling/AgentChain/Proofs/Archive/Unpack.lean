import AgentChain.Archive.Unpack
import AgentChain.Proofs.Building

/-!
# Unpacking keeps disks sound

Whatever an archive holds, unpacking it leaves a sound disk sound, also when it stops on the way. The
same holds for reporting events to logs.
-/

namespace AgentChain

open AgentChain.Action

def Disk.StaysSound (d d' : Disk) : Prop :=
  d.Sound → d'.Sound

namespace Disk.StaysSound

theorem frame : Frame StaysSound :=
  Action.frame_keeps _

theorem createDirectory (d : Disk) (r : Route) (d' : Disk) (h : d.createDirectory r = .ok d') :
    StaysSound d d' :=
  fun hd => hd.createDirectory h

end Disk.StaysSound

def Disk.Sane (f : Disk → Except Fault Disk) : Prop :=
  ∀ d d', f d = .ok d' → StaysSound d d'

theorem Disk.Sane.createDirectory (r : Route) : Sane (·.createDirectory r) :=
  fun d d' => StaysSound.createDirectory d r d'

open Disk (StaysSound)

theorem World.sound_reporting {w : World} (h : w.disk.Sound) (e : Event) :
    (w.reporting e).disk.Sound :=
  moves_reporting StaysSound.frame w e (fun _ _ _ _ hd h => h.append hd) h

namespace Archive

/-! ### Unpacking, operation by operation -/

section Closed

variable {P : Failure → Prop} {C : (α : Type) → Action Disk α → Prop}

theorem closed_ensureInside (hC : OnDisk.Closed K P C)
    (dest path : Route) : C Unit (ensureInside dest path) := by
  refine hC.bind (hC.read _) fun place => hC.bind (hC.read _) fun top => ?_
  split
  · exact hC.pure _
  · exact hC.fail (hC.routine.fault _)

variable (hC : OnDisk.Closed Disk.Sane P C)
include hC

theorem closed_createInside (dest : Route) (directories : List Route) :
    C Unit (createInside dest directories) := by
  induction directories with
  | nil => exact hC.pure _
  | cons directory rest ih =>
    have hmake : C Unit (OnDisk.makeDirectories directory >>= fun _ => createInside dest rest) :=
      hC.bind (hC.makeDirectories fun r _ => .createDirectory r) fun _ => ih
    rw [createInside]
    split
    · exact hC.bind (closed_ensureInside hC _ _) fun _ => hmake
    · exact hmake

theorem closed_unpackDirectory (mayEnter? : Option Bool) (path : Route) :
    C Unit (unpackDirectory mayEnter? path) := by
  refine hC.bind (hC.changeOr (.createDirectory path) (hC.bind (hC.look _) fun entry => ?_))
    fun _ => ?_
  · split
    · exact hC.pure _
    · exact hC.fail (hC.routine.fault _)
  · split
    · exact hC.change fun d d' h hd => hd.setClosed h
    · exact hC.pure _

theorem closed_unpackSymlink (target : Bytes) (path : Route) : C Unit (unpackSymlink target path) :=
  hC.changeOr (fun _ _ h hd => hd.symlink h) <|
    hC.bind (hC.change fun _ _ h hd => hd.removeFile h) fun _ =>
      hC.change fun _ _ h hd => hd.symlink h

theorem closed_unpackHardLink (dest : Route) (target : Bytes) (path : Route) :
    C Unit (unpackHardLink dest target path) :=
  hC.bind (hC.read _) fun _ => hC.bind (closed_ensureInside hC _ _) fun _ =>
    hC.change fun _ _ h hd => hd.hardLink h

theorem closed_unpackFile (m : Tar.Member) (path : Route) : C Unit (unpackFile m path) := by
  refine hC.bind (hC.changeOr (fun _ _ h hd => hd.createNew h) <|
    hC.bind (hC.change fun _ _ h hd => hd.removeFile h) fun _ =>
      hC.change fun _ _ h hd => hd.createNew h) fun _ => ?_
  split
  · exact hC.fail (hC.routine.fault _)
  · exact hC.pure _

theorem closed_unpackTo (dest : Route) (m : Tar.Member) (path : Route) :
    C Unit (unpackTo dest m path) := by
  have hmalformed : C Unit (.fail (.fault .malformed)) := hC.fail (hC.routine.fault _)
  rw [unpackTo]
  split
  · split
    · split
      · exact hmalformed
      · exact closed_unpackSymlink hC _ path
    · exact hmalformed
  · split
    · split
      · exact hmalformed
      · exact closed_unpackHardLink hC dest _ path
    · exact hmalformed
  · split
    · exact hC.pure _
    split
    · exact closed_unpackDirectory hC _ _
    · exact closed_unpackFile hC _ _

theorem closed_unpackMember (archive dest : String) (m : Tar.Member) :
    C Unit (unpackMember archive dest m) := by
  rw [unpackMember]
  split
  · exact hC.fail (hC.routine.refusal _ nofun)
  split
  · exact hC.pure _
  · refine hC.within _ (hC.bind ?_ fun _ => hC.bind (closed_ensureInside hC _ _) fun _ => ?_)
    · exact hC.bind (hC.look _) fun _ => closed_createInside hC _ _
    · exact closed_unpackTo hC _ _ _

theorem closed_unpackMembers (archive dest : String) (members : List Tar.Member) :
    C Unit (unpackMembers archive dest members) := by
  induction members with
  | nil => exact hC.pure _
  | cons m rest ih => exact hC.bind (closed_unpackMember hC archive dest m) fun _ => ih

theorem closed_unpack (archive dest : String) : C Unit (unpack archive dest) := by
  refine hC.bind (hC.within _ (hC.read _)) fun opened => ?_
  refine hC.bind (hC.createDirectories fun r _ => .createDirectory r) fun _ => ?_
  refine hC.bind (closed_unpackMembers hC _ _ _) fun _ => ?_
  split
  · exact hC.fail (hC.routine.within _ _ (hC.routine.fault _))
  · exact hC.pure _

end Closed

theorem staysSound_unpack (archive dest : String) : Moves StaysSound (unpack archive dest) :=
  closed_unpack (OnDisk.closed_moves StaysSound.frame fun _ hf => hf) archive dest

end Archive

end AgentChain

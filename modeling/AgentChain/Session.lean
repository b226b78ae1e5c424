import AgentChain.World

/-!
# Sessions

A session is a world together with a state of something that works in it, such as a sandbox or a
fetcher. A sandbox keeps files on the disk of the world, so its actions are on that disk and on its
state.
-/

namespace AgentChain

/-- A world beside the state of a sandbox or of a fetcher. -/
structure Session (S : Type) where
  world : World
  state : S

namespace Session

variable {S α : Type}

def onWorld (x : Action World α) : Action (Session S) α :=
  Action.onPart Session.world (fun w s => { s with world := w }) x

def onState (x : Action (Disk × S) α) : Action (Session S) α :=
  Action.onPart (fun s => (s.world.disk, s.state))
    (fun t s => { world := { s.world with disk := t.1 }, state := t.2 }) x

def report (e : Event) : Action (Session S) Unit :=
  onWorld (World.report e)

def withLog (path : String) (x : Action (Session S) α) : Action (Session S) α :=
  World.withLog Session.world (fun w s => { s with world := w }) path x

/-- What an action in a session that starts with a state comes to, and the state after it. -/
def enter (state : S) (x : Action (Session S) α) : Action World (Except Failure α × S) :=
  .ofResult fun world =>
    let (r, after) := x.result { world, state }
    (.ok (r, after.state), after.world)

end Session

end AgentChain

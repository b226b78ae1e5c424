import AgentChain.Failure
import AgentChain.FileTree.Collection

/-!
# Actions

An action changes a state and gives a value or a failure. What was changed before a failure stays
changed. An action on a part of a state is an action on the whole, and a context is put around the
failures of an action without touching anything else.
-/

namespace AgentChain

/-- A change of a state that gives a value or fails. -/
abbrev Action (σ : Type) := ExceptT Failure (StateM σ)

namespace Action

variable {σ τ α : Type}

/-- The value or failure of an action on a state, and the state after it. -/
def result (x : Action σ α) (s : σ) : Except Failure α × σ :=
  StateT.run (ExceptT.run x) s

/-- The action that does what a function says. -/
def ofResult (f : σ → Except Failure α × σ) : Action σ α :=
  ExceptT.mk f

def fail (f : Failure) : Action σ α :=
  ofResult fun s => (.error f, s)

def ofExcept (x : Except Failure α) : Action σ α :=
  ofResult fun s => (x, s)

def ofFault (x : Except Fault α) : Action σ α :=
  ofExcept (x.mapError .fault)

/-- Put the failures of an action into a context. -/
def within (context : Context) (x : Action σ α) : Action σ α :=
  ofResult fun s =>
    match x.result s with
    | (.error f, s) => (.error (.within context f), s)
    | (.ok a, s) => (.ok a, s)

/-- Act on a part of the state. -/
def onPart (part : σ → τ) (put : τ → σ → σ) (x : Action τ α) : Action σ α :=
  ofResult fun s =>
    let (r, t) := x.result (part s)
    (r, put t s)

/-- Act without failing: a failure is a result. -/
def attempt (x : Action σ α) : Action σ (Except Failure α) :=
  ofResult fun s =>
    let (r, s) := x.result s
    (.ok r, s)

/-- The results of actions that are done one after another, whatever they come to. -/
def attemptAll : List (Action σ α) → Action σ (List (Except Failure α))
  | [] => return []
  | x :: rest => do
    let r ← x.attempt
    return r :: (← attemptAll rest)

end Action

/-! ### Operations on a disk -/

namespace OnDisk

variable {α : Type}

def look (f : Disk → α) : Action Disk α :=
  .ofResult fun d => (.ok (f d), d)

def read (f : Disk → Except Fault α) : Action Disk α :=
  .ofResult fun d => ((f d).mapError .fault, d)

def change (f : Disk → Except Fault Disk) : Action Disk Unit :=
  .ofResult fun d =>
    match f d with
    | .ok d => (.ok (), d)
    | .error e => (.error (.fault e), d)

/-- Change the disk; if something stands in the way, do something else. -/
def changeOr (f : Disk → Except Fault Disk) (otherwise : Action Disk Unit) : Action Disk Unit :=
  .ofResult fun d =>
    match f d with
    | .ok d => (.ok (), d)
    | .error .alreadyExists => otherwise.result d
    | .error e => (.error (.fault e), d)

def readBytes (path : Route) : Action Disk Bytes :=
  (read (·.readBytes path)).within (.on .read path.text)

def readText (path : Route) : Action Disk String :=
  (read (·.readText path)).within (.on .read path.text)

def writeFile (path : Route) (contents : Bytes) : Action Disk Unit :=
  (change (·.writeFile path contents)).within (.on .write path.text)

def makeDirectories (path : Route) : Action Disk Unit :=
  .ofResult fun d =>
    let (made, d) := d.createDirectories path
    (made.mapError .fault, d)

/-- Make a directory and the missing ones above it, for a purpose. -/
def createDirectoriesFor (act : Act) (path : Route) : Action Disk Unit :=
  (makeDirectories path).within (.on act path.text)

def createDirectories (path : Route) : Action Disk Unit :=
  createDirectoriesFor .create path

def createParent (path : Route) : Action Disk Unit :=
  match path.parent? with
  | some directory => createDirectories directory
  | none => pure ()

/-- The regular files of a tree, in ascending order of their relative names. -/
def collect (path : Route) : Action Disk (List Disk.Collected) :=
  (read (·.collect path)).within (.on .walk path.text)

end OnDisk

end AgentChain

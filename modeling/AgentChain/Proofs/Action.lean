import AgentChain.Session

/-!
# What actions come to

An action is followed through its result: the value or failure it gives and the state it leaves. One
lemma for each way of building actions says what the result is, so that an action written in steps
can be taken apart without opening the layers that it is made of.
-/

namespace AgentChain

namespace Action

variable {σ τ α β : Type} {x : Action σ α} {f : α → Action σ β}

@[simp] theorem result_ofResult (f : σ → Except Failure α × σ) (s : σ) :
    (ofResult f).result s = f s :=
  rfl

theorem result_bind (x : Action σ α) (f : α → Action σ β) (s : σ) :
    (x >>= f).result s =
      match x.result s with
      | (.ok a, t) => (f a).result t
      | (.error e, t) => (.error e, t) := by
  simp only [result, bind, ExceptT.bind, ExceptT.mk, ExceptT.run, StateT.bind, StateT.run]
  rcases x s with ⟨_ | _, _⟩ <;> rfl

theorem result_bind_of_ok (h : x.result s = (.ok a, t))
    (f : α → Action σ β) : (x >>= f).result s = (f a).result t := by
  rw [result_bind, h]

theorem result_bind_of_error (h : x.result s = (.error e, t))
    (f : α → Action σ β) : (x >>= f).result s = (.error e, t) := by
  rw [result_bind, h]

theorem result_bind_eq_ok : (x >>= f).result s = (.ok b, u) ↔
      ∃ a t, x.result s = (.ok a, t) ∧ (f a).result t = (.ok b, u) := by
  rw [result_bind]
  rcases x.result s with ⟨e | a, t⟩
  · simp
  · constructor
    · exact fun h => ⟨a, t, rfl, h⟩
    · rintro ⟨_, _, ⟨⟩, h⟩
      exact h

theorem result_bind_eq_error :
    (x >>= f).result s = (.error e, u) ↔ x.result s = (.error e, u) ∨
      ∃ a t, x.result s = (.ok a, t) ∧ (f a).result t = (.error e, u) := by
  rw [result_bind]
  rcases x.result s with ⟨e' | a, t⟩ <;> simp [and_assoc]

theorem exists_of_map_toOption {s} {f : α → β} {b}
    (h : (x.result s).1.toOption.map f = some b) : ∃ a t, x.result s = (.ok a, t) ∧ f a = b := by
  rcases hx : x.result s with ⟨e | a, t⟩
  · simp [hx, Except.toOption] at h
  · exact ⟨a, t, rfl, by simpa [hx, Except.toOption] using h⟩

theorem exists_of_isSome {s} (h : (x.result s).1.toOption.isSome) :
    ∃ a t, x.result s = (.ok a, t) := by
  rcases hx : x.result s with ⟨e | a, t⟩
  · simp [hx, Except.toOption] at h
  · exact ⟨a, t, rfl⟩

@[simp] theorem result_onPart (part : σ → τ) (put : τ → σ → σ) (x : Action τ α) (s : σ) :
    (onPart part put x).result s = ((x.result (part s)).1, put (x.result (part s)).2 s) :=
  rfl

@[simp] theorem result_attempt (x : Action σ α) (s : σ) :
    x.attempt.result s = (.ok (x.result s).1, (x.result s).2) :=
  rfl

theorem of_result_attempt (h : x.attempt.result s = (.ok r, t)) : x.result s = (r, t) :=
  Prod.ext (Except.ok.inj (Prod.mk.inj h).1) (Prod.mk.inj h).2

end Action

theorem World.of_result_onDisk (h : (onDisk x).result w = (r, w')) :
    x.result w.disk = (r, w'.disk) ∧ w'.logs = w.logs := by
  rw [onDisk, Action.result_onPart] at h
  cases h
  exact ⟨rfl, rfl⟩

/-- The world with another disk. -/
abbrev World.on (w : World) (d : Disk) : World :=
  { w with disk := d }

theorem World.onDisk_bind_eq_ok : (onDisk x >>= f).result w = (.ok b, w') ↔
      ∃ a d, x.result w.disk = (.ok a, d) ∧ (f a).result (w.on d) = (.ok b, w') := by
  rw [Action.result_bind, onDisk, Action.result_onPart]
  rcases x.result w.disk with ⟨e | a, d⟩
  · simp
  · constructor
    · exact fun h => ⟨a, d, rfl, h⟩
    · rintro ⟨_, _, ⟨⟩, h⟩
      exact h

namespace Session

variable {S α : Type} {x : Action (Disk × S) α}

/-- The session with another disk. -/
abbrev on (s : Session S) (d : Disk) : Session S :=
  { s with world := s.world.on d }

theorem result_onState {s r d} {state} (h : x.result (s.world.disk, s.state) = (r, (d, state))) :
    (onState x).result s = (r, { world := s.world.on d, state }) := by
  rw [onState, Action.result_onPart, h]

theorem of_result_onState (h : (onState x).result s = (r, t)) :
    x.result (s.world.disk, s.state) = (r, (t.world.disk, t.state)) ∧
      t.world = s.world.on t.world.disk := by
  rw [onState, Action.result_onPart] at h
  cases h
  exact ⟨rfl, rfl⟩

theorem of_result_onWorld {x : Action World α} {s t : Session S}
    (h : (onWorld x).result s = (r, t)) : x.result s.world = (r, t.world) ∧ t.state = s.state := by
  rw [onWorld, Action.result_onPart] at h
  cases h
  exact ⟨rfl, rfl⟩

def reporting (s : Session S) (e : Event) : Session S :=
  { s with world := s.world.reporting e }

@[simp] theorem result_report (e : Event) (s : Session S) :
    (report e).result s = (.ok (), s.reporting e) :=
  rfl

theorem result_reportAll (events : List Event) (s : Session S) :
    (onWorld (World.reportAll events)).result s = (.ok (), events.foldl reporting s) := by
  induction events generalizing s with
  | nil => rfl
  | cons e events ih => exact ih (s.reporting e)

theorem state_foldl_reporting (events : List Event) (s : Session S) :
    (events.foldl reporting s).state = s.state := by
  induction events generalizing s with
  | nil => rfl
  | cons e events ih => exact ih (s.reporting e)

theorem supply_foldl_reporting (events : List Event) (s : Session S) :
    (events.foldl reporting s).world.supply = s.world.supply ∧
      (events.foldl reporting s).world.drawn = s.world.drawn := by
  induction events generalizing s with
  | nil => exact ⟨rfl, rfl⟩
  | cons e events ih => exact ih (s.reporting e)

def afterDraw (s : Session S) : Session S :=
  { s with world := { s.world with drawn := s.world.drawn + 1 } }

theorem result_draw (s : Session S) :
    (onWorld World.draw).result s = (.ok (s.world.supply s.world.drawn), s.afterDraw) :=
  rfl

end Session

end AgentChain

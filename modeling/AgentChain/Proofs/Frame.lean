import AgentChain.Proofs.Action
import AgentChain.Proofs.FileTree.Operations

/-!
# What actions do to a state

What an action leaves behind is often of interest whatever the action comes to. An action moves a
state within a relation if the state before it and the state after it are always related. For a
relation that every state has to itself and that can be chained, an action moves within it if its
parts do. This is used for disks: whatever an action on a sound disk does, the disk stays sound.
-/

namespace AgentChain

namespace Action

variable {σ τ α β : Type} {x : Action σ α} {f : α → Action σ β} {R : σ → σ → Prop}

@[simp] theorem result_pure (a : α) (s : σ) : (pure a : Action σ α).result s = (.ok a, s) :=
  rfl

@[simp] theorem result_fail (f : Failure) (s : σ) : (fail f : Action σ α).result s = (.error f, s) :=
  rfl

@[simp] theorem result_ofExcept (x : Except Failure α) (s : σ) :
    (ofExcept x : Action σ α).result s = (x, s) :=
  rfl

@[simp] theorem result_ofFault (x : Except Fault α) (s : σ) :
    (ofFault x : Action σ α).result s = (x.mapError .fault, s) :=
  rfl

theorem result_within (context : Context) (x : Action σ α) (s : σ) :
    (x.within context).result s = ((x.result s).1.mapError (.within context), (x.result s).2) := by
  rw [within, result_ofResult]
  rcases x.result s with ⟨e | a, t⟩ <;> rfl

theorem result_within_eq_ok :
    (x.within context).result s = (.ok a, t) ↔ x.result s = (.ok a, t) := by
  rw [result_within]
  rcases x.result s with ⟨f | b, u⟩ <;> simp [Except.mapError]

/-- The state before an action and the state after it are related. -/
def Moves (R : σ → σ → Prop) (x : Action σ α) : Prop :=
  ∀ s, R s (x.result s).2

theorem Moves.of_result (hx : Moves R x) (h : x.result s = (r, t)) : R s t := by
  have hs := hx s
  rwa [h] at hs

/-- A relation that can be chained. -/
structure Frame (R : σ → σ → Prop) : Prop where
  refl : ∀ s, R s s
  trans : ∀ {s t u}, R s t → R t u → R s u

theorem frame_eq : Frame (Eq : σ → σ → Prop) :=
  ⟨fun _ => rfl, Eq.trans⟩

theorem frame_keeps (I : σ → Prop) : Frame fun s t => I s → I t :=
  ⟨fun _ h => h, fun h h' hs => h' (h hs)⟩

theorem Frame.keeping (hR : Frame R) (I : σ → Prop) : Frame fun s t => I s → I t ∧ R s t where
  refl s hs := ⟨hs, hR.refl s⟩
  trans h h' hs :=
    have ⟨ht, hst⟩ := h hs
    have ⟨hu, htu⟩ := h' ht
    ⟨hu, hR.trans hst htu⟩

namespace Frame

variable {R : σ → σ → Prop} (hR : Frame R)
include hR

theorem pure (a : α) : Moves R (Pure.pure a : Action σ α) :=
  fun s => hR.refl s

theorem fail (f : Failure) : Moves R (Action.fail f : Action σ α) :=
  fun s => hR.refl s

theorem bind_at (hx : R s (x.result s).2)
    (hf : ∀ a t, x.result s = (.ok a, t) → R t ((f a).result t).2) : R s ((x >>= f).result s).2 := by
  rw [result_bind]
  rcases hres : x.result s with ⟨e | a, t⟩
  · rw [hres] at hx
    exact hx
  · rw [hres] at hx
    exact hR.trans hx (hf a t hres)

theorem bind (hx : Moves R x) (hf : ∀ a, Moves R (f a)) : Moves R (x >>= f) :=
  fun s => hR.bind_at (hx s) fun a t _ => hf a t

omit hR in
theorem within (hx : Moves R x) (context : Context) : Moves R (x.within context) := by
  intro s
  rw [result_within]
  exact hx s

omit hR in
theorem attempt (hx : Moves R x) : Moves R x.attempt :=
  fun s => hx s

end Frame

theorem moves_onPart {part : σ → τ} {put : τ → σ → σ} {x : Action τ α}
    (hput : ∀ s, put (part s) s = s) (hx : Moves Eq x) : Moves Eq (onPart part put x) := by
  intro s
  rw [result_onPart, ← hx (part s), hput]

/-- From a state with one property an action leads to states with others, one for the values it gives
and one for its failures. -/
def Ensures (pre : σ → Prop) (x : Action σ α) (post : α → σ → Prop) (failed : σ → Prop) : Prop :=
  ∀ s, pre s → (∀ a t, x.result s = (.ok a, t) → post a t) ∧
    ∀ f t, x.result s = (.error f, t) → failed t

/-- The two properties, by what an action comes to. -/
def Comes (post : α → σ → Prop) (failed : σ → Prop) : Except Failure α × σ → Prop
  | (.ok a, t) => post a t
  | (.error _, t) => failed t

theorem ensures_iff : Ensures pre x post failed ↔ ∀ s, pre s → Comes post failed (x.result s) := by
  refine forall_congr' fun s => imp_congr_right fun _ => ?_
  rcases x.result s with ⟨e | a, t⟩ <;> simp [Comes]

namespace Ensures

variable {pre mid failed : σ → Prop} {post : β → σ → Prop}

theorem bind (hx : Ensures pre x between failed) (hf : ∀ a, Ensures (between a) (f a) post failed) :
    Ensures pre (x >>= f) post failed := by
  refine ensures_iff.2 fun s hs => ?_
  rw [result_bind]
  rcases hres : x.result s with ⟨e | a, t⟩
  · exact (hx s hs).2 e t hres
  · exact ensures_iff.1 (hf a) t ((hx s hs).1 a t hres)

theorem of_moves (hx : Moves R x)
    (hpre : ∀ s t, pre s → R s t → mid t) (hfailed : ∀ t, mid t → failed t) :
    Ensures pre x (fun _ => mid) failed := by
  refine ensures_iff.2 fun s hs => ?_
  have hmid := hpre s _ hs (hx s)
  rcases hres : x.result s with ⟨f | a, t⟩ <;> rw [hres] at hmid
  · exact hfailed t hmid
  · exact hmid

theorem imp {post post' : α → σ → Prop} {pre' failed' : σ → Prop}
    (h : Ensures pre x post failed) (hpre : ∀ s, pre' s → pre s) (hpost : ∀ a s, post a s → post' a s)
    (hfailed : ∀ s, failed s → failed' s) : Ensures pre' x post' failed' :=
  fun s hs => ⟨fun a t ht => hpost a t ((h s (hpre s hs)).1 a t ht),
    fun f t ht => hfailed t ((h s (hpre s hs)).2 f t ht)⟩

theorem failing {post : α → σ → Prop} {failed' : σ → Prop} (h : Ensures pre x post failed)
    (hfailed : ∀ s, failed s → failed' s) : Ensures pre x post failed' :=
  h.imp (fun _ => id) (fun _ _ => id) hfailed

/-- What holds whatever an action comes to. -/
theorem result (h : Ensures pre x (fun _ => mid) mid) (hs : pre s) : mid (x.result s).2 := by
  rcases hres : x.result s with ⟨f | a, t⟩
  · exact (h s hs).2 f t hres
  · exact (h s hs).1 a t hres

theorem within {post : α → σ → Prop} (h : Ensures pre x post failed)
    (context : Context) : Ensures pre (x.within context) post failed := by
  refine ensures_iff.2 fun s hs => ?_
  rw [result_within]
  rcases hres : x.result s with ⟨e | a, t⟩
  · exact (h s hs).2 e t hres
  · exact (h s hs).1 a t hres

theorem pure {post : α → σ → Prop} (h : ∀ s, pre s → post a s) :
    Ensures pre (Pure.pure a : Action σ α) post failed :=
  ensures_iff.2 h

theorem fail {post : α → σ → Prop} {f} (h : ∀ s, pre s → failed s) :
    Ensures pre (Action.fail f : Action σ α) post failed :=
  ensures_iff.2 h

theorem attempt {post : α → σ → Prop} {never : σ → Prop} (h : Ensures pre x post failed) :
    Ensures pre x.attempt
      (fun r s => (∀ a, r = .ok a → post a s) ∧ ∀ f, r = .error f → failed s) never :=
  ensures_iff.2 fun s hs =>
    ⟨fun a ha => (h s hs).1 a _ (Prod.ext ha rfl), fun f hf => (h s hs).2 f _ (Prod.ext hf rfl)⟩

end Ensures

end Action

namespace OnDisk

open AgentChain.Action

variable {α : Type} {R : Disk → Disk → Prop} {f : Disk → Except Fault Disk} {d d' : Disk}

@[simp] theorem result_look (f : Disk → α) (d : Disk) : (look f).result d = (.ok (f d), d) :=
  rfl

@[simp] theorem result_read (f : Disk → Except Fault α) (d : Disk) :
    (read f).result d = ((f d).mapError .fault, d) :=
  rfl

theorem result_read_eq_ok {f : Disk → Except Fault α} {a} :
    (read f).result d = (.ok a, d') ↔ f d = .ok a ∧ d' = d := by
  rw [result_read]
  cases f d <;> simp [Except.mapError, eq_comm]

theorem result_change_eq_ok : (change f).result d = (.ok u, d') ↔ f d = .ok d' := by
  rw [change, result_ofResult]
  cases f d <;> simp

theorem result_change_of_ok (h : f d = .ok d') : (change f).result d = (.ok (), d') := by
  simp [change, h]

theorem result_change_of_error {d e}
    (h : f d = .error e) : (change f).result d = (.error (.fault e), d) := by
  simp [change, h]

theorem result_changeOr_of_ok (h : f d = .ok d')
    (x : Action Disk Unit) : (changeOr f x).result d = (.ok (), d') := by
  rw [changeOr, result_ofResult, h]

theorem moves_look_bind {β : Type} {f : Disk → α} {g : α → Action Disk β}
    (h : ∀ d, R d ((g (f d)).result d).2) : Moves R (look f >>= g) := by
  intro d
  rw [result_bind, result_look]
  exact h d

theorem moves_read (hR : Frame R) (f : Disk → Except Fault α) : Moves R (read f) :=
  fun d => hR.refl d

theorem moves_change (hR : Frame R) (hf : ∀ d d', f d = .ok d' → R d d') : Moves R (change f) := by
  intro d
  cases h : f d with
  | ok d' =>
    rw [result_change_of_ok h]
    exact hf d d' h
  | error e =>
    rw [result_change_of_error h]
    exact hR.refl d

theorem ensures_change (h : ∀ d d', pre d → f d = .ok d' → post d') :
    Ensures pre (change f) (fun _ => post) pre := by
  refine ensures_iff.2 fun d hd => ?_
  cases hf : f d with
  | ok d' =>
    rw [result_change_of_ok hf]
    exact h d d' hd hf
  | error e =>
    rw [result_change_of_error hf]
    exact hd

theorem ensures_read {f : Disk → Except Fault α} {pre : Disk → Prop} :
    Ensures pre (read f) (fun a d => pre d ∧ f d = .ok a) pre := by
  refine ensures_iff.2 fun d hd => ?_
  rw [result_read]
  cases hf : f d with
  | ok a => exact ⟨hd, hf⟩
  | error e => exact hd

theorem ensures_look {f : Disk → α} {pre failed : Disk → Prop} :
    Ensures pre (look f) (fun a d => pre d ∧ f d = a) failed :=
  ensures_iff.2 fun _ hd => ⟨hd, rfl⟩

theorem ensures_changeOr (hf : ∀ d d', pre d → f d = .ok d' → post d')
    (hx : Ensures pre x (fun _ => post) failed) (hfailed : ∀ d, pre d → failed d) :
    Ensures pre (changeOr f x) (fun _ => post) failed := by
  refine ensures_iff.2 fun d hd => ?_
  rw [changeOr, result_ofResult]
  split
  · next h => exact hf d _ hd h
  · exact ensures_iff.1 hx d hd
  · exact hfailed _ hd

theorem moves_changeOr (hR : Frame R)
    (hf : ∀ d d', f d = .ok d' → R d d') (hx : Moves R x) : Moves R (changeOr f x) := by
  intro d
  rw [changeOr, result_ofResult]
  split
  · next h => exact hf _ _ h
  · exact hx d
  · exact hR.refl d

theorem moves_createChain (hR : Frame R) (paths : List Route)
    (hdir : ∀ r ∈ paths, ∀ d d', Disk.createDirectory d r = .ok d' → R d d') (d : Disk) :
    R d (Disk.createChain paths d).2 := by
  induction paths generalizing d with
  | nil => exact hR.refl d
  | cons path paths ih =>
    rcases h : Disk.createChain (path :: paths) d with ⟨x, d'⟩
    obtain ⟨d₁, hd₁, hcases⟩ := Disk.createChain_cases h
    have habove : R d d₁ := by
      rcases hd₁ with rfl | rfl
      · exact hR.refl _
      · exact ih (fun r hr => hdir r (List.mem_cons_of_mem path hr)) d
    rcases hcases with ⟨hmake, -⟩ | ⟨rfl, -⟩
    · exact hR.trans habove (hdir path List.mem_cons_self _ _ hmake)
    · exact habove

theorem moves_makeDirectories (hR : Frame R)
    (hdir : ∀ d r d', Disk.createDirectory d r = .ok d' → R d d') (path : Route) :
    Moves R (makeDirectories path) :=
  fun d => moves_createChain hR path.ancestors (fun r _ d d' => hdir d r d') d

theorem moves_createDirectories (hR : Frame R)
    (hdir : ∀ d r d', Disk.createDirectory d r = .ok d' → R d d') (path : Route) :
    Moves R (createDirectories path) :=
  Frame.within (moves_makeDirectories hR hdir path) _

theorem result_createDirectories (path : String) (d : Disk) :
    (createDirectories path).result d =
      (((d.createDirectories path).1.mapError .fault).mapError (.within (.on .create path)),
        (d.createDirectories path).2) := by
  rw [createDirectories, createDirectoriesFor, result_within]
  rfl

theorem moves_createParent (hR : Frame R)
    (hdir : ∀ d r d', Disk.createDirectory d r = .ok d' → R d d') (path : Route) :
    Moves R (createParent path) := by
  rw [createParent]
  split
  · exact moves_createDirectories hR hdir _
  · exact hR.pure _

end OnDisk

namespace Disk

/-- A sound disk stays sound, and its directories and links stay as they are. -/
def Growing (d d' : Disk) : Prop :=
  d.Sound → d'.Sound ∧ d.Grows d'

theorem Growing.frame : Action.Frame Growing :=
  .keeping ⟨.refl, .trans⟩ _

end Disk

namespace World

open AgentChain.Action

variable {α : Type} {R : Disk → Disk → Prop}

/-- Only the disk of a world changes, and it moves within a relation. -/
def Along (R : Disk → Disk → Prop) (w w' : World) : Prop :=
  R w.disk w'.disk ∧ w' = { w with disk := w'.disk }

theorem Along.frame (hR : Frame R) : Frame (Along R) where
  refl w := ⟨hR.refl _, rfl⟩
  trans := by
    rintro w v u ⟨hwv, hv⟩ ⟨hvu, hu⟩
    refine ⟨hR.trans hwv hvu, ?_⟩
    rw [hu, hv]

theorem moves_reporting (hR : Frame R) (w : World) (e : Event)
    (happend : ∀ path ∈ w.logs, ∀ d d', d.append path
      (Bytes.ofText ({ e with timestamp := w.clock.millis } : Event).line) = .ok d' → R d d') :
    R w.disk (w.reporting e).disk := by
  simp only [World.reporting]
  generalize w.disk = d
  generalize w.logs = logs at happend
  induction logs generalizing d with
  | nil => exact hR.refl d
  | cons path logs ih =>
    obtain ⟨hfirst, happend⟩ := List.forall_mem_cons.1 happend
    refine hR.trans ?_ (ih _ happend)
    rw [appendLine]
    split
    · next hd => exact hfirst d _ hd
    · exact hR.refl d

theorem growing_reporting (w : World) (e : Event) : w.disk.Growing (w.reporting e).disk :=
  moves_reporting Disk.Growing.frame w e fun _ _ _ _ happend hd => by
    obtain ⟨p, c, hp, rfl⟩ := Disk.append_eq_ok happend
    exact ⟨hd.append happend, hd.grows_fill (hd.of_writePlace hp)⟩

theorem moves_onDisk (hx : Moves R x) : Moves (Along R) (onDisk x) :=
  fun w => ⟨hx w.disk, rfl⟩

theorem ensures_onDisk {pre failed : Disk → Prop} {post : α → Disk → Prop}
    {Q : World → Prop} (hx : Ensures pre x post failed) (hQ : ∀ w d, Q w → Q { w with disk := d }) :
    Ensures (fun w => Q w ∧ pre w.disk) (onDisk x) (fun a w => Q w ∧ post a w.disk)
      (fun w => Q w ∧ failed w.disk) := by
  refine ensures_iff.2 fun w hw => ?_
  rw [onDisk, result_onPart]
  rcases hres : x.result w.disk with ⟨e | a, d⟩
  · exact ⟨hQ w d hw.1, (hx w.disk hw.2).2 e d hres⟩
  · exact ⟨hQ w d hw.1, (hx w.disk hw.2).1 a d hres⟩

theorem moves_prepareLog (hR : Frame R)
    (hdir : ∀ d r d', Disk.createDirectory d r = .ok d' → R d d') (path : String) :
    Moves (Along R) (prepareLog path) := by
  rw [prepareLog]
  split
  · exact moves_onDisk (Frame.within (OnDisk.moves_makeDirectories hR hdir _) _)
  · exact (Along.frame hR).pure _

end World

end AgentChain

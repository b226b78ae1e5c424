import AgentChain.Proofs.FileTree.Changes
import AgentChain.Proofs.Frame

/-!
# Disks to which directories come

Making directories brings directories and nothing else, whether all of them can be made or not.
-/

namespace AgentChain.Disk

variable {d d' d'' : Disk} {P p : Place}

/-- Nothing has changed but that directories have come. -/
structure Furnished (d d' : Disk) : Prop where
  grows : d.Grows d'
  entry : ∀ q, d'.get? q = d.get? q ∨ d.get? q = none ∧ d'.get? q = some .directory

theorem Furnished.refl (d : Disk) : d.Furnished d :=
  ⟨.refl d, fun _ => .inl rfl⟩

theorem Furnished.trans (h : d.Furnished d') (h' : d'.Furnished d'') : d.Furnished d'' where
  grows := h.grows.trans h'.grows
  entry q := by
    rcases h'.entry q with hq' | ⟨hq', hdir⟩
    · rcases h.entry q with hq | ⟨hq, hdir⟩
      · exact .inl (hq'.trans hq)
      · exact .inr ⟨hq, hq'.trans hdir⟩
    · rcases h.entry q with hq | ⟨hq, hdir'⟩
      · exact .inr ⟨hq.symm.trans hq', hdir⟩
      · rw [hq'] at hdir'
        cases hdir'

theorem furnished_put (hp : d.Vacant p) : d.Furnished (d.put p .directory) where
  grows := grows_put_directory hp
  entry q := by
    rw [get?_put hp.ne_nil]
    split
    · next h => exact .inr ⟨h ▸ hp.free, rfl⟩
    · exact .inl rfl

theorem Furnished.entry_append (h : d.Furnished d') (hd : d.Sound) (hP : d.get? P = none)
    (names : List Name) :
    d'.get? (P ++ names) = none ∨ d'.get? (P ++ names) = some .directory := by
  have hnone := hd.get?_append_of_free hP names
  rcases h.entry (P ++ names) with hq | ⟨-, hq⟩
  · exact .inl (hq.trans hnone)
  · exact .inr hq

theorem Sound.plain_of_bare (hd : d.Sound) (h : d.get? p = none ∨ d.get? p = some .directory) :
    d.Plain p := by
  have hlink : ∀ t, d.get? p ≠ some (.symlink t) := fun t ht => by
    rcases h with h | h <;> simp [h] at ht
  have hfile : ∀ c, d.get? p ≠ some (.file c) := fun c hc => by
    rcases h with h | h <;> simp [h] at hc
  exact ⟨hlink, hd.alone_of_ne hfile hlink⟩

/-- A sound disk stays sound, and nothing but directories comes. -/
def Furnishing (d d' : Disk) : Prop :=
  d.Sound → d'.Sound ∧ d.Furnished d'

theorem Furnishing.frame : Action.Frame Furnishing :=
  .keeping ⟨.refl, .trans⟩ _

theorem Furnishing.createDirectory (d : Disk) (r : Route) (d' : Disk)
    (h : d.createDirectory r = .ok d') : Furnishing d d' := by
  intro hd
  refine ⟨hd.createDirectory h, ?_⟩
  obtain ⟨p, s, hp, rfl⟩ := createDirectory_eq_ok h
  exact furnished_put (hd.vacant_of_resolve hp)

theorem furnishing_createParent : Action.Moves Furnishing (OnDisk.createParent path) :=
  OnDisk.moves_createParent Furnishing.frame Furnishing.createDirectory _

theorem Sound.furnished_createDirectories (hd : d.Sound) (path : Route) :
    (d.createDirectories path).2.Sound ∧ d.Furnished (d.createDirectories path).2 :=
  OnDisk.moves_createChain Furnishing.frame path.ancestors
    (fun r _ d d' => Furnishing.createDirectory d r d') d hd

theorem twins_createDirectories (path : Route) : (d.createDirectories path).2.twins = d.twins := by
  refine OnDisk.moves_createChain (R := fun d d' => d'.twins = d.twins)
    ⟨fun _ => rfl, fun h h' => h'.trans h⟩ path.ancestors (fun r _ d d' h => ?_) d
  obtain ⟨p, s, -, rfl⟩ := createDirectory_eq_ok h
  rfl

theorem createDirectories_eq_ok (hr : ¬ r.isEmpty) (hd : d.Sound)
    (h : d.createDirectories r = (.ok (), d')) :
    d'.isDirectory r ∨ ∃ d₀, d₀.Sound ∧ d.Furnished d₀ ∧ d₀.createDirectory r = .ok d' := by
  obtain ⟨rest, hrest⟩ := r.exists_ancestors_eq_cons
  rw [createDirectories, hrest] at h
  obtain ⟨d₁, hd₁, ⟨hmake, -⟩ | ⟨rfl, hdir⟩⟩ := createChain_cases h
  · have hchain : d₁.Sound ∧ d.Furnished d₁ := by
      rcases hd₁ with rfl | rfl
      · exact ⟨hd, .refl _⟩
      · exact OnDisk.moves_createChain Furnishing.frame rest
          (fun r _ d d' => Furnishing.createDirectory d r d') d hd
    exact .inr ⟨d₁, hchain.1, hchain.2, hmake⟩
  · exact .inl ((hdir rfl).resolve_left hr)

end AgentChain.Disk

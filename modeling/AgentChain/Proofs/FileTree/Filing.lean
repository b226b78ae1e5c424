import AgentChain.Proofs.FileTree.Furnished
import AgentChain.Proofs.FileTree.Workplace

/-!
# Files that come to a workplace

Writing a file below a workplace makes the directories on the way to it and puts the contents at its
place. No other file changes.
-/

namespace AgentChain.Disk

open AgentChain.Path (IsName under)
open Bytes (ofText)

variable {d d' d₁ : Disk} {p q S : Place} {c : Bytes} {base : String} {names : List String}

def fileAt? (d : Disk) (p : Place) : Option Bytes :=
  match d.get? p with
  | some (.file c) => some c
  | _ => none

theorem fileAt?_eq_some : d.fileAt? p = some c ↔ d.get? p = some (.file c) := by
  rw [fileAt?]
  rcases d.get? p with _ | _ | _ | _ <;> simp

theorem fileAt?_congr (h : d'.get? p = d.get? p) : d'.fileAt? p = d.fileAt? p := by
  rw [fileAt?, h]
  rfl

theorem fileAt?_fill (hp : p ≠ []) (halone : d.Alone p) :
    (d.fill p c).fileAt? q = if q = p then some c else d.fileAt? q := by
  have hget := get?_fill_of_alone (c := c) (q := q) hp halone
  by_cases hq : q = p
  · rw [if_pos hq] at hget ⊢
    exact fileAt?_eq_some.2 hget
  · rw [if_neg hq] at hget ⊢
    exact fileAt?_congr hget

theorem fileAt?_move (hp : p ≠ []) (hq : q ≠ []) (r : Place) :
    (d.move q p (.file c)).fileAt? r = if r = p then some c else if r = q then none else d.fileAt? r := by
  have hget := get?_move (d := d) (e := .file c) hp hq r
  split_ifs at hget ⊢
  · exact fileAt?_eq_some.2 hget
  · rw [fileAt?, hget]
  · exact fileAt?_congr hget

theorem Furnished.fileAt?_eq (h : d.Furnished d') (p : Place) : d'.fileAt? p = d.fileAt? p := by
  rcases h.entry p with heq | ⟨hnone, hdir⟩
  · exact fileAt?_congr heq
  · rw [fileAt?, fileAt?, hnone, hdir]

/-- A path leads to a directory in which nothing is. -/
structure EmptyDirectory (d : Disk) (path : String) (S : Place) : Prop where
  leads : d.LeadsTo (ofText path) S
  directory : d.get? S = some .directory
  empty : ∀ q, inside S q = true → d.get? q = none

namespace EmptyDirectory

variable (h : d.EmptyDirectory base S)
include h

theorem workplace (hd : d.Sound) : Workplace base S d where
  sound := hd
  leads := by
    have hget : ∀ q, (d.apart (inside S)).get? q = d.get? q := fun q => by
      rw [get?_apart]
      split
      · next hq => exact (h.empty q hq.1).symm
      · rfl
    exact h.leads.mono ⟨fun q hq => (hget q).trans hq, fun q t hq => (hget q).trans hq,
      fun _ hq => hq⟩ rfl
  directory := h.directory
  plain q hq := hd.plain_of_free (h.empty q hq)

theorem fileAt?_eq_none (k : List Name) : d.fileAt? (S ++ k) = none := by
  rcases eq_or_ne k [] with rfl | hk
  · rw [List.append_nil, fileAt?, h.directory]
  · rw [fileAt?, h.empty _ (inside_append hk)]

end EmptyDirectory

/-! ### Writing and copying -/

/-- A file with the given contents is in a workplace, under names after its path. Nothing else has
come but directories on the way to it. -/
structure Gains (base : String) (S : Place) (names : List String) (c : Bytes) (d d' : Disk) :
    Prop where
  workplace : Workplace base S d'
  grows : d.Grows d'
  changes : Changes (fun q => inside S q = true ∧ q <+: S ++ names.map ofText) d d'
  fileAt? : ∀ q, d'.fileAt? q = if q = S ++ names.map ofText then some c else d.fileAt? q

namespace Workplace

variable (h : Workplace base S d) (hnames : ∀ s ∈ names, IsName s) (hne : names ≠ [])
include h hnames hne

theorem of_createParent
    (hparent : (OnDisk.createParent (under base names)).result d = (.ok (), d₁)) :
    Workplace base S d₁ ∧ d.Furnished d₁ ∧
      Changes (fun q => inside S q ∧ q <+: S ++ names.map ofText) d d₁ := by
  obtain ⟨init, last, rfl⟩ := List.eq_nil_or_concat' names |>.resolve_left hne
  have hway : ∀ k, k <+: init → k ≠ [] → inside S (S ++ k.map ofText) ∧
      S ++ k.map ofText <+: S ++ (init ++ [last]).map ofText := fun k hk hne =>
    ⟨inside_append (by simpa using hne), (List.prefix_append_right_inj S).2
      ((hk.trans (List.prefix_append init [last])).map _)⟩
  obtain ⟨h₁, hc⟩ := (OnDisk.limited_createParent
    (T := fun q => inside S q ∧ q <+: S ++ (init ++ [last]).map ofText)
    (fun s hs => hnames s (by simp [hs])) (hnames last (by simp)) hway).of_result hparent h
  exact ⟨h₁, ((OnDisk.moves_createParent Furnishing.frame Furnishing.createDirectory _).of_result
    hparent h.sound).2, hc⟩

theorem gains (hparent : (OnDisk.createParent (under base names)).result d = (.ok (), d₁))
    (hp : d₁.writePlace (under base names) = .ok p) (c : Bytes) :
    Gains base S names c d (d₁.fill p c) := by
  obtain ⟨h₁, hfurnished, hc⟩ := h.of_createParent hnames hne hparent
  have hw := h₁.sound.of_writePlace hp
  obtain rfl := h₁.writePlace_eq hnames hne hp
  have hin : inside S (S ++ names.map ofText) := inside_append (by simpa using hne)
  obtain ⟨h₂, hc'⟩ := h₁.fill (c := c) hin hw
  refine ⟨h₂, hfurnished.grows.trans (h₁.sound.grows_fill hw), hc.trans (hc'.mono ?_), fun q => ?_⟩
  · rintro q rfl
    exact ⟨hin, List.prefix_refl _⟩
  · rw [fileAt?_fill (ne_nil_of_inside hin) (h₁.plain _ hin).alone, hfurnished.fileAt?_eq]

theorem gains_of_copy (hfree : d.fileAt? (S ++ names.map ofText) = none)
    (hparent : (OnDisk.createParent (under base names)).result d = (.ok (), d₁))
    (hcopy : d₁.copy source (under base names) = .ok d') :
    ∃ c, d₁.readBytes source = .ok c ∧ Gains base S names c d d' := by
  obtain ⟨h₁, hfurnished, -⟩ := h.of_createParent hnames hne hparent
  obtain ⟨origin, c, p, hsource, hp, rfl⟩ := copy_eq_ok hcopy
  refine ⟨c, readBytes_eq_ok.2 ⟨origin, hsource⟩, ?_⟩
  rw [if_neg]
  · exact h.gains hnames hne hparent hp c
  -- a file that is there is not the one that comes
  intro htwins
  obtain rfl := h₁.writePlace_eq hnames hne hp
  obtain rfl := (h₁.plain _ (inside_append (by simpa using hne))).alone.areTwins_iff.1 htwins
  rw [← hfurnished.fileAt?_eq, fileAt?, h₁.sound.get?_of_resolve hsource (by simp)] at hfree
  cases hfree

end Workplace

end AgentChain.Disk

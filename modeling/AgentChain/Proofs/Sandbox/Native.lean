import AgentChain.Proofs.FileTree.Alike
import AgentChain.Proofs.FileTree.Filing
import AgentChain.Proofs.Sandbox.View
import AgentChain.Sandbox.Native

/-!
# The files of a native sandbox

The files of a native sandbox stand below a directory of the host. As long as everything below the
directory is plain, a path of the sandbox leads to the place that its names say, so the sandbox has
a view: the regular files below the directory, by the names that lead to them.
-/

namespace AgentChain

open Bytes (ofText)

/-! ### Paths of names -/

namespace Path

variable {segs names : List String} {s : String}

theorem part?_eq (hs : IsName s) : part? s = some (.name s) := by
  simp [part?, hs.ne_empty, hs.ne_here, hs.ne_up]

theorem parts_join (hne : segs ≠ []) (hsegs : ∀ s ∈ segs, '/' ∉ s.toList) :
    parts (Text.join "/" ("" :: segs)) = .top :: segs.filterMap part? := by
  obtain ⟨s, rest, rfl⟩ := List.exists_cons_of_ne_nil hne
  have habs : isAbsolute (Text.join "/" ("" :: s :: rest)) := by
    simp [isAbsolute, toList_join_names]
  have hsplit : segments (Text.join "/" ("" :: s :: rest)) = "" :: s :: rest :=
    Text.split_join (by simp) fun t ht => by
      rcases List.mem_cons.1 ht with rfl | ht
      · simp
      · exact hsegs t ht
  rw [parts, hsplit, if_pos habs, List.filterMap_cons_none (by rfl)]

theorem filterMap_part? (hnames : ∀ s ∈ names, IsName s) :
    names.filterMap part? = names.map Part.name := by
  rw [← List.filterMap_eq_map]
  exact List.filterMap_congr fun s hs => part?_eq (hnames s hs)

end Path

namespace Sandbox

open AgentChain.Action Disk
open AgentChain.Path (IsName Part under)

theorem beforeLastSlash?_join (hne : segs ≠ []) (hs : '/' ∉ s.toList) :
    beforeLastSlash? (Text.join "/" (segs ++ [s])) = some (Text.join "/" segs) := by
  obtain ⟨t, rest, rfl⟩ := List.exists_cons_of_ne_nil hne
  have htext : (Text.join "/" (t :: rest ++ [s])).toList =
      (Text.join "/" (t :: rest)).toList ++ '/' :: s.toList := by
    simp [Path.toList_join_names]
  have hdrop : (s.toList.reverse ++ '/' :: (Text.join "/" (t :: rest)).toList.reverse).dropWhile
      (· ≠ '/') = '/' :: (Text.join "/" (t :: rest)).toList.reverse := by
    rw [List.dropWhile_append_of_pos]
    · simp
    · intro c hc
      have : c ≠ '/' := fun h => hs (h ▸ List.mem_reverse.1 hc)
      simpa using this
  rw [beforeLastSlash?, htext, List.reverse_append, List.reverse_cons, List.append_assoc,
    List.singleton_append, hdrop]
  simp

def shownSegments : List Name → List String
  | [] => [""]
  | n :: names => (n :: names).map Bytes.lossyText

theorem inApp_shown (names : List Name) :
    inApp (shown names) = Text.join "/" ("" :: "app" :: shownSegments names) := by
  cases names with
  | nil => rfl
  | cons n names =>
    apply String.toList_injective
    rw [inApp, shown, shownSegments, List.map_cons, String.toList_append, Path.toList_join_names,
      Path.toList_join_names]
    simp [appRoot]

namespace Native

variable {root path : String} {S : Place} {d d₀ : Disk} {names : List String}

def placeOf (path : String) : List Name :=
  (Path.parts path).filterMap fun
    | .name s => some (ofText s)
    | _ => none

/-- An absolute path of names. -/
structure Names (names : List String) (path : String) : Prop where
  ne_nil : names ≠ []
  isName : ∀ s ∈ names, IsName s
  parts : Path.parts path = .top :: names.map .name

namespace Names

variable (h : Names names path)
include h

theorem placeOf_eq : placeOf path = names.map ofText := by
  rw [placeOf, h.parts, List.filterMap_cons_none (by rfl), List.filterMap_map,
    ← List.filterMap_eq_map]
  rfl

theorem isAbsolute : Path.isAbsolute path := by
  have hparts := h.parts
  by_contra habs
  rw [Path.parts, if_neg habs] at hparts
  have hnot : ∀ p, .top ∈ (Path.segments p).filterMap Path.part? → False := by
    intro p hp
    obtain ⟨s, -, hs⟩ := List.mem_filterMap.1 hp
    simp only [Path.part?] at hs
    split at hs <;> [cases hs; split at hs <;> cases hs]
  split at hparts
  · cases hparts
  · exact hnot path (hparts ▸ List.mem_cons_self)

end Names

theorem descend?_names (directory : String) (names : List String) :
    descend? directory (names.map .name) = some (under directory names) := by
  induction names generalizing directory with
  | nil => rfl
  | cons s names ih => exact ih (Path.join directory s)

theorem hostPath_eq (h : Names names path) : hostPath root path = .ok (under root names) := by
  have hdescend : descend? root (.top :: names.map .name) = some (under root names) :=
    descend?_names root names
  rw [hostPath, if_pos h.isAbsolute, h.parts, hdescend]

theorem result_atPath_eq_ok
    (hnames : Names names path) (h : (atPath path act).result s = (.ok a, t)) :
    (act (under s.2.root names)).result s.1 = (.ok a, t.1) ∧ t.2 = s.2 := by
  rw [atPath, result_ofResult, hostPath_eq hnames] at h
  simp only [Prod.mk.injEq] at h
  obtain ⟨hres, rfl⟩ := h
  exact ⟨Prod.ext hres rfl, rfl⟩

/-! ### Paths of the code -/

theorem isName_shownSegments {names} (hnames : ∀ n ∈ names, n.Proper) :
    ∀ s ∈ shownSegments names, '/' ∉ s.toList ∧ (names ≠ [] → IsName s) := by
  cases names with
  | nil => simp [shownSegments]
  | cons n names =>
    intro s hs
    obtain ⟨m, hm, rfl⟩ := List.mem_map.1 hs
    have hname := (hnames m hm).isName_lossyText
    exact ⟨hname.no_slash, fun _ => hname⟩

theorem names_join (hsegs : ∀ s ∈ segs, IsName s) :
    Names ("app" :: segs) (Text.join "/" ("" :: "app" :: segs)) := by
  have hall : ∀ s ∈ "app" :: segs, IsName s := by
    intro s hs
    rcases List.mem_cons.1 hs with rfl | hs
    · decide
    · exact hsegs s hs
  refine ⟨by simp, hall, ?_⟩
  rw [Path.parts_join (by simp) fun s hs => (hall s hs).no_slash, Path.filterMap_part? hall]

theorem names_inApp {names} (hnames : ∀ n ∈ names, n.Proper) :
    Names ("app" :: names.map Bytes.lossyText) (inApp (shown names)) := by
  rw [inApp_shown]
  cases names with
  | nil => exact ⟨by simp, by decide, by decide⟩
  | cons n names => exact names_join fun s hs => (isName_shownSegments hnames s hs).2 (by simp)

theorem placeOf_inApp {names} (hnames : ∀ n ∈ names, n.Proper) (htext : ∀ n ∈ names, n.IsText) :
    placeOf (inApp (shown names)) = ofText "app" :: names := by
  rw [(names_inApp hnames).placeOf_eq, List.map_cons, List.map_map]
  congr 1
  exact (List.map_congr_left fun n hn => (htext n hn).ofText_lossyText).trans (List.map_id names)

theorem names_above {names} (hnames : ∀ n ∈ names, n.Proper) {path}
    (hpath : beforeLastSlash? (inApp (shown names)) = some path) :
    Names ("app" :: (shownSegments names).dropLast) path := by
  have hne : shownSegments names ≠ [] := by
    cases names <;> simp [shownSegments]
  have hsplit : "" :: "app" :: shownSegments names =
      ("" :: "app" :: (shownSegments names).dropLast) ++ [(shownSegments names).getLast hne] := by
    simp [List.dropLast_concat_getLast]
  rw [inApp_shown, hsplit, beforeLastSlash?_join (by simp)
    (isName_shownSegments hnames _ (List.getLast_mem hne)).1] at hpath
  cases hpath
  refine names_join fun s hs =>
    (isName_shownSegments hnames s ((List.dropLast_sublist _).subset hs)).2 ?_
  rintro rfl
  simp [shownSegments] at hs

/-! ### The view -/

/-- A native sandbox whose files stand below a directory in which everything is plain. The rest of
the disk is as it was. -/
structure Stands (root : String) (S : Place) (d₀ : Disk) (s : Disk × Native) : Prop where
  root_eq : s.2.root = root
  workplace : Workplace root S s.1
  changes : Changes (inside S · = true) d₀ s.1
  grows : d₀.Grows s.1

variable {s t : Disk × Native} {c : Bytes}

/-- What a step toward a path leaves: nothing has changed but on the way. -/
structure Toward (root : String) (S : Place) (d₀ : Disk) (names : List String)
    (s t : Disk × Native) : Prop where
  stands : Stands root S d₀ t
  grows : s.1.Grows t.1
  changes : Changes (fun q => inside S q = true ∧ q <+: S ++ names.map ofText) s.1 t.1

theorem Stands.toward (h : Stands root S d₀ s) (hroot : t.2 = s.2) (hg : s.1.Grows t.1)
    (hlimited : Limited root S (fun q => inside S q ∧ q <+: S ++ names.map ofText)
      s.1 t.1) : Toward root S d₀ names s t :=
  have ⟨hworkplace, hc⟩ := hlimited h.workplace
  ⟨⟨hroot ▸ h.root_eq, hworkplace, h.changes.trans (hc.mono fun _ hq => hq.1), h.grows.trans hg⟩,
    hg, hc⟩

theorem Stands.createDirectories (h : Stands root S d₀ s) (hnames : Names names path)
    (hmake : (createDirectories path).result s = (.ok (), t)) :
    Toward root S d₀ names s t ∧ ∀ p, t.1.fileAt? p = s.1.fileAt? p := by
  obtain ⟨hres, hstate⟩ := result_atPath_eq_ok hnames hmake
  rw [h.root_eq] at hres
  obtain ⟨-, hfurnished⟩ := (OnDisk.moves_createDirectories Furnishing.frame
    Furnishing.createDirectory _).of_result hres h.workplace.sound
  exact ⟨h.toward hstate hfurnished.grows ((OnDisk.limited_createDirectories hnames.isName
    hnames.ne_nil fun k hk hne => ⟨inside_append (by simpa using hne), by
      simpa using hk.map _⟩).of_result hres), hfurnished.fileAt?_eq⟩

theorem Stands.writeFile (h : Stands root S d₀ s) (hnames : Names names path)
    (hwrite : (writeFile path c).result s = (.ok (), t)) :
    Toward root S d₀ names s t ∧
      (∀ k more, k ++ more = names → k ≠ [] → more ≠ [] → t.1.isDirectory (under root k)) ∧
      ∀ p, t.1.fileAt? p =
        if p = S ++ names.map ofText then some c else s.1.fileAt? p := by
  obtain ⟨hres, hstate⟩ := result_atPath_eq_ok hnames hwrite
  rw [h.root_eq] at hres
  obtain ⟨⟨⟩, d, hparent, hres⟩ := result_bind_eq_ok.1 hres
  obtain ⟨p, hp, hfill⟩ := writeFile_eq_ok.1
    (OnDisk.result_change_eq_ok.1 (result_within_eq_ok.1 hres))
  have hgains := h.workplace.gains hnames.isName hnames.ne_nil hparent hp c
  have hgrows := (h.workplace.of_createParent hnames.isName hnames.ne_nil hparent).1.sound.grows_fill
    (c := c) ((h.workplace.of_createParent hnames.isName hnames.ne_nil hparent).1.sound.of_writePlace
      hp)
  rw [hfill] at hgains hgrows
  refine ⟨h.toward hstate hgains.grows fun _ => ⟨hgains.workplace, hgains.changes⟩,
    fun k more hk hne hmore => ?_, hgains.fileAt?⟩
  obtain ⟨target, htarget⟩ := exists_resolve_of_writePlace hp
  rw [← hk] at htarget
  exact hgrows.keeps.isDirectory hgrows.home
    (isDirectory_of_resolve hne hmore (by rw [hk]; exact hnames.isName) htarget)

theorem Stands.injectHost (h : Stands root S d₀ s)
    (hinject : (injectHost info).result s = (.ok (), t)) :
    Stands root S d₀ t ∧ ∀ p, t.1.fileAt? p =
      if p = S ++ placeOf (inApp "host.json") then some (ofText info.toValue.pretty)
      else s.1.fileAt? p := by
  obtain ⟨⟨⟩, s₁, hwrite, hhost⟩ := result_bind_eq_ok.1 hinject
  have hnames : Names ["app", "host.json"] (inApp "host.json") := ⟨by simp, by decide, by decide⟩
  obtain ⟨⟨hs₁, -, -⟩, -, hfiles⟩ := h.writeFile hnames hwrite
  rw [← hnames.placeOf_eq] at hfiles
  cases hhost
  exact ⟨⟨hs₁.root_eq, hs₁.workplace, hs₁.changes, hs₁.grows⟩, hfiles⟩

/-- The regular files below the directory of a native sandbox, by the names that lead to them. -/
def view (root : String) (S : Place) (d₀ : Disk) : View native (List Name) where
  Valid := Stands root S d₀
  Fits path := ∃ names, Names names path
  place := placeOf
  contents s names := s.1.fileAt? (S ++ names)
  created := by
    rintro path s t ⟨names, hnames⟩ hs h
    obtain ⟨ht, hfiles⟩ := hs.createDirectories hnames h
    exact ⟨ht.stands, funext fun k => hfiles (S ++ k)⟩
  written := by
    rintro path c s t ⟨names, hnames⟩ hs h
    obtain ⟨ht, -, hfiles⟩ := hs.writeFile hnames h
    refine ⟨ht.stands, funext fun k => ?_⟩
    rw [hfiles, hnames.placeOf_eq, Function.update_apply]
    simp

theorem moves_resolveModule (path : String) : Moves Eq (resolveModule path) := by
  intro s
  rw [resolveModule, result_ofResult]
  split
  · rfl
  · split <;> rfl

theorem ready_view {files}
    (hfiles : ∀ file ∈ files, ∀ n ∈ file.1, n.Proper) : (view root S d₀).Ready files := by
  rintro file hfile path (rfl | hpath)
  · exact ⟨_, names_inApp (hfiles file hfile)⟩
  · exact ⟨_, names_above (hfiles file hfile) hpath⟩

/-- The files that were there before are read as they were, if none of them stood below the
directory of the sandbox. -/
theorem reads_view {source : String} {found : List (List Name × Bytes)} (hd₀ : d₀.Sound)
    (hempty : ∀ q, inside S q → d₀.get? q = none)
    (hfound : d₀.treeFiles source = .ok found) : (view root S d₀).Reads source found := by
  intro file hfile s c hs hread
  refine hd₀.eq_of_readBytes_kept hs.workplace.sound hs.grows.keeps hs.grows.home
    (fun _ _ _ p c _ hp => ?_) hfound hfile hread
  rw [hs.changes.entry p fun hin => ?_, hp]
  rw [hempty p hin] at hp
  cases hp

end Native

end Sandbox

end AgentChain

import AgentChain.Proofs.Package.Failure
import AgentChain.Proofs.Storage

/-!
# What a code tree holds

A code tree has the files of the runtime below `runtime`, the files of each agent below `agents` in a
directory with the name of the agent, and the registry. Files below a skipped directory are left out.
Nothing else is in the tree, and no two files have one place in it.

The sources of an agent are read when the pass comes to them. They are still what they were at the
start unless the tree is laid out among them.
-/

namespace AgentChain.Package

open AgentChain.Action Disk
open Bytes (ofText)
open AgentChain.Path (IsName under join)
open Registry (fileName)

variable {d d' v : Disk} {base tree runtimeDir : String} {S D T q : Place}
  {dest : List String} {names rel : List Name} {c : Bytes} {files : List (List Name × Bytes)}
  {discovery : Discovery} {agents r : List Agent.Descriptor} {source : String}
  {name temporary : String}

/-! ### Copies of trees -/

/-- Whether a file is copied with its tree: none of its names is skipped. -/
def isCopied (names : List Name) : Bool :=
  !names.any (skipped.map ofText).contains

theorem isCopied_eq (h : LegiblePath names) :
    (!(Path.segments (shown names)).any skipped.contains) = isCopied names := by
  have hsegments : Path.segments (shown names) = names.map Bytes.lossyText :=
    Text.split_join (by simpa using h.ne_nil) fun s hs => (h.isName s hs).no_slash
  rw [isCopied, hsegments, List.any_map, Bool.not_inj_iff, Bool.eq_iff_iff]
  simp only [List.any_eq_true, List.contains_iff_mem, List.mem_map, Function.comp_apply]
  refine exists_congr fun n => and_congr_right fun hn => ⟨fun hs => ?_, ?_⟩
  · exact ⟨_, hs, (h.isText n hn).ofText_lossyText⟩
  · rintro ⟨s, hs, rfl⟩
    rwa [Bytes.lossyText_ofText]

/-- Files of a tree have come below a place of a workplace, and nothing else but directories. -/
structure Copied (base : String) (S D : Place) (files : List (List Name × Bytes)) (d d' : Disk) :
    Prop where
  workplace : Workplace base S d'
  grows : d.Grows d'
  changes : Changes (fun q => inside S q = true ∧ Near D q) d d'
  fileAt? : ∀ q c, d'.fileAt? q = some c ↔ d.fileAt? q = some c ∨
    ∃ rel, (rel, c) ∈ files ∧ isCopied rel = true ∧ q = D ++ rel

/-- Files of a tree are read with the contents that they have, as long as no file changes but below
a place. -/
def ReadsAs (D : Place) (source : String) (files : List (List Name × Bytes)) (d : Disk) : Prop :=
  ∀ t : Disk, t.Sound → d.Grows t → (∀ q, ¬ inside D q = true → t.fileAt? q = d.fileAt? q) →
    ∀ file ∈ files, ∀ c, t.readBytes (collected source file).path = .ok c → c = file.2

theorem ReadsAs.rest (h : ReadsAs D source (file :: files) d) (hg : d.Grows d')
    (hsame : ∀ q, ¬ inside D q → d'.fileAt? q = d.fileAt? q) : ReadsAs D source files d' :=
  fun t ht hgrows hfiles other hother => h t ht (hg.trans hgrows)
    (fun q hq => (hfiles q hq).trans (hsame q hq)) other (List.mem_cons_of_mem file hother)

theorem copied_of_copyFiles (h : Workplace base S d)
    (hdest : ∀ s ∈ dest, IsName s) (hD : D = S ++ dest.map ofText)
    (hlegible : ∀ file ∈ files, LegiblePath file.1) (hnodup : (files.map (·.1)).Nodup)
    (hfree : ∀ file ∈ files, d.fileAt? (D ++ file.1) = none) (hreads : ReadsAs D source files d)
    (hcopy : (copyFiles (under base dest) (files.map (collected source))).result d = (.ok (), d')) :
    Copied base S D files d d' := by
  induction files generalizing d with
  | nil =>
    cases hcopy
    exact ⟨h, .refl _, .refl _ _, by simp⟩
  | cons file files ih =>
    obtain ⟨rel, c⟩ := file
    rw [List.forall_mem_cons] at hlegible hfree
    rw [List.map_cons, List.nodup_cons] at hnodup
    dsimp only at hlegible hfree hnodup
    have hfirst := hlegible.1
    have hin : inside D (D ++ rel) := inside_append hfirst.ne_nil
    have htarget : join (under base dest) (shown rel) =
        under base (dest ++ rel.map Bytes.lossyText) := by
      rw [shown, Path.join_join_names (by simpa using hfirst.ne_nil) hfirst.isName,
        ← Path.under_append]
    have hplace : S ++ (dest ++ rel.map Bytes.lossyText).map ofText = D ++ rel := by
      rw [List.map_append, hfirst.map_ofText, ← List.append_assoc, hD]
    rw [List.map_cons, copyFiles] at hcopy
    simp only [collected, isCopied_eq hfirst, htarget] at hcopy
    split at hcopy
    · next hcopied =>
      obtain ⟨⟨⟩, d₁, hparent, hcopy⟩ := result_bind_eq_ok.1 hcopy
      obtain ⟨⟨⟩, d₂, hput, hcopy⟩ := result_bind_eq_ok.1 hcopy
      have hall : ∀ s ∈ dest ++ rel.map Bytes.lossyText, IsName s := fun s hs =>
        (List.mem_append.1 hs).elim (hdest s) (hfirst.isName s)
      have hne : dest ++ rel.map Bytes.lossyText ≠ [] := by simp [hfirst.ne_nil]
      obtain ⟨h₁, hfurnished, -⟩ := h.of_createParent hall hne hparent
      obtain ⟨c', hread, hgains⟩ := h.gains_of_copy hall hne (by rw [hplace, hfree.1]) hparent
        (OnDisk.result_change_eq_ok.1 (result_within_eq_ok.1 hput))
      obtain rfl : c' = c := hreads d₁ h₁.sound hfurnished.grows (fun q _ => hfurnished.fileAt?_eq q)
        _ List.mem_cons_self c' hread
      have hfiles := hgains.fileAt?
      have hchanges := hgains.changes
      rw [hplace] at hfiles hchanges
      obtain ⟨hd', hgrows, hc, hrest⟩ := ih hgains.workplace hlegible.2 hnodup.2
        (fun other hother => by
          rw [hfiles, if_neg, hfree.2 other hother]
          rw [List.append_cancel_left_eq]
          exact fun heq => hnodup.1 (List.mem_map.2 ⟨other, hother, heq⟩))
        (hreads.rest hgains.grows fun q hq => by
          rw [hfiles, if_neg]
          rintro rfl
          exact hq hin) hcopy
      refine ⟨hd', hgains.grows.trans hgrows, (hchanges.mono fun q hq => ⟨hq.1,
        List.prefix_or_prefix_of_prefix hq.2 (List.prefix_append D rel)⟩).trans hc, fun q x => ?_⟩
      rw [hrest, hfiles]
      by_cases hq : q = D ++ rel
      · simp [hq, hfree.1, hcopied, @eq_comm _ x]
      · simp only [if_neg hq, List.mem_cons, Prod.mk.injEq, or_and_right, exists_or]
        refine or_congr_right (iff_or_self.2 ?_)
        rintro ⟨_, ⟨rfl, -⟩, -, heq⟩
        exact absurd heq hq
    · next hskipped =>
      obtain ⟨hd', hgrows, hc, hrest⟩ := ih h hlegible.2 hnodup.2 hfree.2
        (hreads.rest (.refl d) fun _ _ => rfl) hcopy
      refine ⟨hd', hgrows, hc, fun q x => (hrest q x).trans (or_congr_right ?_)⟩
      refine exists_congr fun k => and_congr_left fun hk => ?_
      rw [List.mem_cons, Prod.mk.injEq, iff_or_self]
      rintro ⟨rfl, -⟩
      exact absurd hk.1 hskipped

/-- The regular files of a directory, none if it is not there. -/
def filesOf (d : Disk) (directory : String) : List (List Name × Bytes) :=
  if d.isDirectory directory then (d.treeFiles directory).toOption.getD [] else []

theorem treeFiles_eq {directory : String} (h : d.isDirectory directory) :
    d.treeFiles directory = .ok (filesOf d directory) := by
  obtain ⟨P, hP⟩ := exists_resolve_of_isDirectory h
  rw [filesOf, if_pos h, treeFiles, hP]
  rfl

theorem mem_filesOf_iff {directory : String} {P : Place} (hd : d.Sound)
    (hP : d.resolve true directory = .ok (.present P .directory)) :
    (rel, c) ∈ filesOf d directory ↔ rel ≠ [] ∧ d.get? (P ++ rel) = some (.file c) :=
  hd.mem_treeFiles_iff hP (treeFiles_eq (by simp [isDirectory, follow?, hP]))

theorem copied_of_copyTree (h : Workplace base S d)
    (hdest : ∀ s ∈ dest, IsName s) (hD : D = S ++ dest.map ofText)
    (hdir : d.isDirectory source) (hlegible : d.LegibleTree source)
    (hnone : ∀ rel, d.fileAt? (D ++ rel) = none)
    (hcopy : (copyTree source (under base dest)).result d = (.ok (), d')) :
    Copied base S D (filesOf d source) d d' := by
  obtain ⟨files, d₁, hread, hcopy⟩ := result_bind_eq_ok.1 hcopy
  obtain ⟨hfiles, rfl⟩ := OnDisk.result_read_eq_ok.1 (result_within_eq_ok.1 hread)
  obtain ⟨found, sorted, hfound, hperm, rfl, -⟩ := exists_treeFiles_of_collect hfiles
  obtain ⟨P, hP⟩ := exists_resolve_of_isDirectory hdir
  have hpath : ∀ file ∈ sorted, LegiblePath file.1 := fun file hfile =>
    have hmem := hperm.mem_iff.1 hfile
    ⟨((h.sound.mem_treeFiles_iff hP hfound).1 hmem).1, h.sound.proper_of_treeFiles hfound file hmem,
      hlegible found hfound file hmem⟩
  have hreads : ReadsAs D source sorted _ := fun t ht hgrows hsame file hfile c =>
    h.sound.eq_of_readBytes_kept ht hgrows.keeps hgrows.home (fun _ _ _ p c' _ hp => by
      rw [← fileAt?_eq_some] at hp ⊢
      rw [hsame p, hp]
      intro hin
      obtain ⟨k, -, rfl⟩ := inside_iff.1 hin
      rw [hnone] at hp
      cases hp) hfound (hperm.mem_iff.1 hfile)
  obtain ⟨hd', hgrows, hc, hrest⟩ := copied_of_copyFiles h hdest hD hpath
    ((hperm.map _).nodup_iff.2 (h.sound.nodup_treeFiles hfound)) (fun _ _ => hnone _) hreads hcopy
  refine ⟨hd', hgrows, hc, fun q c => ?_⟩
  rw [hrest, filesOf, if_pos hdir, hfound]
  simp only [hperm.mem_iff, Except.toOption, Option.getD_some]

/-! ### The agents of a code tree -/

/-- A disk on which work goes on in a workplace: nothing has changed elsewhere. -/
structure Laid (base : String) (S : Place) (d d' : Disk) : Prop where
  workplace : Workplace base S d'
  grows : d.Grows d'
  changes : Changes (inside S · = true) d d'
  legible : d.Legible → d'.Legible

theorem Laid.refl (h : Workplace base S d) : Laid base S d d :=
  ⟨h, .refl d, .refl _ d, id⟩

theorem Laid.trans (h : Laid base S d d₁) (h' : Laid base S d₁ d') : Laid base S d d' :=
  ⟨h'.workplace, h.grows.trans h'.grows, h.changes.trans h'.changes, h'.legible ∘ h.legible⟩

theorem Copied.laid {source dest} (h : Copied base S D files d d')
    (hcopy : (copyTree source dest).result d = (.ok (), d')) : Laid base S d d' :=
  ⟨h.workplace, h.grows, h.changes.mono fun _ hq => hq.1,
    (closed_copyTree OnDisk.closed_legible _ _).of_result hcopy⟩

/-- The place of the sources of an agent in a code tree. -/
def agentPlace (S : Place) (name : String) : Place :=
  S ++ ["agents", name].map ofText

theorem agentPlace_append_inj :
    agentPlace S a ++ k = agentPlace S b ++ more ↔ a = b ∧ k = more := by
  have hinj : Function.Injective ofText := fun _ _ => Bytes.ofText_injective
  simp [agentPlace, hinj.eq_iff]

theorem copyAgents_cons_eq_ok (h : (copyAgents tree (agent :: agents)).result d = (.ok r, d')) :
    ∃ d₁ rest, d.isDirectory agent.sourceDir ∧
      (copyTree agent.sourceDir (join tree (agentDir agent.name))).result d = (.ok (), d₁) ∧
      (copyAgents tree agents).result d₁ = (.ok rest, d') ∧
      r = { agent with sourceDir := agentDir agent.name } :: rest := by
  rw [copyAgents, result_bind_of_ok (OnDisk.result_look _ _)] at h
  split at h
  · cases h
  · next hdir =>
    obtain ⟨⟨⟩, d₁, hcopy, h⟩ := result_bind_eq_ok.1 h
    obtain ⟨rest, d₂, hrest, h⟩ := result_bind_eq_ok.1 h
    cases h
    exact ⟨d₁, rest, by simpa using hdir, hcopy, hrest, rfl⟩

theorem eq_of_copyAgents (h : (copyAgents tree agents).result d = (.ok r, d')) :
    r = agents.map fun agent => { agent with sourceDir := agentDir agent.name } := by
  induction agents generalizing d r with
  | nil =>
    cases h
    rfl
  | cons agent agents ih =>
    obtain ⟨d₁, rest, -, -, hrest, rfl⟩ := copyAgents_cons_eq_ok h
    rw [ih hrest, List.map_cons]

theorem laid_of_copyAgents (h : Workplace base S d)
    (hagents : ∀ a ∈ agents, IsName a.name) (hnodup : (agents.map (·.name)).Nodup)
    (hlegible : ∀ a ∈ agents, ∀ v, Laid base S d v → v.LegibleTree a.sourceDir)
    (hnone : ∀ a ∈ agents, ∀ rel, d.fileAt? (agentPlace S a.name ++ rel) = none)
    (hcopy : (copyAgents base agents).result d = (.ok r, d')) :
    Laid base S d d' ∧
      (∀ q, (∀ a ∈ agents, ∀ rel, q ≠ agentPlace S a.name ++ rel) → d'.fileAt? q = d.fileAt? q) ∧
      ∀ a ∈ agents, ∃ v, Laid base S d v ∧ ∀ rel c,
        d'.fileAt? (agentPlace S a.name ++ rel) = some c ↔
          (rel, c) ∈ filesOf v a.sourceDir ∧ isCopied rel := by
  induction agents generalizing d r with
  | nil =>
    cases hcopy
    exact ⟨.refl h, fun _ _ => rfl, by simp⟩
  | cons agent agents ih =>
    obtain ⟨d₁, rest, hdir, hsources, hrest, -⟩ := copyAgents_cons_eq_ok hcopy
    obtain ⟨hname, hagents⟩ := List.forall_mem_cons.1 hagents
    obtain ⟨hnew, hnodup⟩ := List.nodup_cons.1 hnodup
    obtain ⟨hlegible₁, hlegible⟩ := List.forall_mem_cons.1 hlegible
    obtain ⟨hnone₁, hnone⟩ := List.forall_mem_cons.1 hnone
    have hother : ∀ a ∈ agents, ∀ k more, agentPlace S agent.name ++ k ≠ agentPlace S a.name ++ more :=
      fun a ha k more heq =>
        hnew (List.mem_map.2 ⟨a, ha, (agentPlace_append_inj.1 heq).1.symm⟩)
    have hcopied : Copied base S (agentPlace S agent.name) (filesOf d agent.sourceDir) d d₁ := by
      rw [join_agentDir hname] at hsources
      exact copied_of_copyTree h (List.forall_mem_cons.2 ⟨by decide, by simpa using hname⟩) rfl hdir
        (hlegible₁ d (.refl h)) hnone₁ hsources
    have hlaid := hcopied.laid hsources
    have hsame : ∀ q, (∀ rel, q ≠ agentPlace S agent.name ++ rel) → d₁.fileAt? q = d.fileAt? q :=
      fun q hq => Option.ext fun c => (hcopied.fileAt? q c).trans
        (or_iff_left fun ⟨rel, _, _, heq⟩ => hq rel heq)
    obtain ⟨hlaid', hsame', hfound⟩ := ih hcopied.workplace hagents hnodup
      (fun a ha v hv => hlegible a ha v (hlaid.trans hv))
      (fun a ha rel => (hsame _ fun k => (hother a ha k rel).symm).trans (hnone a ha rel)) hrest
    refine ⟨hlaid.trans hlaid', fun q hq => ?_, List.forall_mem_cons.2 ⟨⟨d, .refl h, fun rel c => ?_⟩,
      fun a ha => ?_⟩⟩
    · obtain ⟨hq₁, hq⟩ := List.forall_mem_cons.1 hq
      exact (hsame' q hq).trans (hsame q hq₁)
    · rw [hsame' _ fun a ha more => hother a ha rel more, hcopied.fileAt?, hnone₁]
      simp
    · obtain ⟨v, hv, hfiles⟩ := hfound a ha
      exact ⟨v, hlaid.trans hv, hfiles⟩

/-! ### The registry -/

section

variable (h : Workplace base S d) (hname : IsName name) (htemporary : IsName temporary)
  (htext : temporary = Path.stem name ++ "." ++ "json.tmp")
include h hname htemporary htext

theorem temporary_of_createParent
    (hparent : (OnDisk.createParent (join base name)).result d = (.ok (), d₁)) :
    d₁ = d ∧ Storage.temporary (join base name) = under base [temporary] := by
  refine ⟨?_, htext ▸ Path.withExtension_join hname (htext ▸ htemporary)⟩
  rw [← OnDisk.result_createParent_of_leadsTo hname h.leadsTo, hparent]

theorem fileAt?_writeDocument
    (hwrite : (Storage.writeDocument (join base name) value).result d = (.ok (), d')) (q : Place) :
    d'.fileAt? q = if q = S ++ [ofText name] then some (ofText (value.pretty ++ "\n"))
      else if q = S ++ [ofText temporary] then none else d.fileAt? q := by
  obtain ⟨d₁, d₂, hparent, hfill, hrename⟩ := Storage.result_writeDocument_eq_ok.1 hwrite
  obtain ⟨rfl, hpath⟩ := temporary_of_createParent h hname htemporary htext hparent
  rw [hpath] at hfill hrename
  generalize ofText (value.pretty ++ "\n") = text at hfill
  have hnames : ∀ s ∈ [name], IsName s := by simpa using hname
  have hnames' : ∀ s ∈ [temporary], IsName s := by simpa using htemporary
  obtain ⟨p, hp, rfl⟩ := writeFile_eq_ok.1 hfill
  have hw := h.sound.of_writePlace hp
  obtain rfl := h.writePlace_eq hnames' (by simp) hp
  have hin : inside S (S ++ [temporary].map ofText) := inside_append (by simp)
  obtain ⟨e, hget, rfl⟩ := (h.fill hin hw).1.rename_eq_ok hnames' (by simp) hnames (by simp) hrename
  have hfile := fun q => fileAt?_fill (c := text) (q := q) (ne_nil_of_inside hin) (h.plain _ hin).alone
  simp only [List.map_cons, List.map_nil] at hget hfile ⊢
  split
  · next heq =>
    rw [hfile, heq]
    split <;> rfl
  · have he := hfile (S ++ [ofText temporary])
    rw [if_pos rfl, fileAt?_eq_some, hget] at he
    cases he
    rw [fileAt?_move (by simp) (by simp), hfile]
    split_ifs <;> rfl

theorem unlinked : Storage.Unlinked d (join base name) := by
  intro d₁ hparent t
  obtain ⟨rfl, hpath⟩ := temporary_of_createParent h hname htemporary htext hparent
  rw [hpath]
  exact ⟨h.look?_ne_symlink (show ∀ s ∈ [name], IsName s by simpa using hname) (by simp) t,
    h.look?_ne_symlink (by simpa using htemporary) (by simp) t⟩

end

/-- The registry of a code tree. -/
def packed (discovery : Discovery) : Registry where
  agents := discovery.agents.map fun agent => { agent with sourceDir := agentDir agent.name }
  rootAgent := discovery.rootAgent

/-- Lay out what a code tree has beside the agents and the registry. -/
def layBase (runtimeDir tree : String) : Action Disk Unit := do
  OnDisk.createDirectories tree
  if ← OnDisk.look (·.isDirectory runtimeDir) then
    copyTree runtimeDir (join tree "runtime")

theorem buildCodeTree_eq (runtimeDir : String) (discovery : Discovery) (tree : String) :
    buildCodeTree runtimeDir discovery tree = do
      layBase runtimeDir tree
      let agents ← copyAgents tree discovery.agents
      let registry : Registry := { agents, rootAgent := discovery.rootAgent }
      Registry.store (join tree fileName) registry
      return registry := by
  rw [buildCodeTree, layBase, bind_assoc]
  congr 1
  funext _
  rw [bind_assoc]
  congr 1
  funext there
  cases there <;> simp

theorem laid_of_layBase (h : Workplace tree T (d.createDirectories tree).2)
    (hnone : ∀ rel, (d.createDirectories tree).2.fileAt? (T ++ rel) = none)
    (hlegible : (d.createDirectories tree).2.LegibleTree runtimeDir)
    (hlay : (layBase runtimeDir tree).result d = (.ok (), d')) :
    Laid tree T (d.createDirectories tree).2 d' ∧ ∀ names c, d'.fileAt? (T ++ names) = some c ↔
      ∃ rel, (rel, c) ∈ filesOf (d.createDirectories tree).2 runtimeDir ∧ isCopied rel ∧
        names = ofText "runtime" :: rel := by
  obtain ⟨⟨⟩, d₁, hmake, hlay⟩ := result_bind_eq_ok.1 hlay
  rw [OnDisk.result_createDirectories] at hmake
  obtain ⟨-, rfl⟩ := Prod.mk.inj hmake
  rw [result_bind_of_ok (OnDisk.result_look _ _)] at hlay
  split at hlay
  · next hdir =>
    have hcopied := copied_of_copyTree (D := T ++ ["runtime"].map ofText) h (by decide) rfl hdir
      hlegible (fun rel => by rw [List.append_assoc, hnone]) hlay
    refine ⟨hcopied.laid hlay, fun names c => ?_⟩
    rw [hcopied.fileAt?, hnone]
    simp
  · next hdir =>
    cases hlay
    exact ⟨.refl h, fun names c => by simp [hnone, filesOf, hdir]⟩

/-- What is in a code tree. The files of an agent are those of its sources when they were reached. -/
structure CodeTree (tree : String) (T : Place) (d : Disk) (runtimeDir : String)
    (discovery : Discovery) (d' : Disk) : Prop where
  workplace : Workplace tree T d'
  nodup : (discovery.agents.map (·.name)).Nodup
  runtime : ∀ rel c, d'.fileAt? (T ++ ofText "runtime" :: rel) = some c ↔
    (rel, c) ∈ filesOf d runtimeDir ∧ isCopied rel = true
  agent : ∀ a ∈ discovery.agents, ∃ v, Laid tree T d v ∧ ∀ rel c,
    d'.fileAt? (agentPlace T a.name ++ rel) = some c ↔
      (rel, c) ∈ filesOf v a.sourceDir ∧ isCopied rel = true
  registry : d'.fileAt? (T ++ [ofText fileName]) =
    some (ofText ((packed discovery).toValue.pretty ++ "\n"))
  loaded : (Registry.load (join tree fileName)).result d' = (.ok (packed discovery), d')
  only : ∀ names c, d'.fileAt? (T ++ names) = some c → names = [ofText fileName] ∨
    (∃ rel, names = ofText "runtime" :: rel) ∨
      ∃ a ∈ discovery.agents, ∃ rel, names = ["agents", a.name].map ofText ++ rel

theorem codeTree_of_build (h : Workplace tree T (d.createDirectories tree).2)
    (hnone : ∀ rel, (d.createDirectories tree).2.fileAt? (T ++ rel) = none)
    (hagents : ∀ a ∈ discovery.agents, IsName a.name)
    (hruntime : (d.createDirectories tree).2.LegibleTree runtimeDir)
    (hlegible : ∀ a ∈ discovery.agents, ∀ v, Laid tree T (d.createDirectories tree).2 v →
      v.LegibleTree a.sourceDir)
    (hbuild : (buildCodeTree runtimeDir discovery tree).result d = (.ok registry, d')) :
    registry = packed discovery ∧
      CodeTree tree T (d.createDirectories tree).2 runtimeDir discovery d' := by
  rw [buildCodeTree_eq] at hbuild
  obtain ⟨⟨⟩, d₁, hlay, hbuild⟩ := result_bind_eq_ok.1 hbuild
  obtain ⟨r, d₂, hcopy, hbuild⟩ := result_bind_eq_ok.1 hbuild
  obtain ⟨⟨⟩, d₃, hstore, hbuild⟩ := result_bind_eq_ok.1 hbuild
  cases hbuild
  obtain rfl := eq_of_copyAgents hcopy
  obtain ⟨hlaid₁, hruntime⟩ := laid_of_layBase h hnone hruntime hlay
  obtain ⟨⟨⟩, d₀, hcheck, hwrite⟩ := result_bind_eq_ok.1 hstore
  obtain rfl := (Registry.closed_check (OnDisk.closed_still frame_eq) fun _ => trivial).of_result hcheck
  have hsensible := Registry.sensible_of_check hcheck
  have hnodup : (discovery.agents.map (·.name)).Nodup := by
    simpa [Function.comp_def] using hsensible.distinct
  have hbeside : ∀ (a : String) k rel, ["agents", a].map ofText ++ k ≠ ofText "runtime" :: rel :=
    fun a k rel heq => absurd (List.cons.inj heq).1 (by decide)
  obtain ⟨hlaid₂, hsame, hfound⟩ := laid_of_copyAgents hlaid₁.workplace hagents hnodup
    (fun a ha v hv => hlegible a ha v (hlaid₁.trans hv))
    (fun a _ rel => Option.eq_none_iff_forall_ne_some.2 fun c hc => by
      rw [agentPlace, List.append_assoc, hruntime] at hc
      obtain ⟨k, -, -, heq⟩ := hc
      exact hbeside _ _ _ heq) hcopy
  have hfile := fileAt?_writeDocument hlaid₂.workplace (show IsName fileName by decide)
    (show IsName "registry.json.tmp" by decide) rfl hwrite
  have hkept : ∀ s ∈ ["runtime", "agents"], ∀ k,
      d'.fileAt? (T ++ ofText s :: k) = d₂.fileAt? (T ++ ofText s :: k) := by
    have hapart : ∀ s ∈ ["runtime", "agents"], ∀ t ∈ [fileName, "registry.json.tmp"], s ≠ t := by
      decide
    intro s hs k
    have hne : ∀ t ∈ [fileName, "registry.json.tmp"],
        T ++ ofText s :: k ≠ T ++ [ofText t] := fun t ht heq => by
      rw [List.append_cancel_left_eq, List.cons.injEq] at heq
      exact hapart s hs t ht (Bytes.ofText_injective heq.1)
    rw [hfile, if_neg (hne _ (by simp)), if_neg (hne _ (by simp))]
  refine ⟨rfl, ((limited_store (T := fun _ => True) (show ∀ s ∈ ([] : List String), IsName s by simp)
    (fun _ _ _ _ _ => trivial) _).of_result hstore hlaid₂.workplace).1, hnodup, fun rel c => ?_,
    fun a ha => ?_, ?_, ?_, fun names c hc => ?_⟩
  · rw [hkept _ (by simp), hsame, hruntime]
    · simp
    · intro a _ k heq
      rw [agentPlace, List.append_assoc, List.append_cancel_left_eq] at heq
      exact hbeside _ _ _ heq.symm
  · obtain ⟨v, hv, hfiles⟩ := hfound a ha
    refine ⟨v, hlaid₁.trans hv, fun rel c => ?_⟩
    rw [← hfiles, agentPlace, List.append_assoc]
    exact iff_of_eq (congrArg (· = some c) (hkept _ (by simp) _))
  · rw [hfile, if_pos rfl]
    rfl
  · exact (Registry.readsBack hlaid₂.workplace.sound hsensible).loaded d' hstore
      (unlinked hlaid₂.workplace (by decide) (show IsName "registry.json.tmp" by decide) rfl)
  · rw [hfile] at hc
    split at hc
    · next heq => exact .inl (List.append_cancel_left heq)
    split at hc
    · cases hc
    by_cases hagent : ∀ a ∈ discovery.agents, ∀ rel, T ++ names ≠ agentPlace T a.name ++ rel
    · rw [hsame _ hagent, hruntime] at hc
      obtain ⟨rel, -, -, heq⟩ := hc
      exact .inr (.inl ⟨rel, heq⟩)
    · push Not at hagent
      obtain ⟨a, ha, rel, heq⟩ := hagent
      rw [agentPlace, List.append_assoc, List.append_cancel_left_eq] at heq
      exact .inr (.inr ⟨a, ha, rel, heq⟩)

/-! ### The layout -/

def copies (dest : List String) (files : List (List Name × Bytes)) : List (List Name × Bytes) :=
  (files.filter (isCopied ·.1)).map fun file => (dest.map ofText ++ file.1, file.2)

theorem mem_copies : (names, c) ∈ copies dest files ↔
    ∃ rel, (rel, c) ∈ files ∧ isCopied rel ∧ names = dest.map ofText ++ rel := by
  simp [copies, and_assoc, @eq_comm _ names]

theorem nodup_copies (h : (files.map (·.1)).Nodup) : ((copies dest files).map (·.1)).Nodup := by
  have hsub := ((List.filter_sublist (l := files) (p := (isCopied ·.1))).map (·.1)).nodup h
  simpa [copies, Function.comp_def] using hsub.map (List.append_right_injective (dest.map ofText))

theorem nodup_filesOf (hd : d.Sound) (directory : String) :
    ((filesOf d directory).map (·.1)).Nodup := by
  rw [filesOf]
  split
  · cases hfound : d.treeFiles directory with
    | error f => simp [Except.toOption]
    | ok found => exact hd.nodup_treeFiles hfound
  · simp

/-- The files of a code tree, by the names that lead to them. -/
def layout (d : Disk) (runtimeDir : String) (discovery : Discovery) : List (List Name × Bytes) :=
  copies ["runtime"] (filesOf d runtimeDir) ++
    discovery.agents.flatMap (fun a => copies ["agents", a.name] (filesOf d a.sourceDir)) ++
    [([ofText fileName], ofText ((packed discovery).toValue.pretty ++ "\n"))]

theorem nodup_layout (hd : d.Sound) (hnodup : (discovery.agents.map (·.name)).Nodup) :
    ((layout d runtimeDir discovery).map (·.1)).Nodup := by
  have hstart : ∀ {dest files k}, k ∈ (copies dest files).map (·.1) →
      ∃ rel, dest.map ofText ++ rel = k := by
    intro dest files k hk
    obtain ⟨file, hfile, rfl⟩ := List.mem_map.1 hk
    obtain ⟨rel, -, -, heq⟩ := mem_copies.1 hfile
    exact ⟨rel, heq.symm⟩
  have hnames := List.pairwise_map.1 hnodup
  simp only [layout, List.map_append, List.map_flatMap, List.nodup_append, List.nodup_flatMap]
  refine ⟨⟨nodup_copies (nodup_filesOf hd _), ⟨fun _ _ => nodup_copies (nodup_filesOf hd _),
    hnames.imp fun hne k hk hk' => ?_⟩, fun k hk k' hk' heq => ?_⟩, by simp, fun k hk k' hk' heq => ?_⟩
  · obtain ⟨rel, rfl⟩ := hstart hk
    obtain ⟨rel', heq⟩ := hstart hk'
    exact hne (Bytes.ofText_injective (List.cons.inj (List.cons.inj heq).2).1.symm)
  · obtain ⟨a, -, hk'⟩ := List.mem_flatMap.1 hk'
    obtain ⟨rel, rfl⟩ := hstart hk
    obtain ⟨rel', rfl⟩ := hstart hk'
    exact absurd (List.cons.inj heq).1 (by decide)
  · obtain rfl := List.mem_singleton.1 hk'
    rcases List.mem_append.1 hk with hk | hk
    · obtain ⟨rel, rfl⟩ := hstart hk
      exact absurd (List.cons.inj heq).1 (by decide)
    · obtain ⟨a, -, hk⟩ := List.mem_flatMap.1 hk
      obtain ⟨rel, rfl⟩ := hstart hk
      exact absurd (List.cons.inj heq).1 (by decide)

theorem CodeTree.mem_layout_iff (h : CodeTree tree T d runtimeDir discovery d')
    (hsources : ∀ a ∈ discovery.agents, ∀ v, Laid tree T d v → ∀ rel c,
      (rel, c) ∈ filesOf v a.sourceDir ↔ (rel, c) ∈ filesOf d a.sourceDir) :
    (names, c) ∈ layout d runtimeDir discovery ↔ d'.fileAt? (T ++ names) = some c := by
  rw [layout, List.mem_append, List.mem_append, List.mem_flatMap, List.mem_singleton]
  constructor
  · rintro ((hruntime | ⟨a, ha, hagent⟩) | hregistry)
    · obtain ⟨rel, hrel, hcopied, rfl⟩ := mem_copies.1 hruntime
      exact (h.runtime rel c).2 ⟨hrel, hcopied⟩
    · obtain ⟨rel, hrel, hcopied, rfl⟩ := mem_copies.1 hagent
      obtain ⟨v, hv, hfiles⟩ := h.agent a ha
      rw [← List.append_assoc]
      exact (hfiles rel c).2 ⟨(hsources a ha v hv rel c).2 hrel, hcopied⟩
    · cases hregistry
      exact h.registry
  · intro hfile
    rcases h.only names c hfile with rfl | ⟨rel, rfl⟩ | ⟨a, ha, rel, rfl⟩
    · rw [h.registry] at hfile
      cases hfile
      exact .inr rfl
    · obtain ⟨hrel, hcopied⟩ := (h.runtime rel c).1 hfile
      exact .inl (.inl (mem_copies.2 ⟨rel, hrel, hcopied, rfl⟩))
    · obtain ⟨v, hv, hfiles⟩ := h.agent a ha
      rw [← List.append_assoc] at hfile
      obtain ⟨hrel, hcopied⟩ := (hfiles rel c).1 hfile
      exact .inl (.inr ⟨a, ha, mem_copies.2 ⟨rel, (hsources a ha v hv rel c).1 hrel, hcopied, rfl⟩⟩)

theorem Laid.resolve_and_get? (h : Laid base S d v)
    (hP : d.resolve true source = .ok (.present P .directory)) (hapart : Apart P S) :
    v.resolve true source = .ok (.present P .directory) ∧
      ∀ rel, v.get? (P ++ rel) = d.get? (P ++ rel) := by
  refine ⟨((leadsTo_of_resolve hP).mono h.grows.keeps h.grows.home).resolve_eq (ne_nil_of_resolve hP)
    (followable_of_resolve hP), fun rel => h.changes.entry _ fun hin => ?_⟩
  obtain ⟨k, -, heq⟩ := inside_iff.1 hin
  have hpre := List.prefix_append S k
  rw [← heq] at hpre
  exact (List.prefix_or_prefix_of_prefix (List.prefix_append P rel) hpre).elim hapart.1 hapart.2

/-- The code tree is exactly what the layout says. The agents are those that were found in a
workspace, and the tree is laid out in an empty directory apart from their sources. -/
theorem code_tree_is_layout {root : String} {bootstrap : List String} {w w' : World}
    {registry : Registry} (hd : w.disk.Sound)
    (hscan : (Discovery.scan root bootstrap).result w = (.ok discovery, w'))
    (hfresh : w'.disk.Fresh tree T)
    (hruntime : (w'.disk.createDirectories tree).2.LegibleTree runtimeDir)
    (hlegible : ∀ a ∈ discovery.agents, (w'.disk.createDirectories tree).2.LegibleTree a.sourceDir)
    (hapart : ∀ a ∈ discovery.agents, ∀ P, (w'.disk.createDirectories tree).2.resolve true
      a.sourceDir = .ok (.present P .directory) → Apart P T)
    (hbuild : (buildCodeTree runtimeDir discovery tree).result w'.disk = (.ok registry, d')) :
    ∃ laid, d'.treeFiles tree = .ok laid ∧
      laid.Perm (layout (w'.disk.createDirectories tree).2 runtimeDir discovery) ∧
      ((layout (w'.disk.createDirectories tree).2 runtimeDir discovery).map (·.1)).Nodup ∧
      registry = packed discovery ∧
      (Registry.load (join tree fileName)).result d' = (.ok registry, d') := by
  obtain ⟨hd', hdirs⟩ := Discovery.isDirectory_of_scan hd hscan
  obtain ⟨hmade, hfurnished⟩ := hd'.furnished_createDirectories tree
  have hempty := hfresh.emptyDirectory hd'
  have hplaces : ∀ a ∈ discovery.agents,
      (w'.disk.createDirectories tree).2.isDirectory a.sourceDir = true := fun a ha =>
    hfurnished.grows.keeps.isDirectory hfurnished.grows.home (hdirs a ha)
  -- the sources of the agents are not reached by what is laid out
  have hkept : ∀ a ∈ discovery.agents, ∀ v, Laid tree T (w'.disk.createDirectories tree).2 v →
      v.isDirectory a.sourceDir = true ∧ ∀ rel c, (rel, c) ∈ filesOf v a.sourceDir ↔
        (rel, c) ∈ filesOf (w'.disk.createDirectories tree).2 a.sourceDir := by
    intro a ha v hv
    obtain ⟨P, hP⟩ := exists_resolve_of_isDirectory (hplaces a ha)
    obtain ⟨hP', hget⟩ := hv.resolve_and_get? hP (hapart a ha P hP)
    refine ⟨by simp [isDirectory, follow?, hP'], fun rel c => ?_⟩
    rw [mem_filesOf_iff hv.workplace.sound hP', mem_filesOf_iff hmade hP, hget]
  have hsources := fun a ha v hv => (hkept a ha v hv).2
  obtain ⟨rfl, htree⟩ := codeTree_of_build (hempty.workplace hmade) hempty.fileAt?_eq_none
    (Discovery.isName_of_scan hscan) hruntime (fun a ha v hv found hfound file hfile => by
      cases hfound.symm.trans (treeFiles_eq (hkept a ha v hv).1)
      exact hlegible a ha _ (treeFiles_eq (hplaces a ha)) file ((hsources a ha v hv _ _).1 hfile))
    hbuild
  have hreached : d'.resolve true tree = .ok (.present T .directory) :=
    htree.workplace.leadsTo.resolve_eq (ne_nil_of_resolve hfresh.reached)
      (followable_of_resolve hfresh.reached)
  have hnodup : ((layout (w'.disk.createDirectories tree).2 runtimeDir discovery).map (·.1)).Nodup :=
    nodup_layout hmade htree.nodup
  refine ⟨filesOf d' tree, treeFiles_eq (by simp [isDirectory, follow?, hreached]), ?_, hnodup, rfl,
    htree.loaded⟩
  rw [List.perm_ext_iff_of_nodup (nodup_filesOf htree.workplace.sound tree).of_map hnodup.of_map]
  rintro ⟨names, c⟩
  rw [htree.mem_layout_iff hsources, mem_filesOf_iff htree.workplace.sound hreached, fileAt?_eq_some]
  refine and_iff_right_of_imp fun hget => ?_
  rintro rfl
  rw [List.append_nil, htree.workplace.directory] at hget
  cases hget

/-- A workspace with an agent and a runtime of which nothing is copied. -/
def sketch : World :=
  workspace [] "" [(placeOf ["w", "runtime"], .directory),
    (placeOf ["w", "runtime", "__pycache__"], .directory),
    (placeOf ["w", "runtime", "__pycache__", "a"], .file (ofText "A"))]

def sketched : Discovery where
  agents := [⟨"root", "/w/agent", "agents.root.main"⟩]
  rootAgent := "root"
  requirements := []
  requested := []

set_option maxRecDepth 100000 in
/-- The code tree of a small workspace. -/
theorem code_tree_is_layout_sketch : ∃ w' registry d' laid,
    (Discovery.scan "/w" []).result sketch = (.ok sketched, w') ∧
      w'.disk.Fresh "/w/dist/code" (placeOf ["w", "dist", "code"]) ∧
      (buildCodeTree "/w/runtime" sketched "/w/dist/code").result w'.disk = (.ok registry, d') ∧
      d'.treeFiles "/w/dist/code" = .ok laid ∧
      laid.Perm [(placeOf ["agents", "root", "main.py"], ofText "x"),
        (placeOf [fileName], ofText (registry.toValue.pretty ++ "\n"))] ∧
      (Registry.load "/w/dist/code/registry.json").result d' = (.ok registry, d') := by
  have hsound : sketch.disk.Sound := sound_of_fits (by decide +kernel)
  have hmade : (sketch.disk.createDirectories "/w/dist/code").2.Legible :=
    (hsound.furnished_createDirectories _).1.legible (by decide +kernel)
  have hscan : ((Discovery.scan "/w" []).result sketch).1 = .ok sketched := by decide +kernel
  have hdisk := (Discovery.reported_scan "/w" [] sketch).disk_eq rfl
  rcases hres : (Discovery.scan "/w" []).result sketch with ⟨r, w'⟩
  rw [hres] at hscan hdisk
  obtain rfl : r = .ok sketched := hscan
  have hfresh : sketch.disk.Fresh "/w/dist/code" (placeOf ["w", "dist", "code"]) := by decide +kernel
  have hbuild : ((buildCodeTree "/w/runtime" sketched "/w/dist/code").result
      sketch.disk).1.toOption.isSome := by
    decide +kernel
  obtain ⟨registry, d', hbuild⟩ := exists_of_isSome hbuild
  have hagent : (sketch.disk.createDirectories "/w/dist/code").2.resolve true "/w/agent" =
      .ok (.present (placeOf ["w", "agent"]) .directory) := by
    decide +kernel
  have hlayout : layout (sketch.disk.createDirectories "/w/dist/code").2 "/w/runtime" sketched =
      [(placeOf ["agents", "root", "main.py"], ofText "x"), (placeOf [fileName],
        ofText ((packed sketched).toValue.pretty ++ "\n"))] := by
    decide +kernel
  rw [← hdisk] at hfresh hbuild hmade hagent hlayout
  obtain ⟨laid, hlaid, hperm, -, rfl, hload⟩ := code_tree_is_layout hsound hres hfresh
    (hmade.tree _) (fun a _ => hmade.tree _) (fun a ha P hP => by
      obtain rfl : a = ⟨"root", "/w/agent", "agents.root.main"⟩ := List.mem_singleton.1 ha
      cases hagent.symm.trans hP
      exact ⟨by decide +kernel, by decide +kernel⟩) hbuild
  exact ⟨w', _, d', laid, rfl, hfresh, hbuild, hlaid, hlayout ▸ hperm, hload⟩

end AgentChain.Package

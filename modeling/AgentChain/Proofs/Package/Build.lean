import AgentChain.Proofs.Package.Reset
import AgentChain.Proofs.Registry

/-!
# Laying out trees

The trees that are packed are laid out in a directory of their own, and nothing is changed anywhere
else: every file is copied to a path that is the path of that directory with names after it. The
names come from the files of a tree as they are shown, from the rule for the names of agents, and
from a vendor manifest.
-/

namespace AgentChain.Package

open AgentChain.Action Disk
open Bytes (ofText)
open AgentChain.Path (under IsName join)

variable {d d' : Disk} {base : String} {S : Place} {dest : List String}

/-! ### Copies of trees -/

/-- A file that is collected by names after the directory of its tree. -/
def Named (file : Collected) : Prop :=
  ∃ names, names ≠ [] ∧ (∀ s ∈ names, IsName s) ∧ file.name = Text.join "/" names

theorem named_of_collect (hd : d.Sound) (hdir : d.isDirectory r)
    (h : d.collect r = .ok files) : ∀ file ∈ files, Named file := by
  obtain ⟨P, hP⟩ := exists_resolve_of_isDirectory hdir
  rw [collect_eq] at h
  obtain ⟨found, hfound, rfl⟩ := map_eq_ok.1 h
  intro file hfile
  rw [(List.mergeSort_perm _ _).mem_iff, List.mem_map] at hfile
  obtain ⟨⟨names, c⟩, hmem, rfl⟩ := hfile
  obtain ⟨hne, hget⟩ := (hd.mem_treeFiles_iff hP hfound).1 hmem
  refine ⟨names.map Bytes.lossyText, by simpa using hne, fun s hs => ?_, rfl⟩
  obtain ⟨n, hn, rfl⟩ := List.mem_map.1 hs
  exact (hd.proper _ (by rw [hget]; simp) n (by simp [hn])).isName_lossyText

variable {T : Place → Prop}

section

variable (hdest : ∀ s ∈ dest, IsName s)
  (hT : ∀ q, inside S q → Near (S ++ dest.map ofText) q → T q)
include hdest hT

theorem limited_copyFiles (files : List Collected) (hfiles : ∀ file ∈ files, Named file) :
    Moves (Limited base S T) (copyFiles (under base dest) files) := by
  have hR := Limited.frame base S T
  induction files with
  | nil => exact hR.pure _
  | cons file files ih =>
    obtain ⟨names, hne, hnames, hname⟩ := hfiles file List.mem_cons_self
    obtain ⟨names, s, rfl⟩ := List.eq_nil_or_concat' names |>.resolve_left hne
    have htarget : join (under base dest) file.name = under base (dest ++ names ++ [s]) := by
      rw [hname, Path.join_join_names hne hnames, ← Path.under_append, List.append_assoc]
    have hall : ∀ s' ∈ dest ++ (names ++ [s]), IsName s' := fun s' hs' =>
      (List.mem_append.1 hs').elim (hdest s') (hnames s')
    have hway : ∀ k, k <+: dest ++ (names ++ [s]) → k ≠ [] → T (S ++ k.map ofText) :=
      fun k hk hne => hT _ (inside_append (by simpa using hne)) (near_map hk)
    rw [← List.append_assoc] at hall hway
    have hrest := ih fun f hf => hfiles f (List.mem_cons_of_mem file hf)
    rw [copyFiles]
    split
    · simp only [htarget]
      refine hR.bind (OnDisk.limited_createParent (fun s' hs' => hall s' (List.mem_append_left _ hs'))
        (hall s (by simp)) fun k hk => hway k (hk.trans (List.prefix_append _ _))) fun _ => hR.bind ?_ fun _ => hrest
      exact Frame.within (OnDisk.limited_copy hall (by simp)
        (hway _ (List.prefix_refl _) (by simp)) _) _
    · exact hrest

theorem limited_copyTree {source : String} (hdir : d.isDirectory source) :
    Limited base S T d ((copyTree source (under base dest)).result d).2 := by
  intro h
  rw [copyTree, result_bind, OnDisk.collect, result_within, OnDisk.result_read]
  cases hfiles : d.collect source with
  | error fault => exact ⟨h, .refl _ d⟩
  | ok files => exact limited_copyFiles hdest hT files (named_of_collect h.sound hdir hfiles) d h

end

theorem join_agentDir (hname : IsName name) (a : String) :
    join a (agentDir name) = under a ["agents", name] := by
  have htext : agentDir name = Text.join "/" ["agents", name] :=
    String.toList_injective (by simp [agentDir, Path.toList_join_names])
  rw [htext, Path.join_join_names (by simp) (List.forall_mem_cons.2 ⟨by decide, by simpa using hname⟩)]

theorem limited_copyAgents (hdest : ∀ s ∈ dest, IsName s) (agents : List Agent.Descriptor)
    (hagents : ∀ agent ∈ agents, IsName agent.name) (hT : ∀ agent ∈ agents, ∀ q, inside S q →
      Near (S ++ (dest ++ ["agents", agent.name]).map ofText) q → T q) :
    Moves (Limited base S T) (copyAgents (under base dest) agents) := by
  have hR := Limited.frame base S T
  induction agents with
  | nil => exact hR.pure _
  | cons agent agents ih =>
    obtain ⟨hname, hagents⟩ := List.forall_mem_cons.1 hagents
    obtain ⟨hfirst, hT⟩ := List.forall_mem_cons.1 hT
    have hall : ∀ s ∈ dest ++ ["agents", agent.name], IsName s := fun s hs =>
      (List.mem_append.1 hs).elim (hdest s) fun hs => by
        rcases List.mem_pair.1 hs with rfl | rfl
        · decide
        · exact hname
    rw [copyAgents]
    refine OnDisk.moves_look_bind fun d => ?_
    split
    · exact hR.fail _ d
    · next hsource =>
      rw [join_agentDir hname, ← Path.under_append]
      refine hR.bind_at (limited_copyTree hall hfirst (by simpa using hsource)) fun _ t _ => ?_
      exact hR.bind (ih hagents hT) (fun _ => hR.pure _) t

theorem limited_writeDocument {names name} (hnames : ∀ s ∈ names, IsName s) (hname : IsName name)
    (htemporary : IsName (Path.stem name ++ "." ++ "json.tmp"))
    (hT : ∀ s ∈ [name, Path.stem name ++ "." ++ "json.tmp"], ∀ k, k <+: names ++ [s] → k ≠ [] →
      T (S ++ k.map ofText)) (value : Json.Value) :
    Moves (Limited base S T) (Storage.writeDocument (under base (names ++ [name])) value) := by
  have hR := Limited.frame base S T
  have hall : ∀ {s}, IsName s → ∀ s' ∈ names ++ [s], IsName s' := fun hs s' hs' => by
    rcases List.mem_append.1 hs' with hs' | hs'
    · exact hnames s' hs'
    · exact List.mem_singleton.1 hs' ▸ hs
  have hlast : ∀ s ∈ [name, Path.stem name ++ "." ++ "json.tmp"],
      T (S ++ (names ++ [s]).map ofText) := fun s hs => hT s hs _ (List.prefix_refl _) (by simp)
  have htext : Path.withExtension (under base (names ++ [name])) "json.tmp" =
      under base (names ++ [Path.stem name ++ "." ++ "json.tmp"]) := by
    rw [Path.under_concat, Path.under_concat]
    exact Path.withExtension_join hname htemporary
  rw [Storage.writeDocument, htext]
  refine hR.bind (OnDisk.limited_createParent hnames hname
    fun k hk => hT name (by simp) k (hk.trans (List.prefix_append _ _)))
    fun _ => hR.bind ?_ fun _ => ?_
  · exact Frame.within (OnDisk.limited_writeFile (hall htemporary) (by simp) (hlast _ (by simp))) _
  · exact Frame.within (OnDisk.limited_rename (hall htemporary) (by simp) (hall hname) (by simp)
      (hlast _ (by simp)) (hlast _ (by simp))) _

theorem limited_store (hdest : ∀ s ∈ dest, IsName s)
    (hT : ∀ s ∈ [Registry.fileName, "registry.json.tmp"], ∀ k, k <+: dest ++ [s] → k ≠ [] →
      T (S ++ k.map ofText)) (registry : Registry) :
    Moves (Limited base S T)
      (Registry.store (under base (dest ++ [Registry.fileName])) registry) := by
  have hR := Limited.frame base S T
  exact hR.bind (Registry.closed_check (OnDisk.closed_still hR) fun _ => trivial) fun _ =>
    limited_writeDocument hdest (by decide) (by decide) hT _

theorem limited_buildCodeTree (runtimeDir : String) (discovery : Discovery) (dest : List String)
    (hdest : ∀ s ∈ dest, IsName s) (hne : dest ≠ [])
    (hagents : ∀ agent ∈ discovery.agents, IsName agent.name)
    (hT : ∀ q, inside S q → Near (S ++ dest.map ofText) q → T q) :
    Moves (Limited base S T) (buildCodeTree runtimeDir discovery (under base dest)) := by
  have hR := Limited.frame base S T
  have hbelow : ∀ more q, inside S q →
      Near (S ++ (dest ++ more).map ofText) q → T q := fun more q hq hnear => by
    rw [List.map_append, ← List.append_assoc] at hnear
    exact hT q hq hnear.of_append
  have hruntime : ∀ s ∈ dest ++ ["runtime"], IsName s := fun s hs =>
    (List.mem_append.1 hs).elim (hdest s) fun hs => List.mem_singleton.1 hs ▸ by decide
  rw [buildCodeTree, ← Path.under_concat, ← Path.under_concat]
  refine hR.bind (OnDisk.limited_createDirectories hdest hne fun k hk hne =>
    hT _ (inside_append (by simpa using hne)) (.inl (by simpa using hk.map _))) fun _ => ?_
  refine OnDisk.moves_look_bind fun d => ?_
  have hrest : Moves (Limited base S T) (do
      let agents ← copyAgents (under base dest) discovery.agents
      let registry : Registry := { agents, rootAgent := discovery.rootAgent }
      Registry.store (under base (dest ++ [Registry.fileName])) registry
      return registry) :=
    hR.bind (limited_copyAgents hdest _ hagents fun _ _ => hbelow _) fun agents =>
      hR.bind (limited_store hdest (fun _ _ k hk hne =>
        hT _ (inside_append (by simpa using hne)) (near_map hk)) _) fun _ => hR.pure _
  split
  · next hdir =>
    refine hR.bind_at ?_ fun _ t _ => hrest t
    exact limited_copyTree hruntime (hbelow _) hdir
  · exact hrest d

theorem confined_buildCodeTree (runtimeDir : String) (discovery : Discovery)
    (hagents : ∀ agent ∈ discovery.agents, IsName agent.name) :
    Moves (Confined base S) (buildCodeTree runtimeDir discovery (join base "code")) :=
  limited_buildCodeTree runtimeDir discovery ["code"] (by decide) (by simp) hagents fun _ hq _ => hq

theorem changes_buildCodeTree (h : Workplace base S d)
    (hagents : ∀ agent ∈ discovery.agents, IsName agent.name)
    (hd' : (buildCodeTree runtimeDir discovery (join base "code")).result d = (r, d')) :
    Changes (S ++ [ofText "code"] <+: ·) d d' := by
  refine ((limited_buildCodeTree runtimeDir discovery ["code"] (by decide) (by simp) hagents
    fun q hq hnear => ?_).of_result hd' h).2
  rcases hnear with hway | hbelow
  · -- nothing is on the way to the tree but the tree itself
    obtain ⟨names, hne, rfl⟩ := inside_iff.1 hq
    rw [List.prefix_append_right_inj] at hway
    have hlength : names.length = 1 := Nat.le_antisymm hway.length_le (List.length_pos_iff.2 hne)
    exact hway.eq_of_length hlength ▸ List.prefix_refl _
  · exact hbelow

/-! ### Package files -/

def IsPackage (S q : Place) : Prop :=
  ∃ name, IsName name ∧ q = S ++ ["deps", packagesDir, name].map ofText

theorem below_map (hk : k <+: s :: more) (hne : k ≠ []) :
    S ++ [ofText s] <+: S ++ k.map ofText := by
  obtain ⟨t, k, rfl⟩ := List.exists_cons_of_ne_nil hne
  obtain ⟨rfl, -⟩ := List.cons_prefix_cons.1 hk
  simp [List.prefix_append_right_inj]

/-- A workplace stays one, nothing changes but its dependency tree, and no files come there but
package files. -/
def LaysPackages (base : String) (S : Place) (d d' : Disk) : Prop :=
  Workplace base S d →
    Workplace base S d' ∧ Changes (S ++ [ofText "deps"] <+: ·) d d' ∧
      ∀ q c, d'.get? q = some (.file c) → (∃ c', d.get? q = some (.file c')) ∨ IsPackage S q

theorem LaysPackages.frame (base : String) (S : Place) : Frame (LaysPackages base S) where
  refl d h := ⟨h, .refl _ d, fun _ c hq => .inl ⟨c, hq⟩⟩
  trans h h' hd :=
    have ⟨hd', hc, hadds⟩ := h hd
    have ⟨hd'', hc', hadds'⟩ := h' hd'
    ⟨hd'', hc.trans hc', fun q c hq =>
      (hadds' q c hq).elim (fun ⟨c', hc'⟩ => hadds q c' hc') .inr⟩

theorem LaysPackages.confined (h : LaysPackages base S d d') : Confined base S d d' := fun hd =>
  have ⟨hd', hc, _⟩ := h hd
  ⟨hd', hc.mono fun _ ⟨more, hmore⟩ => hmore ▸ by simp [inside_append]⟩

theorem laysPackages_buildDepsTree (vendorDir : String) (vendor : VendorManifest)
    (hfiles : ∀ p ∈ vendor.packageFiles, IsName p.2) :
    Moves (LaysPackages base S) (buildDepsTree vendorDir vendor (join base "deps")) := by
  have hR := LaysPackages.frame base S
  have hdest : ∀ s ∈ ["deps", packagesDir], IsName s := by decide
  have htree : join (join base "deps") packagesDir = under base ["deps", packagesDir] := rfl
  rw [buildDepsTree, htree]
  refine hR.bind (fun d hd => ?_) fun _ => closed_copyPackages (OnDisk.closed_changes hR)
    (fun _ => trivial) _ _ _ fun p hp source => ?_
  · obtain ⟨hd', hc⟩ := OnDisk.limited_createDirectories (T := (S ++ [ofText "deps"] <+: ·))
      hdest (by simp) (fun k hk hne => below_map hk hne) d hd
    refine ⟨hd', hc, fun q c hq => ?_⟩
    have hfurn := (hd.sound.furnished_createDirectories (under base ["deps", packagesDir])).2
    rw [OnDisk.result_createDirectories] at hq
    simp only at hq
    rcases hfurn.entry q with heq | ⟨-, hdir⟩
    · rw [heq] at hq
      exact .inl ⟨c, hq⟩
    · rw [hdir] at hq
      cases hq
  · have hnames : ∀ s ∈ ["deps", packagesDir, p.2], IsName s := by
      intro s hs
      rcases List.mem_cons.1 hs with rfl | hs
      · decide
      rcases List.mem_pair.1 hs with rfl | rfl
      · decide
      · exact hfiles p hp
    have htarget : join (under base ["deps", packagesDir]) p.2 =
        under base ["deps", packagesDir, p.2] := rfl
    rw [htarget]
    refine OnDisk.moves_change hR fun d d' hcopy hd => ?_
    obtain ⟨origin, c', place, -, hplace, rfl⟩ := copy_eq_ok hcopy
    generalize (if d.areTwins place origin then [] else c') = c'
    have hspot := hd.sound.of_writePlace hplace
    obtain rfl := hd.writePlace_eq hnames (by simp) hplace
    have hinside : inside S (S ++ ["deps", packagesDir, p.2].map ofText) := inside_append (by simp)
    obtain ⟨hd', hc⟩ := hd.fill (c := c') hinside hspot
    refine ⟨hd', hc.mono fun q (hq : q = _) => ?_, fun q c hq => ?_⟩
    · rw [hq]
      exact below_map (List.prefix_refl _) (by simp)
    rcases hd.sound.get?_fill_cases (c := c') (ne_nil_of_vacant_or_file hspot)
      (hspot.imp_left Vacant.free) q with heq | ⟨-, rfl | hfile⟩
    · exact .inl ⟨c, heq.symm.trans hq⟩
    · exact .inr ⟨p.2, hfiles p hp, rfl⟩
    · exact .inl hfile

theorem confined_buildDepsTree (vendorDir : String) (vendor : VendorManifest)
    (hfiles : ∀ p ∈ vendor.packageFiles, IsName p.2) :
    Moves (Confined base S) (buildDepsTree vendorDir vendor (join base "deps")) := fun d =>
  (laysPackages_buildDepsTree vendorDir vendor hfiles d).confined

end AgentChain.Package

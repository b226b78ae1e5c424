import AgentChain.Proofs.FileTree.Furnished
import AgentChain.Proofs.Manifest
import AgentChain.Proofs.Registry
import AgentChain.Proofs.Verify

/-!
# Documents that are read back

Manifests and registries are written beside their place and moved there. What is then read at that
place is the document that was written: its text is found, and the text is read to the same record.
A registry is checked on both ways, and only a registry with a flaw is refused: a name that occurs
twice, a module path without a word in it, or a first agent that is not listed.

Where a document can be kept depends on the disk alone. Its directory has to be there, or it can be
made, and under the name of the document and under the temporary name beside it there is a file or
nothing. A link under the temporary name would send the text elsewhere, and a link under the name
of the document may be a part of its own path, which moving the document there then breaks.
-/

namespace AgentChain

namespace Disk

variable {d d' : Disk} {r source : Route} {p q : Place} {c : Bytes} {t : Target}

/-! ### Places for files -/

/-- A route ends at a file or at a place for one, and not at a link. -/
def Offers (d : Disk) (r : Route) (p : Place) : Prop :=
  d.resolve false r = .ok (.vacant p false) ∨ ∃ c, d.resolve false r = .ok (.present p (.file c))

namespace Offers

theorem exists_resolve (h : d.Offers r p) : ∃ t, d.resolve false r = .ok t ∧ t.IsSpot p := by
  rcases h with h | ⟨c, h⟩
  · exact ⟨_, h, rfl, rfl⟩
  · exact ⟨_, h, rfl, by simp⟩

theorem vacant_or_file (h : d.Offers r p) (hd : d.Sound) :
    d.Vacant p ∨ ∃ c, d.get? p = some (.file c) := by
  rcases h with h | ⟨c, h⟩
  · exact .inl (hd.vacant_of_resolve h)
  · exact .inr ⟨c, hd.get?_of_resolve h (by simp)⟩

theorem resolve_eq (h : d.Offers r p) (hk : d.Keeps d') (hhome : d'.home = d.home)
    (hp : d'.get? p = some (.file c)) (f : Bool) : d'.resolve f r = .ok (.present p (.file c)) := by
  obtain ⟨t, hres, ht⟩ := h.exists_resolve
  exact hk.resolve_of_spot hhome (by simp) hres ht ⟨rfl, hp, by simp, by simp⟩

theorem resolve_of_vacant (h : d.Offers r p) (hk : d.Keeps d') (hhome : d'.home = d.home)
    (hp : d'.Vacant p) (f : Bool) : d'.resolve f r = .ok (.vacant p false) := by
  obtain ⟨t, hres, ht⟩ := h.exists_resolve
  obtain ⟨base, name, hbase, hdir, -⟩ := hp.within
  have hwithin : d'.get? p.dropLast = some .directory := by rw [hbase, List.dropLast_concat, hdir]
  exact hk.resolve_of_spot hhome (by simp) hres ht ⟨rfl, rfl, hp.free, hwithin⟩

theorem writePlace_eq (h : d.Offers r p) (hd : d.Sound) : d.writePlace r = .ok p := by
  have hk : d.Keeps d := (Grows.refl d).keeps
  rcases h.vacant_or_file hd with hfree | ⟨c, hfile⟩
  · rw [writePlace, h.resolve_of_vacant hk rfl hfree]
  · rw [writePlace, h.resolve_eq hk rfl hfile]

theorem mono (h : d.Offers r p) (hk : d.Keeps d') (hhome : d'.home = d.home)
    (hp : d'.Vacant p ∨ ∃ c, d'.get? p = some (.file c)) : d'.Offers r p := by
  rcases hp with hfree | ⟨c, hfile⟩
  · exact .inl (h.resolve_of_vacant hk hhome hfree false)
  · exact .inr ⟨c, h.resolve_eq hk hhome hfile false⟩

end Offers

theorem Sound.exists_rename (hd : d.Sound) (hs : d.Offers source q) (hr : d.Offers r p)
    (hq : d.get? q = some (.file c)) (htwins : d.areTwins q p → d.get? p = some (.file c)) :
    ∃ d', d.rename source r = .ok d' ∧ d'.readBytes r = .ok c := by
  have hk : d.Keeps d := (Grows.refl d).keeps
  have hplace := hr.vacant_or_file hd
  have hsource : d.resolve false source = .ok (.present q (.file c)) :=
    hs.resolve_eq hk rfl hq false
  have hrename : d.rename source r =
      .ok (if d.areTwins q p = true then d else d.move q p (.file c)) := by
    rw [Disk.rename, hsource]
    rcases hplace with hfree | ⟨c', hfile⟩
    · have hne : ¬ d.areTwins q p := fun h => by simpa [hfree.free] using htwins h
      rw [hr.resolve_of_vacant hk rfl hfree, if_neg hne]
    · rw [hr.resolve_eq hk rfl hfile]
  refine ⟨_, hrename, readBytes_eq_ok.2 ⟨p, ?_⟩⟩
  by_cases h : d.areTwins q p
  · rw [if_pos h]
    exact hr.resolve_eq hk rfl (htwins h) true
  · rw [if_neg h]
    have hqne : q ≠ [] := ne_nil_of_vacant_or_file (.inr ⟨c, hq⟩)
    have hpne := ne_nil_of_vacant_or_file hplace
    have hchanges : Changes (fun x => x = p ∨ x = q) d (d.move q p (.file c)) :=
      changes_move hpne hqne
    have hother : ∀ x e, (∀ c, e ≠ .file c) → d.get? x = some e → ¬ (x = p ∨ x = q) := by
      rintro x e he hx (rfl | rfl)
      · rcases hplace with hfree | ⟨c', hfile⟩
        · simp [hfree.free] at hx
        · exact he c' (Option.some.inj (hx.symm.trans hfile))
      · exact he c (Option.some.inj (hx.symm.trans hq))
    refine hr.resolve_eq ⟨fun x hx => ?_, fun x t hx => ?_, hchanges.closed⟩ hchanges.home ?_ true
    · rw [hchanges.entry x (hother x _ (by simp) hx), hx]
    · rw [hchanges.entry x (hother x _ (by simp) hx), hx]
    · rw [get?_move hpne hqne, if_pos rfl]

theorem Sound.keeps_of_fill (hd : d.Sound) (hq : d.Vacant q ∨ ∃ c, d.get? q = some (.file c)) :
    (d.fill q c).Keeps d := by
  have hne := ne_nil_of_vacant_or_file hq
  have hcases := hd.get?_fill_cases (c := c) hne (hq.imp_left Vacant.free)
  refine ⟨fun x hx => ?_, fun x t hx => ?_, fun x hx => by rwa [closed_fill]⟩ <;>
  · rcases hcases x with h | ⟨h, -⟩
    · rw [← h, hx]
    · cases hx.symm.trans h

theorem Sound.of_spot (hd : d.Sound) (h : d.resolve false r = .ok t)
    (ht : t.IsSpot p) : d.get? p.dropLast = some .directory ∧ d.get? p ≠ some .directory := by
  cases t with
  | vacant q s =>
    obtain ⟨rfl, -⟩ := ht
    have hv := hd.vacant_of_resolve h
    obtain ⟨base, name, hbase, hdir, -⟩ := hv.within
    exact ⟨by rw [hbase, List.dropLast_concat, hdir], by simp [hv.free]⟩
  | present q e =>
    obtain ⟨rfl, hne⟩ := ht
    have hq := hd.get?_of_resolve h hne
    have hqne : q ≠ [] := by
      rintro rfl
      exact hne (Option.some.inj (hq.symm.trans (get?_nil d)))
    exact ⟨hd.parent q hqne (by simp [hq]), by simpa [hq] using hne⟩

/-- A route that leads to a spot leads to the same spot on a disk that has the directories and links on
the way, whatever stands there. -/
theorem Keeps.exists_stands (hk : d'.Keeps d) (hhome : d.home = d'.home) (hd' : d'.Sound)
    (h : d'.resolve false r = .ok t) (ht : t.IsSpot p) (hdir : d.get? p ≠ some .directory) :
    ∃ t', d.resolve false r = .ok t' ∧ t'.Stands d false p := by
  have hfound : ∀ t' : Target, t'.Stands d false p →
      ∃ t', d.resolve false r = .ok t' ∧ t'.Stands d false p :=
    fun _ ht' => ⟨_, hk.resolve_of_spot hhome id h ht ht', ht'⟩
  cases hp : d.get? p with
  | none => exact hfound (.vacant p false) ⟨rfl, rfl, hp, hk.directory _ (hd'.of_spot h ht).1⟩
  | some e => exact hfound (.present p e) ⟨rfl, hp, fun he => hdir (he ▸ hp), fun _ _ => rfl⟩

section

variable (hd : d.Sound)
include hd

/-- A route that leads to a spot once a file is written led to a file or a place for one before,
unless it led to a link. -/
theorem Sound.offers_of_fill
    (hq : d.Vacant q ∨ ∃ c, d.get? q = some (.file c)) (h : (d.fill q c).resolve false r = .ok t)
    (ht : t.IsSpot p) (hlink : ∀ s, d.look? r ≠ some (.symlink s)) : d.Offers r p := by
  have hdir : d.get? p ≠ some .directory := fun hp =>
    ((hd.fill hq).of_spot h ht).2 ((hd.grows_fill hq).directory p hp)
  obtain ⟨t', hres, hstands⟩ :=
    (hd.keeps_of_fill hq).exists_stands home_fill.symm (hd.fill hq) h ht hdir
  rcases t' with ⟨p', e⟩ | ⟨p', s⟩
  · obtain ⟨rfl, -, hne, -⟩ := hstands
    cases e with
    | directory => exact absurd rfl hne
    | file c' => exact .inr ⟨c', hres⟩
    | symlink s => exact absurd (by rw [look?, hres]) (hlink s)
  · obtain ⟨rfl, rfl, -⟩ := hstands
    exact .inl hres

theorem Sound.get?_fill_of_areTwins
    (hp : d.Vacant p ∨ ∃ c', d.get? p = some (.file c')) (hq : d.areTwins p q) :
    (d.fill p c).get? q = some (.file c) := by
  have hne := ne_nil_of_vacant_or_file hp
  rw [get?_fill hne]
  by_cases hqp : q = p
  · rw [if_pos hqp]
  · obtain hv | ⟨c', hc'⟩ := hp
    · exact absurd ((hd.alone_of_free hv.free).areTwins_iff.1 hq).symm hqp
    · obtain ⟨c'', hc''⟩ := hd.file_of_areTwins hc' hq
      have hqne : q ≠ [] := ne_nil_of_vacant_or_file (.inr ⟨c'', hc''⟩)
      rw [if_neg hqp, if_pos ⟨hqne, hq⟩, hc'']
      rfl

section

variable (hs : d.resolve false source = .ok (.present q (.file c)))
  (htwins : ∀ p, d.areTwins q p → d.get? p = some (.file c)) (h : d.rename source r = .ok d')
include hs htwins h

/-- A file that is moved stands where the new route led. Nothing else changes but that it may be gone
from its old place. -/
theorem Sound.exists_moved : ∃ t p, d.resolve false r = .ok t ∧ t.IsSpot p ∧
      d'.get? p = some (.file c) ∧ Changes (fun x => x = p ∨ x = q) d d' ∧
      (∀ x e, (∀ c, e ≠ .file c) → d'.get? x = some e → d.get? x = some e) ∧
      (q ≠ p → d.areTwins q p ∨ d'.get? q = none) := by
  obtain ⟨q', e, hs', -, htarget⟩ := rename_eq_ok h
  obtain ⟨rfl, rfl⟩ : q = q' ∧ .file c = e := by simpa using hs.symm.trans hs'
  obtain ⟨t, p, hres, ht, heq⟩ : ∃ t p, d.resolve false r = .ok t ∧ t.IsSpot p ∧
      (d.areTwins q p ∧ d' = d ∨ d' = d.move q p (.file c)) := by
    rcases htarget with ⟨p, e', hres, hne, heq⟩ | ⟨p, hres, heq⟩
    · refine ⟨_, p, hres, ⟨rfl, hne⟩, ?_⟩
      split at heq
      · next htwin => exact .inl ⟨htwin, heq⟩
      · exact .inr heq
    · exact ⟨_, p, hres, ⟨rfl, rfl⟩, .inr heq⟩
  refine ⟨t, p, hres, ht, ?_⟩
  rcases heq with ⟨htwin, rfl⟩ | rfl
  · exact ⟨htwins p htwin, .refl _ _, fun _ _ _ hx => hx, fun _ => .inl htwin⟩
  · have hqne : q ≠ [] := ne_nil_of_vacant_or_file (.inr ⟨c, hd.get?_of_resolve hs (by simp)⟩)
    have hpne : p ≠ [] := fun hp => (hd.of_spot hres ht).2 (hp ▸ get?_nil d)
    refine ⟨by rw [get?_move hpne hqne, if_pos rfl], changes_move hpne hqne, fun x e he hx => ?_,
      fun hne => .inr (by rw [get?_move hpne hqne, if_neg hne, if_pos rfl])⟩
    rw [get?_move hpne hqne] at hx
    split at hx
    · exact absurd (Option.some.inj hx).symm (he c)
    split at hx
    · cases hx
    · exact hx

/-- A route that leads to a spot before the move and to one that is taken after it leads to the same
spot. -/
theorem Sound.eq_of_moved (hy : d.resolve false route = .ok t) (ht : t.IsSpot y)
    (hx : d'.resolve false route = .ok (.present x e)) (hne : e ≠ .directory) : y = x := by
  have hd' := hd.rename h
  have hq := hd.get?_of_resolve hs (by simp)
  obtain ⟨t₀, p, hres, hspot, -, hc, hold, -⟩ := hd.exists_moved hs htwins h
  have hydir := (hd.of_spot hy ht).2
  have hxdir : d.get? x ≠ some .directory := by
    intro hdir
    have hother : ¬ (x = p ∨ x = q) := by
      rintro (rfl | rfl)
      · exact (hd.of_spot hres hspot).2 hdir
      · cases hq.symm.trans hdir
    exact hne (Option.some.inj ((hd'.get?_of_resolve hx hne).symm.trans
      ((hc.entry x hother).trans hdir)))
  -- both disks keep what leads to a spot on the first one with what may be entered on the second
  let m : Disk := { d with closed := d'.closed }
  have hm : ∀ y, m.get? y = d.get? y := get?_congr rfl
  have hforth : d.Keeps m := ⟨fun y => hm y ▸ id, fun y s => hm y ▸ id, hc.closed⟩
  have hback : d'.Keeps m :=
    ⟨fun y hy => hm y ▸ hold y _ (by simp) hy, fun y s hy => hm y ▸ hold y _ (by simp) hy, fun _ => id⟩
  obtain ⟨t₁, ht₁, hstands₁⟩ := hforth.exists_stands rfl hd hy ht (hm y ▸ hydir)
  obtain ⟨t₂, ht₂, hstands₂⟩ := hback.exists_stands hc.home.symm hd' hx ⟨rfl, hne⟩ (hm x ▸ hxdir)
  obtain rfl := Except.ok.inj (ht₁.symm.trans ht₂)
  rcases t₁ with ⟨z, e'⟩ | ⟨z, s⟩ <;> exact hstands₁.1.symm.trans hstands₂.1

theorem Sound.eq_of_rename (hread : d'.readBytes r = .ok c') : c' = c := by
  obtain ⟨t, p, hres, ht, hp, -⟩ := hd.exists_moved hs htwins h
  obtain ⟨R, hR⟩ := readBytes_eq_ok.1 hread
  obtain ⟨x, e, hx, hend⟩ : ∃ x e, d'.resolve false r = .ok (.present x e) ∧
      (e = .file c' ∨ ∃ s, e = .symlink s) := by
    rcases resolve_false_cases hR with h | ⟨x, s, h⟩
    · exact ⟨R, _, h, .inl rfl⟩
    · exact ⟨x, _, h, .inr ⟨s, rfl⟩⟩
  have hne : e ≠ .directory := by
    rcases hend with rfl | ⟨s, rfl⟩ <;> simp
  obtain rfl := hd.eq_of_moved hs htwins h hres ht hx hne
  obtain rfl : .file c = e := Option.some.inj (hp.symm.trans ((hd.rename h).get?_of_resolve hx hne))
  rcases hend with heq | ⟨s, heq⟩
  · exact (Entry.file.inj heq).symm
  · cases heq

end

/-- A file is written and moved where both routes lead to a file or a place for one. -/
theorem Sound.exists_replaced (hs : d.Offers source q) (hr : d.Offers r p) (c : Bytes) :
    ∃ d₁ d', d.writeFile source c = .ok d₁ ∧ d₁.rename source r = .ok d' ∧ d'.readBytes r = .ok c := by
  have hplace := hs.vacant_or_file hd
  have hqne := ne_nil_of_vacant_or_file hplace
  have hgrows : d.Grows (d.fill q c) := hd.grows_fill hplace
  have hwritten : (d.fill q c).get? q = some (.file c) := by simp [get?_fill hqne]
  have hpnow : (d.fill q c).Vacant p ∨ ∃ c', (d.fill q c).get? p = some (.file c') := by
    rcases hd.get?_fill_cases (c := c) hqne (hplace.imp_left Vacant.free) p with h | ⟨h, -⟩
    · refine (hr.vacant_or_file hd).imp (fun hv => ?_) fun ⟨c', hc'⟩ => ⟨c', h.trans hc'⟩
      obtain ⟨base, name, hbase, hdir, hname⟩ := hv.within
      exact ⟨h.trans hv.free, base, name, hbase, hgrows.directory _ hdir, hname⟩
    · exact .inr ⟨c, h⟩
  -- a file that stands under the new route too has the new contents already
  obtain ⟨d', hrename, hread⟩ := (hd.fill hplace).exists_rename
    (hs.mono hgrows.keeps hgrows.home (.inr ⟨c, hwritten⟩))
    (hr.mono hgrows.keeps hgrows.home hpnow) hwritten
    fun ht => hd.get?_fill_of_areTwins hplace (areTwins_fill ▸ ht)
  exact ⟨_, d', writeFile_eq_ok.2 ⟨q, hs.writePlace_eq hd, rfl⟩, hrename, hread⟩

theorem Sound.offers_of_replaced
    (hsource : ∀ s, d.look? source ≠ some (.symlink s)) (hlink : ∀ s, d.look? r ≠ some (.symlink s))
    (hwrite : d.writeFile source c = .ok d₁) (hrename : d₁.rename source r = .ok d') :
    (∃ p, d.Offers r p) ∧ ∃ q, d.Offers source q := by
  obtain ⟨x, hx, rfl⟩ := writeFile_eq_ok.1 hwrite
  have hplace := hd.of_writePlace hx
  obtain ⟨q, e, hq, hne, hr⟩ := rename_eq_ok hrename
  refine ⟨?_, q, hd.offers_of_fill hplace hq ⟨rfl, hne⟩ hsource⟩
  obtain ⟨p, e', hp, hne', -⟩ | ⟨p, hp, -⟩ := hr
  · exact ⟨p, hd.offers_of_fill hplace hp ⟨rfl, hne'⟩ hlink⟩
  · exact ⟨p, hd.offers_of_fill hplace hp ⟨rfl, rfl⟩ hlink⟩

theorem Sound.offers_of_writeFile
    (hlink : ∀ s, d.look? r ≠ some (.symlink s)) (h : d.writeFile r c = .ok d')
    (hres : d'.resolve false r = .ok t) (ht : t.IsSpot p) : d.Offers r p ∧ d' = d.fill p c := by
  obtain ⟨q, hq, rfl⟩ := writeFile_eq_ok.1 h
  have hoffers := hd.offers_of_fill (hd.of_writePlace hq) hres ht hlink
  obtain rfl := Except.ok.inj (hq.symm.trans (hoffers.writePlace_eq hd))
  exact ⟨hoffers, rfl⟩

theorem Sound.look?_of_writeFile (hlink : ∀ s, d.look? r ≠ some (.symlink s))
    (h : d.writeFile source c = .ok d') (s : Bytes) : d'.look? r ≠ some (.symlink s) := by
  obtain ⟨q, hq, rfl⟩ := writeFile_eq_ok.1 h
  have hplace := hd.of_writePlace hq
  intro hlook
  rcases hres : (d.fill q c).resolve false r with fault | ⟨p, e⟩ | ⟨p, slash⟩
  · simp [look?, hres] at hlook
  · obtain rfl : e = .symlink s := by simpa [look?, hres] using hlook
    have hlinked := (hd.fill hplace).get?_of_resolve hres (by simp)
    have hold := ((hd.grows_fill hplace).link p s).1 hlinked
    rcases (hd.offers_of_fill hplace hres ⟨rfl, by simp⟩ hlink).vacant_or_file hd with hv | ⟨c', hc'⟩
    · cases hold.symm.trans hv.free
    · cases hold.symm.trans hc'
  · simp [look?, hres] at hlook

/-- A file that is emptied, written and moved. What is read where it was moved to is what was written.
-/
theorem Sound.eq_of_replaced
    (hlink : ∀ s, d.look? source ≠ some (.symlink s)) (hempty : d.writeFile source [] = .ok d₁)
    (hfull : d₁.writeFile source c = .ok d₂) (hrename : d₂.rename source r = .ok d') :
    (∃ q, d.Offers source q ∧ d₁ = d.fill q []) ∧ ∀ c', d'.readBytes r = .ok c' → c' = c := by
  have hd₁ := hd.writeFile hempty
  have hd₂ := hd₁.writeFile hfull
  obtain ⟨q, e, hs, hne, -⟩ := rename_eq_ok hrename
  obtain ⟨hoffers, rfl⟩ :=
    hd₁.offers_of_writeFile (hd.look?_of_writeFile hlink hempty) hfull hs ⟨rfl, hne⟩
  obtain ⟨t, ht, hspot⟩ := hoffers.exists_resolve
  have hplace := hoffers.vacant_or_file hd₁
  have hgrows := hd₁.grows_fill (c := c) hplace
  have hmoved : (d₁.fill q c).resolve false source = .ok (.present q (.file c)) :=
    hoffers.resolve_eq hgrows.keeps hgrows.home
      (by simp [get?_fill (ne_nil_of_vacant_or_file hplace)]) false
  exact ⟨⟨q, hd.offers_of_writeFile hlink hempty ht hspot⟩, fun c' =>
    hd₂.eq_of_rename hmoved (fun p ht => hd₁.get?_fill_of_areTwins hplace (areTwins_fill ▸ ht)) hrename⟩

end

end Disk

namespace Storage

open AgentChain.Action Disk

variable {d d' : Disk} {path : String} {value : Json.Value}

/-! ### Writing and reading a document -/

/-- The name beside a path under which a document is written first. -/
def temporary (path : String) : String :=
  Path.withExtension path "json.tmp"

/-- A document can be kept under a path: its directory is there or can be made, and then there is a
file or a place for one under the path and under the temporary name. -/
def Takes (d : Disk) (path : String) : Prop :=
  ∃ d₁, (OnDisk.createParent path).result d = (.ok (), d₁) ∧
    (∃ p, d₁.Offers path p) ∧ ∃ q, d₁.Offers (temporary path) q

/-- Once its directory is there, no link stands under the path of a document or under the temporary
name. -/
def Unlinked (d : Disk) (path : String) : Prop :=
  ∀ d₁, (OnDisk.createParent path).result d = (.ok (), d₁) → ∀ t,
    d₁.look? path ≠ some (.symlink t) ∧ d₁.look? (temporary path) ≠ some (.symlink t)

theorem Takes.unlinked (h : Takes d path) : Unlinked d path := by
  obtain ⟨d₁, hparent, ⟨p, hp⟩, q, hq⟩ := h
  have hlook : ∀ {r : Route} {p : Place}, d₁.Offers r p → ∀ t, d₁.look? r ≠ some (.symlink t) := by
    rintro r p (h | ⟨c, h⟩) t <;> simp [look?, h]
  intro d₂ hparent₂ t
  obtain rfl : d₁ = d₂ := (Prod.mk.inj (hparent.symm.trans hparent₂)).2
  exact ⟨hlook hp t, hlook hq t⟩

theorem result_writeDocument_eq_ok : (writeDocument path value).result d = (.ok (), d') ↔
      ∃ d₁ d₂, (OnDisk.createParent path).result d = (.ok (), d₁) ∧
        d₁.writeFile (temporary path) (Bytes.ofText (value.pretty ++ "\n")) = .ok d₂ ∧
        d₂.rename (temporary path) path = .ok d' := by
  constructor
  · intro h
    obtain ⟨⟨⟩, d₁, hparent, h⟩ := result_bind_eq_ok.1 h
    obtain ⟨⟨⟩, d₂, hwrite, h⟩ := result_bind_eq_ok.1 h
    exact ⟨d₁, d₂, hparent, OnDisk.result_change_eq_ok.1 (result_within_eq_ok.1 hwrite),
      OnDisk.result_change_eq_ok.1 (result_within_eq_ok.1 h)⟩
  · rintro ⟨d₁, d₂, hparent, hwrite, hrename⟩
    refine (result_bind_of_ok hparent _).trans ?_
    refine (result_bind_of_ok (result_within_eq_ok.2 (OnDisk.result_change_of_ok hwrite)) _).trans ?_
    exact result_within_eq_ok.2 (OnDisk.result_change_of_ok hrename)

theorem exists_result_writeDocument (hd : d.Sound) (h : Takes d path) (value : Json.Value) :
    ∃ d', (writeDocument path value).result d = (.ok (), d') ∧
      d'.readText path = .ok (value.pretty ++ "\n") := by
  obtain ⟨d₁, hparent, ⟨p, hp⟩, q, hq⟩ := h
  have hd₁ := (furnishing_createParent.of_result hparent hd).1
  obtain ⟨d₂, d', hwrite, hrename, hread⟩ := hd₁.exists_replaced hq hp _
  exact ⟨d', result_writeDocument_eq_ok.2 ⟨d₁, d₂, hparent, hwrite, hrename⟩, readText_eq_ok.2 hread⟩

/-- A document that could be written, with no link in the way, was written where documents can be
kept. -/
theorem takes_of_result_writeDocument (hd : d.Sound) (hlinks : Unlinked d path)
    (h : (writeDocument path value).result d = (.ok (), d')) : Takes d path := by
  obtain ⟨d₁, d₂, hparent, hwrite, hrename⟩ := result_writeDocument_eq_ok.1 h
  have hd₁ := (furnishing_createParent.of_result hparent hd).1
  have hnolink := hlinks d₁ hparent
  exact ⟨d₁, hparent, hd₁.offers_of_replaced (fun s => (hnolink s).2) (fun s => (hnolink s).1) hwrite
    hrename⟩

/-! ### Manifests and registries -/

/-- A document is kept under a path and read back from it. It is stored wherever the path takes
documents. Whatever disk storing it leaves, loading from the path gives the document and leaves the
disk alone, unless a link stood in the way. -/
structure ReadsBack {α : Type} (d : Disk) (path : String) (store : Action Disk Unit)
    (load : Action Disk α) (a : α) : Prop where
  stored : Takes d path → ∃ d', store.result d = (.ok (), d')
  loaded : ∀ d', store.result d = (.ok (), d') → Unlinked d path → load.result d' = (.ok a, d')

theorem result_readDocument_of_parse {α : Type} {read : Document.Reader α} {text : String} {a : α}
    (htext : d.readText path = .ok text) (ha : (Json.parse? text).bind read = some a) :
    (readDocument read path).result d = (.ok a, d) := by
  rcases result_readDocument read path d with ⟨text', a', htext', ha', hres⟩ | ⟨hnone, -⟩
  · obtain rfl := Except.ok.inj (htext.symm.trans htext')
    obtain rfl := Option.some.inj (ha.symm.trans ha')
    exact hres
  · cases (hnone text htext).symm.trans ha

theorem readText_of_result_writeDocument (hd : d.Sound) (hlinks : Unlinked d path)
    (h : (writeDocument path value).result d = (.ok (), d')) :
    d'.readText path = .ok (value.pretty ++ "\n") := by
  have htakes := takes_of_result_writeDocument hd hlinks h
  obtain ⟨d'', h', htext⟩ := exists_result_writeDocument hd htakes value
  obtain rfl : d' = d'' := (Prod.mk.inj (h.symm.trans h')).2
  exact htext

end Storage

namespace Registry

open AgentChain.Action

variable {d : Disk} {path : String} {r : Registry}

theorem result_check_of_sensible (h : r.Sensible) : (check path r).result d = (.ok (), d) := by
  rw [check, r.flaws_eq_nil_iff.2 h]
  rfl

theorem result_check_of_not_sensible (h : ¬ r.Sensible) :
    (check path r).result d = (.error (.refusal (.registry path r.flaws)), d) := by
  have hflaws : r.flaws ≠ [] := fun hnil => h (r.flaws_eq_nil_iff.1 hnil)
  rw [check, if_neg (by simpa using hflaws), result_fail]

theorem result_load_of_parse {text : String} (htext : d.readText path = .ok text)
    (hr : (Json.parse? text).bind ofDocument? = some r) :
    (r.Sensible → (load path).result d = (.ok r, d)) ∧
      (¬ r.Sensible → (load path).result d = (.error (.refusal (.registry path r.flaws)), d)) := by
  have hread := Storage.result_readDocument_of_parse htext hr
  refine ⟨fun h => ?_, fun h => ?_⟩
  · exact (result_bind_of_ok hread _).trans (result_bind_of_ok (result_check_of_sensible h) _)
  · exact (result_bind_of_ok hread _).trans (result_bind_of_error (result_check_of_not_sensible h) _)

theorem readsBack (hd : d.Sound) (h : r.Sensible) :
    Storage.ReadsBack d path (r.store path) (load path) r := by
  have hstore : (r.store path).result d = (Storage.writeDocument path r.toValue).result d :=
    result_bind_of_ok (result_check_of_sensible h) _
  refine ⟨fun htakes => ?_, fun d' hstored hlinks => ?_⟩
  · rw [hstore]
    exact (Storage.exists_result_writeDocument hd htakes _).imp fun _ h => h.1
  · rw [hstore] at hstored
    have htext := Storage.readText_of_result_writeDocument hd hlinks hstored
    exact (result_load_of_parse htext r.parse?_toValue).1 h

end Registry

namespace Storage

variable {d : Disk}

end Storage

end AgentChain

import AgentChain.Proofs.FileTree.Aims
import AgentChain.Proofs.Frame

/-!
# Work in a directory of its own

Files that are laid out in a fresh directory stay there. Nothing below the directory is a link or
stands elsewhere too, so names that are written after its path lead to places below it, and whatever
is done through such paths changes nothing elsewhere and keeps the directory as it should be.
-/

namespace AgentChain

open Bytes (ofText)

/-! ### Names after a path -/

namespace Path

variable {a base s : String} {names more : List String}

/-- Names after a path. -/
def under (base : String) (names : List String) : String :=
  names.foldl join base

theorem under_append : under base (names ++ more) = under (under base names) more :=
  List.foldl_append

theorem under_concat : under base (names ++ [s]) = join (under base names) s :=
  under_append

theorem IsName.ofText_ne_nil (h : IsName s) : ofText s ≠ [] := by
  simpa using h.ne_empty

theorem IsName.slash_not_mem (h : IsName s) : Name.slash ∉ ofText s := by
  rw [Bytes.slash_mem_ofText_iff]
  exact h.no_slash

theorem IsName.ofText_join (h : IsName s) :
    ofText (join base s) = Name.below (ofText base) (ofText s) :=
  Path.ofText_join h.isAbsolute_eq

theorem join_of_relative (hb : isAbsolute b = false) :
    join a b = if a.isEmpty || a.toList.getLast? = some '/' then a ++ b else a ++ "/" ++ b := by
  rw [join, if_neg (by simp [hb])]

theorem getLast?_join (hs : IsName s) : (join a s).toList.getLast? ≠ some '/' := by
  have hlast : (join a s).toList.getLast? = s.toList.getLast? := by
    obtain ⟨c, cs, hcs⟩ := List.exists_cons_of_ne_nil (l := s.toList) (by simpa using hs.ne_empty)
    rw [join_of_relative hs.isAbsolute_eq]
    split <;> simp [hcs, List.getLast?_append, List.getLast?_cons]
  rw [hlast]
  exact fun h => hs.no_slash (List.mem_of_mem_getLast? h)

theorem isAbsolute_append (hs : IsName s) : isAbsolute (s ++ t) = false := by
  obtain ⟨c, cs, hcs⟩ := List.exists_cons_of_ne_nil (l := s.toList) (by simpa using hs.ne_empty)
  have hc : c ≠ '/' := fun h => hs.no_slash (by simp [hcs, h])
  rw [isAbsolute, String.toList_append, hcs]
  simpa using hc

theorem join_append_slash (hs : IsName s) (ht : isAbsolute t = false) :
    join a (s ++ "/" ++ t) = join (join a s) t := by
  have hne : (join a s).isEmpty = false := by
    rw [join_of_relative hs.isAbsolute_eq]
    split <;> simp [String.isEmpty_eq_false_iff, hs.ne_empty]
  have houter : join (join a s) t = join a s ++ "/" ++ t := by
    rw [join_of_relative ht, if_neg (by simp [hne, getLast?_join hs])]
  have habs : isAbsolute (s ++ "/" ++ t) = false := by
    rw [String.append_assoc]
    exact isAbsolute_append hs
  rw [houter, join_of_relative habs, join_of_relative hs.isAbsolute_eq]
  split <;> simp [String.append_assoc]

theorem toList_join_names (s : String) (names : List String) :
    (Text.join "/" (s :: names)).toList = s.toList ++ names.flatMap fun t => '/' :: t.toList := by
  induction names generalizing s with
  | nil => simp [Text.toList_join]
  | cons t names ih =>
    rw [Text.toList_join, List.map_cons, List.map_cons, List.intercalate_cons_cons, ← List.map_cons,
      ← Text.toList_join, ih]
    simp

theorem join_join_names (hne : names ≠ []) (hnames : ∀ s ∈ names, IsName s) :
    join a (Text.join "/" names) = under a names := by
  induction names generalizing a with
  | nil => exact absurd rfl hne
  | cons s names ih =>
    cases names with
    | nil =>
      have hone : Text.join "/" [s] = s := String.toList_injective (by simp [toList_join_names])
      rw [hone]
      rfl
    | cons t names =>
      have hs := hnames s (by simp)
      have ht := hnames t (by simp)
      have hsplit : Text.join "/" (s :: t :: names) = s ++ "/" ++ Text.join "/" (t :: names) :=
        String.toList_injective (by simp [toList_join_names])
      have habs : isAbsolute (Text.join "/" (t :: names)) = false := by
        have htext : Text.join "/" (t :: names) = t ++ String.ofList
            (names.flatMap fun t => '/' :: t.toList) :=
          String.toList_injective (by simp [toList_join_names])
        rw [htext]
        exact isAbsolute_append ht
      rw [hsplit, join_append_slash hs habs, ih (by simp) fun s hs => hnames s (by simp [hs])]
      rfl

theorem IsName.proper (h : IsName s) (hzero : 0 ∉ ofText s)
    (hlength : (ofText s).length ≤ Disk.nameLimit) : Name.Proper (ofText s) where
  ne_nil := h.ofText_ne_nil
  ne_here heq := h.ne_here (Bytes.ofText_injective (heq.trans rfl))
  ne_up heq := h.ne_up (Bytes.ofText_injective (heq.trans rfl))
  no_slash := h.slash_not_mem
  no_zero := hzero
  length_le := hlength

end Path

namespace Disk

open AgentChain.Path (under IsName)

variable {d d' : Disk} {f : Bool} {base : String} {S p q Q : Place} {names : List String}
  {s : String} {n : Name} {l : Nat} {c : Bytes} {T : Place → Prop} {t : Target}

theorem length_le_of_walkLinks (hne : n ≠ []) (h : d.walkLinks f l p [n] = .ok t) :
    n.length ≤ nameLimit := by
  by_contra hlong
  by_cases hclosed : p ∈ d.closed
  · rw [walkLinks_closed hne hclosed] at h
    cases h
  · rw [walkLinks_long hclosed (Nat.not_le.1 hlong)] at h
    cases h

/-- The places below a directory. -/
def inside (S : Place) (q : Place) : Bool :=
  S.isPrefixOf q && decide (q ≠ S)

theorem inside_iff : inside S q ↔ ∃ names, names ≠ [] ∧ q = S ++ names := by
  rw [inside, Bool.and_eq_true, List.isPrefixOf_iff_prefix, decide_eq_true_eq]
  constructor
  · rintro ⟨⟨names, rfl⟩, hne⟩
    exact ⟨names, by simpa using hne, rfl⟩
  · rintro ⟨names, hne, rfl⟩
    exact ⟨List.prefix_append S names, by simpa using hne⟩

theorem inside_append {names} (h : names ≠ []) : inside S (S ++ names) :=
  inside_iff.2 ⟨names, h, rfl⟩

theorem ne_nil_of_inside (h : inside S q) : q ≠ [] := by
  obtain ⟨names, hne, rfl⟩ := inside_iff.1 h
  simp [hne]

theorem inside_self : ¬ inside S S := by
  simp [inside]

def Bare (S : Place) (d : Disk) : Prop :=
  ∀ q, inside S q = true → d.get? q = none

theorem bare_of_places (h : ∀ q ∈ d.places, ¬ inside S q) : Bare S d := by
  intro q hq
  by_contra hget
  exact h q ((mem_places_iff (ne_nil_of_inside hq)).2 hget) hq

theorem Bare.get?_without (h : Bare S d) (he : d.get? q = some e) :
    (d.without (inside S)).get? q = some e := by
  rw [Disk.get?_without, if_neg, he]
  rintro ⟨hq, -⟩
  cases (h q hq).symm.trans he

def Near (p q : Place) : Prop :=
  q <+: p ∨ p <+: q

theorem Near.of_append (h : Near (p ++ more) q) : Near p q :=
  h.elim (fun h => List.prefix_or_prefix_of_prefix h (List.prefix_append p more))
    fun h => .inr ((List.prefix_append p more).trans h)

theorem near_map (h : names <+: dest ++ more) :
    Near (S ++ dest.map ofText) (S ++ names.map ofText) := by
  rw [Near, List.prefix_append_right_inj, List.prefix_append_right_inj]
  exact List.prefix_or_prefix_of_prefix (h.map _) ((List.prefix_append dest more).map _)

/-! ### Directories without links -/

/-- What a walk finds at a place where no link stands. -/
def Target.Found (d : Disk) (p : Place) (t : Target) : Prop :=
  (∃ e, d.get? p = some e ∧ t = .present p e) ∨ d.get? p = none ∧ t = .vacant p false

def Linkless (D : Place) (d : Disk) : Prop :=
  ∀ q t, inside D q = true → d.get? q ≠ some (.symlink t)

def hasNoLinks (d : Disk) : Bool :=
  d.entries.all fun
    | (_, .symlink _) => false
    | _ => true

theorem linkless_of_hasNoLinks (h : d.hasNoLinks) : Linkless S d := by
  intro q t hq hget
  exact absurd (List.all_eq_true.1 h _ (mem_entries_of_get? (ne_nil_of_inside hq) hget)) (by simp)

namespace Linkless

variable (h : Linkless S d) (hS : d.LeadsTo (ofText base) S)
include h hS

theorem eq_of_leadsTo (hnames : ∀ s ∈ names, IsName s)
    (hQ : d.LeadsTo (ofText (under base names)) Q) : Q = S ++ names.map ofText := by
  induction names using List.reverseRecOn generalizing Q with
  | nil =>
    rw [List.map_nil, List.append_nil]
    exact hQ.unique hS
  | append_singleton names s ih =>
    have hs := hnames s (by simp)
    rw [Path.under_concat, hs.ofText_join] at hQ
    obtain ⟨mid, M, hM, hlast⟩ := hQ.exists_before hs.ofText_ne_nil hs.slash_not_mem
    obtain rfl := ih (fun s hs => hnames s (by simp [hs])) hM
    have hstep : Name.IsStep (ofText s) :=
      ⟨hs.ofText_ne_nil, fun heq => hs.ne_here (Bytes.ofText_injective (heq.trans rfl)),
        fun heq => hs.ne_up (Bytes.ofText_injective (heq.trans rfl)),
        length_le_of_walkLinks hs.ofText_ne_nil hlast⟩
    have hlink := fun t => h (S ++ (names.map ofText ++ [ofText s])) t (inside_append (by simp))
    rw [← List.append_assoc] at hlink
    rw [walkLinks_name hstep (.inr hlink)] at hlast
    rcases lookup_eq_ok hlast with ⟨e, -, ht⟩ | ⟨-, -, ht⟩
    · cases ht
      simp
    · cases ht

theorem aims (hnames : ∀ s ∈ names, IsName s) (hs : IsName s)
    (ht : d.resolve f (under base (names ++ [s])) = .ok t) :
    d.Aims (under base (names ++ [s])) (S ++ names.map ofText) (ofText s) := by
  have hbytes : (under base (names ++ [s]) : Route).bytes =
      Name.below (ofText (under base names)) (ofText s) := by
    rw [Path.under_concat]
    exact hs.ofText_join
  obtain ⟨left, M, hM, hlast⟩ := exists_leadsTo hbytes hs.ofText_ne_nil hs.slash_not_mem ht
  obtain rfl := h.eq_of_leadsTo hS hnames hM
  refine ⟨hs.proper ?_ (length_le_of_walkLinks hs.ofText_ne_nil hlast), _, hbytes, hM⟩
  intro hzero
  refine (followable_of_resolve ht).no_zero ?_
  rw [hbytes]
  exact Name.mem_below (.inr hzero)

theorem of_resolve (hnames : ∀ s ∈ names, IsName s) (hne : names ≠ [])
    (ht : d.resolve f (under base names) = .ok t) :
    t.Found d (S ++ names.map ofText) := by
  obtain ⟨names, s, rfl⟩ := List.eq_nil_or_concat' names |>.resolve_left hne
  have haims := h.aims hS (fun s hs => hnames s (by simp [hs])) (hnames s (by simp)) ht
  have hplace : S ++ names.map ofText ++ [ofText s] = S ++ (names ++ [s]).map ofText := by simp
  have hlink := fun t => h (S ++ (names ++ [s]).map ofText) t (inside_append (by simp))
  rw [← hplace] at hlink ⊢
  rcases lookup_eq_ok (haims.lookup_of_resolve (.inr hlink) ht) with ht | ⟨hnone, -, ht⟩
  · exact .inl ht
  · exact .inr ⟨hnone, ht⟩

end Linkless

theorem isDirectory_of_resolve (hne : names ≠ [])
    (hmore : more ≠ []) (hnames : ∀ s ∈ names ++ more, IsName s)
    (ht : d.resolve f (under base (names ++ more)) = .ok t) :
    d.isDirectory (under base names) := by
  induction more using List.reverseRecOn generalizing f t with
  | nil => exact absurd rfl hmore
  | append_singleton more s ih =>
    have hs := hnames s (by simp)
    have hnames' : ∀ s ∈ names ++ more, IsName s := fun s hs =>
      hnames s (by rw [← List.append_assoc]; exact List.mem_append_left _ hs)
    rw [← List.append_assoc, Path.under_concat] at ht
    have hbytes : (Path.join (under base (names ++ more)) s : Route).bytes =
        Name.below (ofText (under base (names ++ more))) (ofText s) := hs.ofText_join
    obtain ⟨-, M, hM, -⟩ := exists_leadsTo hbytes hs.ofText_ne_nil hs.slash_not_mem ht
    have hfollow := followable_of_resolve ht
    rw [hbytes] at hfollow
    have hnonempty : ofText (under base (names ++ more)) ≠ [] := by
      obtain ⟨init, last, hlast⟩ := List.eq_nil_or_concat' (names ++ more) |>.resolve_left (by simp [hne])
      have hname := hnames' last (by simp [hlast])
      rw [hlast, Path.under_concat, hname.ofText_join]
      exact Name.below_ne_nil hname.ofText_ne_nil
    by_cases hlast : more = []
    · subst hlast
      rw [List.append_nil] at hM hnonempty hfollow
      exact LeadsTo.isDirectory hM hnonempty hfollow.of_below
    · exact ih hlast hnames' (LeadsTo.resolve_eq hM hnonempty hfollow.of_below)

/-! ### Workplaces -/

/-- A path leads to a directory, and not through anything below it. Everything below it is plain. -/
structure Workplace (base : String) (S : Place) (d : Disk) : Prop where
  sound : d.Sound
  leads : (d.apart (inside S)).LeadsTo (ofText base) S
  directory : d.get? S = some .directory
  plain : ∀ q, inside S q = true → d.Plain q

/-- A workplace stays one, and nothing changes but at places of a set. -/
def Limited (base : String) (S : Place) (T : Place → Prop) (d d' : Disk) : Prop :=
  Workplace base S d → Workplace base S d' ∧ Changes T d d'

theorem Limited.frame (base : String) (S : Place) (T : Place → Prop) :
    Action.Frame (Limited base S T) :=
  .keeping ⟨.refl T, .trans⟩ _

def Confined (base : String) (S : Place) (d d' : Disk) : Prop :=
  Workplace base S d → Workplace base S d' ∧ Changes (inside S · = true) d d'

namespace Workplace

variable (h : Workplace base S d)
include h

theorem of_changes (hd' : d'.Sound) (hc : Changes (inside S ·) d d')
    (hplain : ∀ q, inside S q → d'.Plain q) : Workplace base S d' where
  sound := hd'
  leads := hc.leadsTo (fun _ hq => hq) h.leads
  directory := (hc.entry S inside_self).trans h.directory
  plain := hplain

theorem leadsTo : d.LeadsTo (ofText base) S :=
  h.leads.of_apart

theorem linkless : Linkless S d :=
  fun q t hq => (h.plain q hq).link t

/-! ### Changes below the directory -/

theorem fill (hp : inside S p) (hw : d.Vacant p ∨ ∃ c', d.get? p = some (.file c')) :
    Workplace base S (d.fill p c) ∧ Changes (· = p) d (d.fill p c) := by
  have hne := ne_nil_of_inside hp
  have hc := changes_fill (c := c) hne (h.plain p hp).alone
  refine ⟨h.of_changes (h.sound.fill hw) (hc.mono fun q hq => hq ▸ hp) fun q hq => ?_, hc⟩
  by_cases hqp : q = p
  · exact hqp ▸ (h.plain p hp).fill hne
  · exact (h.plain q hq).changes hc hqp

theorem put_directory (hp : inside S p) (hv : d.Vacant p) :
    Workplace base S (d.put p .directory) ∧ Changes (· = p) d (d.put p .directory) := by
  have hc := changes_put (d := d) (e := .directory) hv.ne_nil
  refine ⟨h.of_changes (h.sound.put hv (by simp)) (hc.mono fun q hq => hq ▸ hp) fun q hq => ?_, hc⟩
  by_cases hqp : q = p
  · subst hqp
    exact ⟨by simp [get?_put hv.ne_nil], (h.plain q hp).alone⟩
  · exact (h.plain q hq).changes hc hqp

theorem move (hp : inside S p) (hq : inside S q)
    (hget : d.get? q = some e) (hd' : (d.move q p e).Sound) :
    Workplace base S (d.move q p e) ∧ Changes (fun r => r = p ∨ r = q) d (d.move q p e) := by
  have hc := changes_move (d := d) (e := e) (ne_nil_of_inside hp) (ne_nil_of_inside hq)
  have hc' : Changes (inside S ·) d _ := hc.mono fun r hr => by
    rcases hr with rfl | rfl
    · exact hp
    · exact hq
  refine ⟨h.of_changes hd' hc' fun r hr => ?_, hc⟩
  by_cases hrp : r = p
  · subst hrp
    refine ⟨fun t => ?_, (h.plain q hq).alone.move_self⟩
    rw [get?_move (ne_nil_of_inside hp) (ne_nil_of_inside hq), if_pos rfl, ← hget]
    exact (h.plain q hq).link t
  by_cases hrq : r = q
  · subst hrq
    refine ⟨fun t => ?_, (h.plain r hr).alone.move hrp⟩
    rw [get?_move (ne_nil_of_inside hp) (ne_nil_of_inside hq), if_neg hrp, if_pos rfl]
    simp
  · exact (h.plain r hr).changes hc (by simp [hrp, hrq])

/-! ### Names after the path -/

section Names

variable (hnames : ∀ s ∈ names, IsName s) (hne : names ≠ [])
include hnames hne

theorem of_resolve (ht : d.resolve f (under base names) = .ok t) :
    t.Found d (S ++ names.map ofText) :=
  h.linkless.of_resolve h.leadsTo hnames hne ht

theorem look?_ne_symlink (t : Bytes) : d.look? (under base names) ≠ some (.symlink t) := by
  rw [look?]
  split
  · next p e hres =>
    rcases h.of_resolve hnames hne hres with ⟨e', hget, ht⟩ | ⟨-, ht⟩ <;> cases ht
    rw [← hget]
    exact (h.plain _ (inside_append (by simpa using hne))).link t
  · simp

theorem writePlace_eq (hp : d.writePlace (under base names) = .ok p) :
    p = S ++ names.map ofText := by
  rcases writePlace_eq_ok hp with ⟨c, hres⟩ | hres <;>
    rcases h.of_resolve hnames hne hres with ⟨e, -, ht⟩ | ⟨-, ht⟩ <;>
    cases ht <;> rfl

theorem createDirectory (hd' : d.createDirectory (under base names) = .ok d') :
    Workplace base S d' ∧ Changes (· = S ++ names.map ofText) d d' := by
  obtain ⟨p, b, hres, rfl⟩ := createDirectory_eq_ok hd'
  have hv := h.sound.vacant_of_resolve hres
  rcases h.of_resolve hnames hne hres with ⟨e, -, ht⟩ | ⟨-, ht⟩
  · cases ht
  · cases ht
    exact h.put_directory (inside_append (by simpa using hne)) hv

end Names

theorem rename_eq_ok {source} (hsource : ∀ s ∈ source, IsName s) (hne : source ≠ [])
    (hnames : ∀ s ∈ names, IsName s) (hne' : names ≠ [])
    (hd : d.rename (under base source) (under base names) = .ok d') :
    ∃ e, d.get? (S ++ source.map ofText) = some e ∧
      d' = if source.map ofText = names.map ofText then d
        else d.move (S ++ source.map ofText) (S ++ names.map ofText) e := by
  obtain ⟨q, e, hq, -, hcases⟩ := Disk.rename_eq_ok hd
  obtain ⟨rfl, hget⟩ : q = S ++ source.map ofText ∧ d.get? q = some e := by
    rcases h.of_resolve hsource hne hq with ⟨e', hget, ht⟩ | ⟨-, ht⟩ <;> cases ht
    exact ⟨rfl, hget⟩
  refine ⟨e, hget, ?_⟩
  rcases hcases with ⟨p, e', hp, -, rfl⟩ | ⟨p, hp, rfl⟩
  · rcases h.of_resolve hnames hne' hp with ⟨e'', -, ht⟩ | ⟨-, ht⟩ <;> cases ht
    have halone := (h.plain (S ++ source.map ofText) (inside_append (by simpa using hne))).alone
    simp only [halone.areTwins_iff, List.append_cancel_left_eq]
  · rcases h.of_resolve hnames hne' hp with ⟨e'', -, ht⟩ | ⟨hnone, ht⟩ <;> cases ht
    rw [if_neg]
    intro heq
    rw [← heq, hget] at hnone
    cases hnone

/-! ### Making directories -/

omit h in
theorem exists_parent (hnames : ∀ s ∈ names, IsName s) (hs : IsName s) (h : Workplace base S d) :
    ∃ a, Path.parent? (under base (names ++ [s])) = some a ∧
      (d.LeadsTo (ofText a) S ∨ names ≠ [] ∧ a = under base names) := by
  rw [Path.under_concat]
  rcases List.eq_nil_or_concat' names with rfl | ⟨names, s', rfl⟩
  · obtain ⟨a, hparent, ha⟩ := h.leadsTo.exists_parent hs
    exact ⟨a, hparent, .inl ha⟩
  · refine ⟨_, ?_, .inr ⟨by simp, rfl⟩⟩
    rw [Path.under_concat]
    exact Path.parent?_join_join (hnames s' (by simp)) hs

omit h in
theorem createChain_go (hnames : ∀ s ∈ names, IsName s) (hne : names ≠ [])
    (hT : ∀ k, k <+: names → k ≠ [] → T (S ++ k.map ofText)) (k : Nat) (h : Workplace base S d) :
    Workplace base S (createChain ((Path.ancestors.go k (under base names)).map
        fun start => { start := start }) d).2 ∧
      Changes T d (createChain ((Path.ancestors.go k (under base names)).map
        fun start => { start := start }) d).2 := by
  induction names using List.reverseRecOn generalizing k d with
  | nil => exact absurd rfl hne
  | append_singleton names s ih =>
    have hnames' : ∀ s ∈ names, IsName s := fun s hs => hnames s (by simp [hs])
    have hs := hnames s (by simp)
    obtain ⟨rest, hrest, habove⟩ : ∃ rest,
        (Path.ancestors.go k (under base (names ++ [s]))).map (fun start => { start := start }) =
          { start := under base (names ++ [s]) } :: rest ∧
        Workplace base S (createChain rest d).2 ∧ Changes T d (createChain rest d).2 := by
      cases k with
      | zero => exact ⟨[], rfl, h, .refl _ d⟩
      | succ k =>
        obtain ⟨a, hparent, ha⟩ := exists_parent hnames' hs h
        refine ⟨(Path.ancestors.go k a).map fun start => { start := start }, ?_, ?_⟩
        · rw [Path.ancestors.go, hparent]
          rfl
        · rcases ha with ha | ⟨hne', rfl⟩
          · rw [createChain_go_of_leadsTo ha]
            exact ⟨h, .refl _ d⟩
          · exact ih hnames' hne' (fun k hk => hT k (hk.trans (List.prefix_append _ _))) k h
    rcases hmake : createChain ({ start := under base (names ++ [s]) } :: rest) d with ⟨x, d'⟩
    rw [hrest, hmake]
    obtain ⟨d₁, hd₁, hcases⟩ := createChain_cases hmake
    obtain ⟨h₁, hc⟩ : Workplace base S d₁ ∧ Changes T d d₁ := by
      rcases hd₁ with rfl | rfl
      · exact ⟨h, .refl _ _⟩
      · exact habove
    rcases hcases with ⟨hmake, -⟩ | ⟨rfl, -⟩
    · obtain ⟨h', hc'⟩ := h₁.createDirectory hnames hne hmake
      exact ⟨h', hc.trans (hc'.mono fun q hq => hq ▸ hT _ (List.prefix_refl _) hne)⟩
    · exact ⟨h₁, hc⟩

end Workplace

end Disk

/-! ### Operations -/

namespace OnDisk

open AgentChain.Action Disk
open AgentChain.Path (under IsName)

variable {base : String} {S : Place} {names : List String} {s : String} {c : Bytes}
  {T : Place → Prop}

section Names

variable (hnames : ∀ s ∈ names, IsName s) (hne : names ≠ [])
include hnames hne

theorem limited_fill (hT : T (S ++ names.map ofText)) {d p}
    (hp : d.writePlace (under base names) = .ok p) : Limited base S T d (d.fill p c) := by
  intro h
  obtain rfl := h.writePlace_eq hnames hne hp
  obtain ⟨h', hc⟩ := h.fill (inside_append (by simpa using hne)) (h.sound.of_writePlace hp)
  exact ⟨h', hc.mono fun q hq => hq ▸ hT⟩

theorem limited_writeFile (hT : T (S ++ names.map ofText)) :
    Moves (Limited base S T) (change (·.writeFile (under base names) c)) := by
  refine moves_change (Limited.frame base S T) fun d d' hd => ?_
  obtain ⟨p, hp, rfl⟩ := writeFile_eq_ok.1 hd
  exact limited_fill hnames hne hT hp

theorem limited_copy (hT : T (S ++ names.map ofText)) (source : Route) :
    Moves (Limited base S T) (change (·.copy source (under base names))) := by
  refine moves_change (Limited.frame base S T) fun d d' hd => ?_
  obtain ⟨_, _, p, -, hp, rfl⟩ := copy_eq_ok hd
  exact limited_fill hnames hne hT hp

theorem limited_makeDirectories (hT : ∀ k, k <+: names → k ≠ [] → T (S ++ k.map ofText)) :
    Moves (Limited base S T) (makeDirectories (under base names)) := by
  intro d h
  have hgo := h.createChain_go hnames hne hT (Path.segments (under base names)).length
  exact hgo

theorem limited_createDirectories (hT : ∀ k, k <+: names → k ≠ [] → T (S ++ k.map ofText)) :
    Moves (Limited base S T) (createDirectories (under base names)) :=
  Frame.within (limited_makeDirectories hnames hne hT) _

end Names

theorem limited_rename {source} (hsource : ∀ s ∈ source, IsName s)
    (hne : source ≠ []) (hnames : ∀ s ∈ names, IsName s) (hne' : names ≠ [])
    (hT : T (S ++ source.map ofText)) (hT' : T (S ++ names.map ofText)) :
    Moves (Limited base S T) (change (·.rename (under base source) (under base names))) := by
  refine moves_change (Limited.frame base S T) fun d d' hd h => ?_
  have hsound := h.sound.rename hd
  obtain ⟨e, hget, rfl⟩ := h.rename_eq_ok hsource hne hnames hne' hd
  split
  · exact ⟨h, .refl _ d⟩
  · next hother =>
    rw [if_neg hother] at hsound
    obtain ⟨h', hc⟩ := h.move (inside_append (by simpa using hne'))
      (inside_append (by simpa using hne)) hget hsound
    exact ⟨h', hc.mono fun r hr => hr.elim (· ▸ hT') (· ▸ hT)⟩

theorem result_createDirectories_of_leadsTo
    (hP : d.LeadsTo (ofText a) P) : ((createDirectories { start := a }).result d).2 = d := by
  rw [createDirectories, createDirectoriesFor, result_within]
  exact createChain_go_of_leadsTo hP _

theorem result_createParent_of_leadsTo (hs : IsName s)
    (hP : d.LeadsTo (ofText a) P) : ((createParent (Path.join a s)).result d).2 = d := by
  obtain ⟨a', hparent, ha'⟩ := hP.exists_parent hs
  have hroute : (Path.join a s : Route).parent? = some { start := a' } := by
    simp [Route.parent?, hparent]
  rw [createParent, hroute]
  exact result_createDirectories_of_leadsTo ha'

theorem limited_createParent (hnames : ∀ s ∈ names, IsName s) (hs : IsName s)
    (hT : ∀ k, k <+: names → k ≠ [] → T (S ++ k.map ofText)) :
    Moves (Limited base S T) (createParent (under base (names ++ [s]))) := by
  intro d h
  obtain ⟨a, hparent, ha⟩ := Workplace.exists_parent hnames hs h
  have hroute : (under base (names ++ [s]) : Route).parent? = some { start := a } := by
    simp [Route.parent?, hparent]
  rw [createParent, hroute]
  rcases ha with ha | ⟨hne, rfl⟩
  · simp only
    rw [result_createDirectories_of_leadsTo ha]
    exact ⟨h, .refl _ d⟩
  · exact limited_createDirectories hnames hne hT d h

end OnDisk

end AgentChain

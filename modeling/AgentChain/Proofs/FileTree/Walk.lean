import AgentChain.Proofs.FileTree.Entries
import AgentChain.Proofs.Text.Segments

/-!
# Where paths lead

A path is walked segment by segment. The walk is described by a relation beside the function that
computes it: walking segments from a directory *arrives* at a directory, through directories and
links alone. A walk that arrives can be continued, and every walk to a name goes through a directory
at which the segments before it arrive. Since only directories and links matter, a walk survives
every change that keeps those that it meets.
-/

namespace AgentChain

open Name (here up slash)

/-- A segment of a path that names something to be looked up. -/
structure Name.IsStep (n : Name) : Prop where
  ne_nil : n ≠ []
  ne_here : n ≠ here
  ne_up : n ≠ up
  length_le : n.length ≤ Disk.nameLimit

theorem Name.Proper.isStep {n : Name} (h : n.Proper) : n.IsStep :=
  ⟨h.ne_nil, h.ne_here, h.ne_up, h.length_le⟩

namespace Disk

variable {d d' : Disk} {f : Bool} {l left : Nat} {base P : Place} {n : Name} {segs rest : List Name}
  {t : Target} {more : List Name} {p : Place}

def startIn (base : Place) (path : Bytes) : Place :=
  if Name.isAbsolute path then [] else base

/-! ### One segment of a walk -/

theorem walkLinks_eq (d : Disk) (f : Bool) (l : Nat) (base : Place) (segs : List Name) :
    d.walkLinks f l base segs =
      match d.walk f base segs with
      | .done target => .ok target
      | .fault e => .error e
      | .link base target rest =>
        match l with
        | 0 => .error .tooManyLinks
        | l + 1 => d.walkLinks f l (startIn base target) (Bytes.split slash target ++ rest) := by
  rw [walkLinks.eq_def]
  rfl

theorem walkLinks_congr (h : d.walk f base segs = d.walk f base' segs') :
    d.walkLinks f l base segs = d.walkLinks f l base' segs' := by
  rw [walkLinks_eq, walkLinks_eq, h]

@[simp] theorem walkLinks_nil : d.walkLinks f l base [] = .ok (.present base .directory) := by
  rw [walkLinks_eq]
  rfl

@[simp] theorem walkLinks_idle : d.walkLinks f l base ([] :: rest) = d.walkLinks f l base rest :=
  walkLinks_congr rfl

theorem walkLinks_closed (hn : n ≠ []) (h : base ∈ d.closed) :
    d.walkLinks f l base (n :: rest) = .error .denied := by
  rw [walkLinks_eq, walk]
  simp [hn, h]

theorem walkLinks_here (h : base ∉ d.closed) :
    d.walkLinks f l base (here :: rest) = d.walkLinks f l base rest := by
  refine walkLinks_congr ?_
  rw [walk]
  simp [h, here]

theorem walkLinks_up (h : base ∉ d.closed) :
    d.walkLinks f l base (up :: rest) = d.walkLinks f l base.dropLast rest := by
  refine walkLinks_congr ?_
  rw [walk]
  simp [h, here, up]

theorem walkLinks_long (h : base ∉ d.closed) (hn : nameLimit < n.length) :
    d.walkLinks f l base (n :: rest) = .error .nameTooLong := by
  have hne : n ≠ [] := fun h => by simp [h] at hn
  have hhere : n ≠ here := fun h => by simp [h, here, nameLimit] at hn
  have hup : n ≠ up := fun h => by simp [h, up, nameLimit] at hn
  rw [walkLinks_eq, walk]
  simp [h, hne, hhere, hup, hn]

theorem walkLinks_step (h : base ∉ d.closed) (hn : n.IsStep) :
    d.walkLinks f l base (n :: rest) =
      match d.get? (base ++ [n]) with
      | none =>
        if d.get? base = some .directory ∧ rest.all List.isEmpty = true then
          .ok (.vacant (base ++ [n]) (!rest.isEmpty))
        else .error .notFound
      | some .directory => d.walkLinks f l (base ++ [n]) rest
      | some (.file c) =>
        if rest = [] then .ok (.present (base ++ [n]) (.file c)) else .error .notDirectory
      | some (.symlink t) =>
        if rest = [] ∧ f = false then .ok (.present (base ++ [n]) (.symlink t))
        else match l with
          | 0 => .error .tooManyLinks
          | l + 1 => d.walkLinks f l (startIn base t) (Bytes.split slash t ++ rest) := by
  have hlong : ¬ nameLimit < n.length := Nat.not_lt.2 hn.length_le
  cases hget : d.get? (base ++ [n]) with
  | none =>
    rw [walkLinks_eq, walk]
    by_cases hv : d.get? base = some .directory ∧ rest.all List.isEmpty
    · simp [h, hn.ne_nil, hn.ne_here, hn.ne_up, hlong, hget, hv.1, hv.2]
    · have hv' : (decide (d.get? base = some .directory) && rest.all List.isEmpty) = false := by
        rw [← Bool.not_eq_true, Bool.and_eq_true, decide_eq_true_eq]
        exact hv
      rw [if_neg hv]
      simp only [h, hn.ne_nil, hn.ne_here, hn.ne_up, hlong, hget, hv', List.isEmpty_iff,
        List.contains_iff_mem, Bool.false_eq_true, if_false]
  | some e =>
    cases e with
    | directory =>
      refine walkLinks_congr ?_
      rw [walk]
      simp [h, hn.ne_nil, hn.ne_here, hn.ne_up, hlong, hget]
    | file c =>
      rw [walkLinks_eq, walk]
      cases rest <;> simp [h, hn.ne_nil, hn.ne_here, hn.ne_up, hlong, hget]
    | symlink t =>
      rw [walkLinks_eq, walk]
      cases rest <;> cases f <;> simp [h, hn.ne_nil, hn.ne_here, hn.ne_up, hlong, hget]

/-- Walking segments from a directory, with so many links allowed, ends at a target. -/
inductive Walks (d : Disk) (f : Bool) : (links : Nat) → Place → List Name → Target → Prop
  | nil (l : Nat) (base : Place) : Walks d f l base [] (.present base .directory)
  | idle {l : Nat} {base : Place} {rest : List Name} {t : Target} (next : Walks d f l base rest t) :
      Walks d f l base ([] :: rest) t
  | here {l : Nat} {base : Place} {rest : List Name} {t : Target} (entered : base ∉ d.closed)
      (next : Walks d f l base rest t) : Walks d f l base (here :: rest) t
  | up {l : Nat} {base : Place} {rest : List Name} {t : Target} (entered : base ∉ d.closed)
      (next : Walks d f l base.dropLast rest t) : Walks d f l base (up :: rest) t
  | vacant {l : Nat} {base : Place} {n : Name} {rest : List Name} (entered : base ∉ d.closed)
      (step : n.IsStep) (free : d.get? (base ++ [n]) = none) (within : d.get? base = some .directory)
      (last : rest.all List.isEmpty = true) :
      Walks d f l base (n :: rest) (.vacant (base ++ [n]) (!rest.isEmpty))
  | down {l : Nat} {base : Place} {n : Name} {rest : List Name} {t : Target}
      (entered : base ∉ d.closed) (step : n.IsStep) (found : d.get? (base ++ [n]) = some .directory)
      (next : Walks d f l (base ++ [n]) rest t) : Walks d f l base (n :: rest) t
  | file {l : Nat} {base : Place} {n : Name} {c : Bytes} (entered : base ∉ d.closed)
      (step : n.IsStep) (found : d.get? (base ++ [n]) = some (.file c)) :
      Walks d f l base [n] (.present (base ++ [n]) (.file c))
  | shown {l : Nat} {base : Place} {n : Name} {t : Bytes} (entered : base ∉ d.closed)
      (step : n.IsStep) (found : d.get? (base ++ [n]) = some (.symlink t)) (hf : f = false) :
      Walks d f l base [n] (.present (base ++ [n]) (.symlink t))
  | link {l : Nat} {base : Place} {n : Name} {target : Bytes} {rest : List Name} {t : Target}
      (entered : base ∉ d.closed) (step : n.IsStep)
      (found : d.get? (base ++ [n]) = some (.symlink target)) (followed : ¬ (rest = [] ∧ f = false))
      (next : Walks d f l (startIn base target) (Bytes.split slash target ++ rest) t) :
      Walks d f (l + 1) base (n :: rest) t

theorem walks_of_walkLinks (h : d.walkLinks f l base segs = .ok t) : Walks d f l base segs t := by
  -- the segments grow only when a link is followed, and then a link less is left
  induction l using Nat.strongRecOn generalizing base segs with
  | ind l ihl =>
    induction segs generalizing base with
    | nil =>
      cases walkLinks_nil.symm.trans h
      exact .nil l base
    | cons n rest ih =>
      by_cases hn : n = []
      · subst hn
        exact .idle (ih (walkLinks_idle.symm.trans h))
      by_cases hclosed : base ∈ d.closed
      · cases (walkLinks_closed hn hclosed).symm.trans h
      by_cases hhere : n = here
      · subst hhere
        exact .here hclosed (ih ((walkLinks_here hclosed).symm.trans h))
      by_cases hup : n = up
      · subst hup
        exact .up hclosed (ih ((walkLinks_up hclosed).symm.trans h))
      by_cases hlong : nameLimit < n.length
      · cases (walkLinks_long hclosed hlong).symm.trans h
      have hstep : n.IsStep := ⟨hn, hhere, hup, Nat.not_lt.1 hlong⟩
      rw [walkLinks_step hclosed hstep] at h
      cases hget : d.get? (base ++ [n]) with
      | none =>
        simp only [hget] at h
        split at h
        · next hv =>
          cases h
          exact .vacant hclosed hstep hget hv.1 hv.2
        · cases h
      | some e =>
        rw [hget] at h
        cases e with
        | directory => exact .down hclosed hstep hget (ih h)
        | file c =>
          simp only at h
          split at h
          · next hrest =>
            cases h
            subst hrest
            exact .file hclosed hstep hget
          · cases h
        | symlink target =>
          simp only at h
          split at h
          · next hlast =>
            cases h
            obtain ⟨rfl, hf⟩ := hlast
            exact .shown hclosed hstep hget hf
          · next hfollowed =>
            cases l with
            | zero => cases h
            | succ l => exact .link hclosed hstep hget hfollowed (ihl l (Nat.lt_succ_self l) h)

theorem walkLinks_eq_ok_iff : d.walkLinks f l base segs = .ok t ↔ Walks d f l base segs t := by
  refine ⟨walks_of_walkLinks, fun h => ?_⟩
  induction h with
  | nil => exact walkLinks_nil
  | idle _ ih => rw [walkLinks_idle, ih]
  | here entered _ ih => rw [walkLinks_here entered, ih]
  | up entered _ ih => rw [walkLinks_up entered, ih]
  | vacant entered step free within last =>
    rw [walkLinks_step entered step, free]
    exact if_pos ⟨within, last⟩
  | down entered step found _ ih =>
    rw [walkLinks_step entered step, found]
    exact ih
  | file entered step found =>
    rw [walkLinks_step entered step, found]
    exact if_pos rfl
  | shown entered step found hf =>
    rw [walkLinks_step entered step, found]
    exact if_pos ⟨rfl, hf⟩
  | link entered step found followed _ ih =>
    rw [walkLinks_step entered step, found]
    exact (if_neg followed).trans ih

/-! ### Walks that arrive -/

/-- Walking segments from a directory, with so many links allowed, ends in a directory, with so many
links left. -/
inductive Arrives (d : Disk) : (links : Nat) → Place → List Name → (left : Nat) → Place → Prop
  | nil (l : Nat) (base : Place) : Arrives d l base [] l base
  | idle {l left : Nat} {base P : Place} {rest : List Name} (next : Arrives d l base rest left P) :
      Arrives d l base ([] :: rest) left P
  | here {l left : Nat} {base P : Place} {rest : List Name} (entered : base ∉ d.closed)
      (next : Arrives d l base rest left P) : Arrives d l base (here :: rest) left P
  | up {l left : Nat} {base P : Place} {rest : List Name} (entered : base ∉ d.closed)
      (next : Arrives d l base.dropLast rest left P) : Arrives d l base (up :: rest) left P
  | down {l left : Nat} {base P : Place} {n : Name} {rest : List Name} (entered : base ∉ d.closed)
      (step : n.IsStep) (found : d.get? (base ++ [n]) = some .directory)
      (next : Arrives d l (base ++ [n]) rest left P) : Arrives d l base (n :: rest) left P
  | link {l left : Nat} {base P : Place} {n : Name} {t : Bytes} {rest : List Name}
      (entered : base ∉ d.closed) (step : n.IsStep) (found : d.get? (base ++ [n]) = some (.symlink t))
      (next : Arrives d l (startIn base t) (Bytes.split slash t ++ rest) left P) :
      Arrives d (l + 1) base (n :: rest) left P

theorem Arrives.walkLinks_append (h : d.Arrives l base segs left P) (more : List Name)
    (hmore : more ≠ [] ∨ f = true) :
    d.walkLinks f l base (segs ++ more) = d.walkLinks f left P more := by
  induction h with
  | nil => rfl
  | idle _ ih => rw [List.cons_append, walkLinks_idle, ih]
  | here entered _ ih => rw [List.cons_append, walkLinks_here entered, ih]
  | up entered _ ih => rw [List.cons_append, walkLinks_up entered, ih]
  | down entered step found _ ih =>
    rw [List.cons_append, walkLinks_step entered step, found]
    exact ih
  | @link _ _ _ _ _ _ rest entered step found _ ih =>
    rw [List.cons_append, walkLinks_step entered step, found]
    have hfollowed : ¬ (rest ++ more = [] ∧ f = false) := by
      rintro ⟨hnil, hf⟩
      rcases hmore with hmore | hmore
      · exact hmore (List.append_eq_nil_iff.1 hnil).2
      · simp [hf] at hmore
    simp only [if_neg hfollowed]
    rw [← List.append_assoc]
    exact ih

theorem exists_arrives (hn : n ≠ []) (h : d.walkLinks f l base (segs ++ n :: more) = .ok t) :
    ∃ left P, d.Arrives l base segs left P ∧ d.walkLinks f left P (n :: more) = .ok t := by
  simp only [walkLinks_eq_ok_iff] at h ⊢
  induction l using Nat.strongRecOn generalizing base segs with
  | ind l ihl =>
    induction segs generalizing base with
    | nil => exact ⟨l, base, .nil l base, h⟩
    | cons s segs ih =>
      rw [List.cons_append] at h
      generalize hall : segs ++ n :: more = all at h
      have hne : all ≠ [] := by simp [← hall]
      cases h with
      | idle next =>
        obtain ⟨left, P, harr, hrest⟩ := ih (hall ▸ next)
        exact ⟨left, P, .idle harr, hrest⟩
      | here entered next =>
        obtain ⟨left, P, harr, hrest⟩ := ih (hall ▸ next)
        exact ⟨left, P, .here entered harr, hrest⟩
      | up entered next =>
        obtain ⟨left, P, harr, hrest⟩ := ih (hall ▸ next)
        exact ⟨left, P, .up entered harr, hrest⟩
      | vacant _ _ _ _ last => simp [← hall, hn] at last
      | down entered step found next =>
        obtain ⟨left, P, harr, hrest⟩ := ih (hall ▸ next)
        exact ⟨left, P, .down entered step found harr, hrest⟩
      | file => exact absurd rfl hne
      | shown => exact absurd rfl hne
      | link entered step found _ next =>
        rw [← hall, ← List.append_assoc] at next
        obtain ⟨left, P, harr, hrest⟩ := ihl _ (Nat.lt_succ_self _) next
        exact ⟨left, P, .link entered step found harr, hrest⟩

theorem walkLinks_eq_present_directory_iff :
    d.walkLinks true l base segs = .ok (.present P .directory) ↔
      ∃ left, d.Arrives l base segs left P := by
  constructor
  · intro h
    rw [walkLinks_eq_ok_iff] at h
    generalize ht : Target.present P .directory = t at h
    induction h with
    | nil l base =>
      cases ht
      exact ⟨l, .nil l _⟩
    | idle _ ih => exact (ih ht).imp fun _ => .idle
    | here entered _ ih => exact (ih ht).imp fun _ => .here entered
    | up entered _ ih => exact (ih ht).imp fun _ => .up entered
    | down entered step found _ ih => exact (ih ht).imp fun _ => .down entered step found
    | link entered step found _ _ ih => exact (ih ht).imp fun _ => .link entered step found
    | vacant | file | shown => cases ht
  · rintro ⟨left, h⟩
    simpa using h.walkLinks_append (f := true) [] (.inr rfl)

theorem Arrives.append_left (h : d.Arrives l base segs left P)
    (hpre : ∀ s ∈ pre, s = []) : d.Arrives l base (pre ++ segs) left P := by
  induction pre with
  | nil => exact h
  | cons s pre ih =>
    rw [List.cons_append, hpre s List.mem_cons_self]
    exact .idle (ih fun x hx => hpre x (List.mem_cons_of_mem s hx))

theorem Arrives.of_filter_eq (h : d.Arrives l base segs left P)
    (hsegs : segs'.filter (!·.isEmpty) = segs.filter (!·.isEmpty)) :
    d.Arrives l base segs' left P := by
  -- the other walk meets the same segments, with empty ones before each of them
  have hsplit : ∀ {n : Name} {rest segs' : List Name}, n ≠ [] →
      segs'.filter (!·.isEmpty) = (n :: rest).filter (!·.isEmpty) →
      ∃ pre rest', segs' = pre ++ n :: rest' ∧ (∀ s ∈ pre, s = []) ∧
        rest'.filter (!·.isEmpty) = rest.filter (!·.isEmpty) := by
    intro n rest segs' hn h
    rw [List.filter_cons_of_pos (by simpa using hn), List.filter_eq_cons_iff] at h
    obtain ⟨pre, rest', rfl, hpre, -, hrest⟩ := h
    exact ⟨pre, rest', rfl, by simpa using hpre, hrest⟩
  induction h generalizing segs' with
  | nil l base =>
    have hall : ∀ s ∈ segs', s = [] := by simpa using hsegs
    simpa using (Arrives.nil l base).append_left hall
  | idle _ ih => exact ih hsegs
  | here entered _ ih =>
    obtain ⟨pre, rest', rfl, hpre, hrest⟩ := hsplit (by simp [Name.here]) hsegs
    exact (Arrives.here entered (ih hrest)).append_left hpre
  | up entered _ ih =>
    obtain ⟨pre, rest', rfl, hpre, hrest⟩ := hsplit (by simp [Name.up]) hsegs
    exact (Arrives.up entered (ih hrest)).append_left hpre
  | down entered step found _ ih =>
    obtain ⟨pre, rest', rfl, hpre, hrest⟩ := hsplit step.ne_nil hsegs
    exact (Arrives.down entered step found (ih hrest)).append_left hpre
  | link entered step found _ ih =>
    obtain ⟨pre, rest', rfl, hpre, hrest⟩ := hsplit step.ne_nil hsegs
    refine (Arrives.link entered step found (ih ?_)).append_left hpre
    rw [List.filter_append, List.filter_append, hrest]

theorem Arrives.exists_before (hn : n ≠ []) (h : d.Arrives l base (segs ++ n :: more) left P) :
    ∃ mid M, d.Arrives l base segs mid M ∧ d.walkLinks true mid M (n :: more) =
      .ok (.present P .directory) :=
  exists_arrives hn (walkLinks_eq_present_directory_iff.2 ⟨left, h⟩)

theorem Arrives.exists_of_here (h : d.Arrives l base (segs ++ List.replicate k Name.here) left P) :
    ∃ left, d.Arrives l base segs left P := by
  induction k generalizing left with
  | zero => exact ⟨left, by simpa using h⟩
  | succ k ih =>
    rw [List.replicate_succ', ← List.append_assoc] at h
    obtain ⟨mid, M, hbefore, hlast⟩ := h.exists_before (by simp [Name.here])
    by_cases hclosed : M ∈ d.closed
    · rw [walkLinks_closed (by simp [Name.here]) hclosed] at hlast
      cases hlast
    · rw [walkLinks_here hclosed, walkLinks_nil] at hlast
      cases hlast
      exact ih hbefore

theorem Arrives.append (h : d.Arrives l base segs mid M)
    (hmore : d.Arrives mid M more left P) : d.Arrives l base (segs ++ more) left P := by
  induction h with
  | nil => exact hmore
  | idle _ ih => exact .idle (ih hmore)
  | here entered _ ih => exact .here entered (ih hmore)
  | up entered _ ih => exact .up entered (ih hmore)
  | down entered step found _ ih => exact .down entered step found (ih hmore)
  | link entered step found _ ih =>
    have hnext := ih hmore
    rw [List.append_assoc] at hnext
    exact .link entered step found hnext

/-- A walk through all links finds the same when a link at its end is not followed, or it finds such
a link. -/
theorem walkLinks_false_cases (h : d.walkLinks true l base segs = .ok t) :
    d.walkLinks false l base segs = .ok t ∨
      ∃ p s, d.walkLinks false l base segs = .ok (.present p (.symlink s)) := by
  simp only [walkLinks_eq_ok_iff] at h ⊢
  induction h with
  | nil => exact .inl (.nil _ _)
  | idle _ ih => exact ih.imp .idle fun ⟨p, s, h⟩ => ⟨p, s, .idle h⟩
  | here entered _ ih => exact ih.imp (.here entered) fun ⟨p, s, h⟩ => ⟨p, s, .here entered h⟩
  | up entered _ ih => exact ih.imp (.up entered) fun ⟨p, s, h⟩ => ⟨p, s, .up entered h⟩
  | vacant entered step free within last => exact .inl (.vacant entered step free within last)
  | down entered step found _ ih =>
    exact ih.imp (.down entered step found) fun ⟨p, s, h⟩ => ⟨p, s, .down entered step found h⟩
  | file entered step found => exact .inl (.file entered step found)
  | shown _ _ _ hf => cases hf
  | @link _ _ _ _ rest _ entered step found _ _ ih =>
    by_cases hlast : rest = []
    · subst hlast
      exact .inr ⟨_, _, .shown entered step found rfl⟩
    · have hfollowed : ¬ (rest = [] ∧ false = false) := fun h => hlast h.1
      exact ih.imp (.link entered step found hfollowed) fun ⟨p, s, h⟩ =>
        ⟨p, s, .link entered step found hfollowed h⟩

/-- Directories and links of one disk stand on another, and what may be entered may be entered. -/
structure Keeps (d d' : Disk) : Prop where
  directory : ∀ p, d.get? p = some .directory → d'.get? p = some .directory
  link : ∀ p t, d.get? p = some (.symlink t) → d'.get? p = some (.symlink t)
  closed : ∀ p, p ∈ d'.closed → p ∈ d.closed

theorem Arrives.mono (h : d.Arrives l base segs left P) (hk : d.Keeps d') :
    d'.Arrives l base segs left P := by
  induction h with
  | nil => exact .nil _ _
  | idle _ ih => exact .idle ih
  | here entered _ ih => exact .here (fun hc => entered (hk.closed _ hc)) ih
  | up entered _ ih => exact .up (fun hc => entered (hk.closed _ hc)) ih
  | down entered step found _ ih =>
    exact .down (fun hc => entered (hk.closed _ hc)) step (hk.directory _ found) ih
  | link entered step found _ ih =>
    exact .link (fun hc => entered (hk.closed _ hc)) step (hk.link _ _ found) ih

/-! ### What a walk finds -/

def Written (segs : List Name) : Prop :=
  ∀ s ∈ segs, slash ∉ s ∧ 0 ∉ s

def Target.Holds (d : Disk) : Target → Prop
  | .vacant p _ => d.Vacant p
  | .present p e => e = .directory ∨ d.get? p = some e

theorem written_split (h : 0 ∉ path) : Written (Bytes.split slash path) :=
  fun _ hs => ⟨(Bytes.of_mem_split hs).1, fun h0 => h ((Bytes.of_mem_split hs).2 _ h0)⟩

theorem Sound.holds_of_walkLinks (hd : d.Sound) (hsegs : Written segs)
    (h : d.walkLinks f l base segs = .ok t) : t.Holds d := by
  have hrest : ∀ {s segs}, Written (s :: segs) → Written segs :=
    fun hsegs x hx => hsegs x (List.mem_cons_of_mem _ hx)
  rw [walkLinks_eq_ok_iff] at h
  induction h with
  | nil => exact .inl rfl
  | idle _ ih => exact ih (hrest hsegs)
  | here _ _ ih => exact ih (hrest hsegs)
  | up _ _ ih => exact ih (hrest hsegs)
  | down _ _ _ _ ih => exact ih (hrest hsegs)
  | vacant _ step free within _ =>
    obtain ⟨hslash, hzero⟩ := hsegs _ List.mem_cons_self
    exact ⟨free, _, _, rfl, within,
      ⟨step.ne_nil, step.ne_here, step.ne_up, hslash, hzero, step.length_le⟩⟩
  | file _ _ found => exact .inr found
  | shown _ _ found => exact .inr found
  | link _ _ found _ _ ih =>
    refine ih fun x hx => ?_
    rcases List.mem_append.1 hx with hx | hx
    · exact written_split (hd.target _ _ found) x hx
    · exact hrest hsegs x hx

theorem ne_symlink_of_walkLinks
    (h : d.walkLinks true l base segs = .ok t) : t ≠ .present p (.symlink target) := by
  rw [walkLinks_eq_ok_iff] at h
  induction h with
  | nil | vacant | file => simp
  | shown _ _ _ hf => cases hf
  | idle _ ih => exact ih
  | here _ _ ih => exact ih
  | up _ _ ih => exact ih
  | down _ _ _ _ ih => exact ih
  | link _ _ _ _ _ ih => exact ih

/-- What a walk finds at its end if that is not a directory: a file, a link, or a place for
something new. -/
def Target.IsSpot (p : Place) : Target → Prop
  | .vacant q s => q = p ∧ s = false
  | .present q e => q = p ∧ e ≠ .directory

/-- What stands at a place, as a walk finds it there: a link only if it stops at links. -/
def Target.Stands (d : Disk) (f : Bool) (p : Place) : Target → Prop
  | .vacant q s => q = p ∧ s = false ∧ d.get? p = none ∧ d.get? p.dropLast = some .directory
  | .present q e => q = p ∧ d.get? p = some e ∧ e ≠ .directory ∧ ∀ t, e = .symlink t → f = false

theorem walkLinks_last (hentered : base ∉ d.closed) (hn : n.IsStep)
    (ht : t.Stands d f (base ++ [n])) : d.walkLinks f l base [n] = .ok t := by
  rw [walkLinks_step hentered hn]
  cases t with
  | vacant q s =>
    obtain ⟨rfl, rfl, hfree, hwithin⟩ := ht
    rw [List.dropLast_concat] at hwithin
    simp [hfree, hwithin]
  | present q e =>
    obtain ⟨rfl, hfound, hne, hlink⟩ := ht
    cases e with
    | directory => exact absurd rfl hne
    | file c => simp [hfound]
    | symlink target => simp [hfound, hlink target rfl]

/-- Where a walk ended at a file, a link or a place for something new, it finds what is there now. A
walk that stops at links may also be made by following them, if there is no link at its end. -/
theorem Keeps.walkLinks_of_spot (hk : d.Keeps d')
    (hf : f = true → f' = true) (h : d.walkLinks f l base segs = .ok t) (ht : t.IsSpot p)
    (ht' : t'.Stands d' f' p) : d'.walkLinks f' l base segs = .ok t' := by
  have hentered : ∀ {q}, q ∉ d.closed → q ∉ d'.closed := fun hq hc => hq (hk.closed _ hc)
  rw [walkLinks_eq_ok_iff] at h
  induction h with
  | nil => exact absurd rfl ht.2
  | idle _ ih => rw [walkLinks_idle, ih ht]
  | here entered _ ih => rw [walkLinks_here (hentered entered), ih ht]
  | up entered _ ih => rw [walkLinks_up (hentered entered), ih ht]
  | @vacant _ _ _ rest entered step =>
    obtain ⟨rfl, hlast⟩ := ht
    obtain rfl : rest = [] := by simpa using hlast
    exact walkLinks_last (hentered entered) step ht'
  | down entered step found _ ih =>
    rw [walkLinks_step (hentered entered) step, hk.directory _ found, ih ht]
  | file entered step | shown entered step =>
    obtain ⟨rfl, -⟩ := ht
    exact walkLinks_last (hentered entered) step ht'
  | link entered step found followed _ ih =>
    rw [walkLinks_step (hentered entered) step, hk.link _ _ found]
    refine (if_neg fun hlast => followed ⟨hlast.1, ?_⟩).trans (ih ht)
    simpa [hlast.2] using hf

end Disk

end AgentChain

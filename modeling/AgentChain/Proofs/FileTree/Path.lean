import AgentChain.Proofs.FileTree.Entries
import AgentChain.Proofs.Text.Segments

/-!
# Written paths

A path is followed through its steps, the segments that are not empty. Writing a path after another
one appends its steps. The directory that a written path lies in has all its steps but the last, up
to steps that stay where they are, and another name in that directory is written after it.
-/

namespace AgentChain

open Bytes (ofText)

namespace Name

variable {b : Bytes} {n : Name}

def steps (path : Bytes) : List Name :=
  (Bytes.split slash path).filter (!·.isEmpty)

theorem steps_of_not_mem (hn : n ≠ []) (hslash : slash ∉ n) : steps n = [n] := by
  rw [steps, Bytes.split_of_not_mem hslash]
  simp [hn]

theorem Proper.steps_eq (h : n.Proper) : steps n = [n] :=
  steps_of_not_mem h.ne_nil h.no_slash

theorem isAbsolute_of_not_mem (h : slash ∉ n) : isAbsolute n = false := by
  cases n with
  | nil => rfl
  | cons x n =>
    have hx : x ≠ slash := fun hx => h (hx ▸ List.mem_cons_self)
    simpa [isAbsolute] using hx

theorem Proper.isAbsolute_eq (h : n.Proper) : isAbsolute n = false :=
  isAbsolute_of_not_mem h.no_slash

theorem exists_split_below (b n : Bytes) : ∃ pre,
    Bytes.split slash (below b n) = pre ++ Bytes.split slash n ∧
      (Bytes.split slash b = pre ∨ Bytes.split slash b = pre ++ [[]]) := by
  by_cases hb : b = []
  · exact ⟨[], by simp [below, hb]⟩
  by_cases hlast : b.getLast? = some slash
  · obtain ⟨a, rfl⟩ := List.getLast?_eq_some_iff.1 hlast
    refine ⟨Bytes.split slash a, ?_, .inr ?_⟩
    · rw [below, if_pos (by simp), List.append_assoc, List.singleton_append, Bytes.split_append_cons]
    · rw [Bytes.split_append_cons, Bytes.split_nil]
  · refine ⟨Bytes.split slash b, ?_, .inl rfl⟩
    rw [below, if_neg (by simp [hb, hlast]), Bytes.split_append_cons]

theorem steps_below (b n : Bytes) : steps (below b n) = steps b ++ steps n := by
  obtain ⟨pre, hsplit, hb⟩ := exists_split_below b n
  rw [steps, hsplit, List.filter_append, steps, steps]
  rcases hb with hb | hb <;> simp [hb]

theorem isAbsolute_below (hn : isAbsolute n = false) : isAbsolute (below b n) = isAbsolute b := by
  cases b with
  | nil => simpa [below, isAbsolute] using hn
  | cons x b =>
    rw [below]
    split <;> rfl

theorem mem_below (h : x ∈ b ∨ x ∈ n) : x ∈ below b n := by
  rw [below]
  split
  · simpa using h
  · simp only [List.mem_append, List.mem_cons]
    tauto

theorem length_le_length_below (b n : Bytes) : b.length + n.length ≤ (below b n).length := by
  rw [below]
  split <;> simp

theorem below_ne_nil (hn : n ≠ []) : below b n ≠ [] := by
  rw [below]
  split <;> simp [hn]

end Name

namespace Path

variable {a b p : String} {segs : List String} {s : String} {name : String}

/-! ### Joining -/

theorem isAbsolute_ofText (p : String) : Name.isAbsolute (ofText p) = isAbsolute p := by
  rw [isAbsolute, Name.isAbsolute, Bytes.ofText_eq, decide_eq_decide]
  cases p.toList with
  | nil => simp
  | cons c cs =>
    rw [List.flatMap_cons, List.head?_append_of_ne_nil _ String.utf8EncodeChar_ne_nil]
    constructor
    · intro h
      rw [(Bytes.mem_utf8EncodeChar_iff (k := '/') (by decide)).1 (List.mem_of_mem_head? h)]
      rfl
    · intro h
      cases h
      rfl

theorem getLast?_ofText (p : String) :
    (ofText p).getLast? = some Name.slash ↔ p.toList.getLast? = some '/' := by
  rw [Bytes.ofText_eq]
  rcases List.eq_nil_or_concat p.toList with hnil | ⟨cs, c, hcs⟩
  · simp [hnil]
  · rw [hcs, List.concat_eq_append, List.flatMap_append, List.getLast?_concat,
      List.flatMap_singleton, List.getLast?_append_of_ne_nil _ String.utf8EncodeChar_ne_nil]
    constructor
    · intro h
      rw [(Bytes.mem_utf8EncodeChar_iff (k := '/') (by decide)).1 (List.mem_of_mem_getLast? h)]
    · intro h
      cases h
      rfl

theorem ofText_join (hb : isAbsolute b = false) :
    ofText (join a b) = Name.below (ofText a) (ofText b) := by
  have hcond : (a.isEmpty || decide (a.toList.getLast? = some '/')) =
      ((ofText a).isEmpty || decide ((ofText a).getLast? = some Name.slash)) := by
    rw [Bool.eq_iff_iff]
    simp [getLast?_ofText]
  rw [join, if_neg (by simp [hb]), hcond, Name.below]
  split
  · exact Bytes.ofText_append a b
  · rw [Bytes.ofText_append, Bytes.ofText_append, List.append_assoc]
    rfl

theorem isAbsolute_join (hb : isAbsolute b = false) : isAbsolute (join a b) = isAbsolute a := by
  rw [← isAbsolute_ofText, ofText_join hb, Name.isAbsolute_below (by rwa [isAbsolute_ofText]),
    isAbsolute_ofText]

/-! ### Segments -/

/-- A text that is one name. -/
structure IsName (s : String) : Prop where
  ne_empty : s ≠ ""
  ne_here : s ≠ "."
  ne_up : s ≠ ".."
  no_slash : '/' ∉ s.toList

instance (s : String) : Decidable (IsName s) :=
  decidable_of_iff (s ≠ "" ∧ s ≠ "." ∧ s ≠ ".." ∧ '/' ∉ s.toList)
    ⟨fun h => ⟨h.1, h.2.1, h.2.2.1, h.2.2.2⟩, fun h => ⟨h.1, h.2, h.3, h.4⟩⟩

theorem IsName.isAbsolute_eq (h : IsName s) : isAbsolute s = false := by
  rw [isAbsolute, decide_eq_false_iff_not]
  exact fun hs => h.no_slash (List.mem_of_mem_head? hs)

theorem IsName.segments_eq (h : IsName s) : segments s = [s] := by
  rw [segments, Text.split, Text.splitAtChar_of_not_mem h.no_slash]
  simp

theorem no_slash_of_mem_segments (h : s ∈ segments p) : '/' ∉ s.toList := by
  have hmem : ofText s ∈ Bytes.split Name.slash (ofText p) := by
    rw [Bytes.split_ofText]
    exact List.mem_map_of_mem h
  rw [← Bytes.slash_mem_ofText_iff]
  exact (Bytes.of_mem_split hmem).1

theorem isAbsolute_iff_segments : isAbsolute p ↔ ∃ rest, rest ≠ [] ∧ segments p = "" :: rest := by
  constructor
  · intro h
    obtain ⟨cs, hcs⟩ := List.head?_eq_some_iff.1 (of_decide_eq_true h)
    refine ⟨(Text.splitAtChar '/' cs).map String.ofList, ?_, ?_⟩
    · simpa using Text.splitAtChar_ne_nil '/' cs
    · rw [segments, Text.split, hcs, Text.splitAtChar_cons_self]
      rfl
  · rintro ⟨rest, hne, hsegs⟩
    obtain ⟨r, rest, rfl⟩ := List.exists_cons_of_ne_nil hne
    have htext : p.toList = (Text.join "/" ("" :: r :: rest)).toList := by
      rw [← hsegs, segments, Text.join_split]
    rw [isAbsolute, htext, Text.toList_join]
    simp [List.intercalate_cons_cons]

/-- The segments of a path without the one before the first slash of an absolute path. -/
def body (p : String) : List String :=
  if isAbsolute p then (segments p).drop 1 else segments p

theorem filter_body (p : String) : (body p).filter (· ≠ "") = (segments p).filter (· ≠ "") := by
  rw [body]
  split
  · next h =>
    obtain ⟨rest, -, hrest⟩ := isAbsolute_iff_segments.1 h
    simp [hrest]
  · rfl

theorem no_slash_of_mem_body (h : s ∈ body p) : '/' ∉ s.toList := by
  rw [body] at h
  split at h
  · exact no_slash_of_mem_segments (List.mem_of_mem_drop h)
  · exact no_slash_of_mem_segments h

theorem steps_eq_body (p : String) :
    Name.steps (ofText p) = ((body p).filter (· ≠ "")).map ofText := by
  rw [filter_body, Name.steps, Bytes.split_ofText, List.filter_map, segments]
  congr 1
  refine List.filter_congr fun s _ => ?_
  by_cases hs : s = "" <;> simp [hs]

/-- The segments that stay before a name that is written after a path. -/
def lead (a : String) : List String :=
  if a.isEmpty || a.toList.getLast? = some '/' then (body a).dropLast else body a

/-- A path that ends in a slash has an empty segment at its end, in whose place others are written. -/
theorem exists_segments_of_slash (h : (a.isEmpty || decide (a.toList.getLast? = some '/'))) :
    ∃ pre, segments a = pre ++ [""] ∧ ∀ t, segments (a ++ t) = pre ++ segments t := by
  by_cases ha : a = ""
  · subst ha
    exact ⟨[], rfl, fun t => by rw [String.empty_append, List.nil_append]⟩
  · obtain ⟨cs, hcs⟩ := List.getLast?_eq_some_iff.1 (by simpa [ha] using h)
    have hs : a = String.ofList cs ++ "/" := String.toList_injective (by simpa using hcs)
    have hsplit : ∀ t, segments (a ++ t) = segments (String.ofList cs) ++ segments t := fun t => by
      rw [hs]
      exact Text.split_append_slash _ _
    refine ⟨_, ?_, hsplit⟩
    rw [← String.append_empty (s := a), hsplit ""]
    rfl

theorem lead_cases (a : String) : body a = lead a ∨ body a = lead a ++ [""] := by
  rw [lead]
  split
  · next hend =>
    obtain ⟨pre, hpre, -⟩ := exists_segments_of_slash hend
    refine .inr ?_
    rw [body]
    split
    · next habs =>
      obtain ⟨rest, hne, hrest⟩ := isAbsolute_iff_segments.1 habs
      cases pre with
      | nil => simp_all
      | cons s pre => simp [hpre]
    · simp [hpre]
  · exact .inl rfl

theorem body_join (hn : IsName name) : body (join a name) = lead a ++ [name] := by
  have hjoin : join a name = if a.isEmpty || a.toList.getLast? = some '/' then a ++ name
      else a ++ "/" ++ name := by
    rw [join, if_neg (by simp [hn.isAbsolute_eq])]
  rw [body, isAbsolute_join hn.isAbsolute_eq, hjoin, lead, body]
  by_cases hend : (a.isEmpty || decide (a.toList.getLast? = some '/'))
  · obtain ⟨pre, hpre, hsplit⟩ := exists_segments_of_slash hend
    rw [if_pos hend, if_pos hend, hsplit, hpre, hn.segments_eq]
    split
    · next habs =>
      obtain ⟨rest, hne, hrest⟩ := isAbsolute_iff_segments.1 habs
      cases pre with
      | nil => simp_all
      | cons s pre => simp
    · simp
  · have hsplit : segments (a ++ "/" ++ name) = segments a ++ [name] := by
      rw [← hn.segments_eq]
      exact Text.split_append_slash _ _
    rw [if_neg hend, if_neg hend, hsplit]
    split
    · next habs =>
      obtain ⟨rest, hne, hrest⟩ := isAbsolute_iff_segments.1 habs
      simp [hrest]
    · rfl

theorem head?_lead (ha : isAbsolute a = false) : (lead a).head? ≠ some "" := by
  intro hhead
  obtain ⟨rest, hrest⟩ := List.head?_eq_some_iff.1 hhead
  have hx : IsName "x" := by decide
  have hbody := body_join (a := a) hx
  have habs : isAbsolute (join a "x") = false := (isAbsolute_join hx.isAbsolute_eq).trans ha
  rw [body, if_neg (by simp [habs]), hrest, List.cons_append] at hbody
  rw [isAbsolute_iff_segments.2 ⟨_, by simp, hbody⟩] at habs
  cases habs

/-! ### The directory of a path -/

theorem segments_rebuild (hsegs : ∀ s ∈ segs, '/' ∉ s.toList) :
    segments (rebuild p segs) = (if isAbsolute p then [""] else []) ++
      if segs = [] then [""] else segs.reverse := by
  have hjoin : segments (Text.join "/" segs.reverse) = if segs = [] then [""] else segs.reverse := by
    split
    · next h =>
      subst h
      rfl
    · next h =>
      exact Text.split_join (by simpa using h) fun s hs => hsegs s (List.mem_reverse.1 hs)
  rw [rebuild, ← hjoin]
  split
  · rw [segments, Text.split, String.toList_append]
    exact congrArg (List.map String.ofList) (Text.splitAtChar_cons_self '/' _)
  · rw [String.empty_append, List.nil_append]

theorem rebuild_body (p : String) : rebuild p (body p).reverse = p := by
  have hjoin := Text.join_split p
  rw [rebuild, body, List.reverse_reverse]
  split
  · next h =>
    obtain ⟨rest, hne, hrest⟩ := isAbsolute_iff_segments.1 h
    rw [show Text.split '/' p = "" :: rest from hrest] at hjoin
    rw [hrest, List.drop_one, List.tail_cons]
    obtain ⟨r, rest, rfl⟩ := List.exists_cons_of_ne_nil hne
    apply String.toList_injective
    rw [String.toList_append, ← hjoin, Text.toList_join, Text.toList_join]
    simp [List.intercalate_cons_cons]
  · rw [String.empty_append]
    exact hjoin

theorem rebuild_congr (h : isAbsolute p = isAbsolute a) : rebuild p segs = rebuild a segs := by
  rw [rebuild, rebuild, h]

theorem body_rebuild (hsegs : ∀ s ∈ segs, '/' ∉ s.toList)
    (hhead : isAbsolute p ∨ segs.getLast? ≠ some "") :
    isAbsolute (rebuild p segs) = isAbsolute p ∧
      body (rebuild p segs) = if segs = [] then [""] else segs.reverse := by
  have hsplit := segments_rebuild (p := p) hsegs
  by_cases habs : isAbsolute p
  · rw [habs, if_pos rfl, List.singleton_append] at hsplit
    have habs' : isAbsolute (rebuild p segs) :=
      isAbsolute_iff_segments.2 ⟨_, by split <;> simp_all, hsplit⟩
    refine ⟨habs'.trans habs.symm, ?_⟩
    rw [body, habs', if_pos rfl, hsplit]
    rfl
  · rw [if_neg habs, List.nil_append] at hsplit
    have habs' : isAbsolute (rebuild p segs) ≠ true := by
      intro h
      obtain ⟨rest, hne, hrest⟩ := isAbsolute_iff_segments.1 h
      rw [hsplit] at hrest
      split at hrest
      · simp_all
      · have hlast := hhead.resolve_left habs
        rw [← List.head?_reverse, hrest] at hlast
        exact hlast rfl
    refine ⟨by simp_all, ?_⟩
    rw [body, if_neg habs', hsplit]

theorem exists_trim (absolute : Bool) (segs : List String) : ∃ dropped,
    segs = dropped ++ backward.trim absolute segs ∧ ∀ s ∈ dropped, s = "" ∨ s = "." := by
  induction segs with
  | nil => exact ⟨[], rfl, by simp⟩
  | cons s segs ih =>
    rw [backward.trim]
    split
    · next hs =>
      obtain ⟨dropped, hdropped, hall⟩ := ih
      refine ⟨s :: dropped, by rw [List.cons_append, ← hdropped], fun x hx => ?_⟩
      rcases List.mem_cons.1 hx with rfl | hx
      · simp only [Bool.or_eq_true, decide_eq_true_eq, Bool.and_eq_true] at hs
        exact hs.imp_right And.left
      · exact hall x hx
    · exact ⟨[], rfl, by simp⟩

theorem steps_of_parent? (h : parent? p = some a) : isAbsolute a = isAbsolute p ∧
    Name.steps (ofText a) <+: Name.steps (ofText p) := by
  obtain ⟨dropped, hdropped, -⟩ := exists_trim (isAbsolute p) (body p).reverse
  rw [show backward.trim (isAbsolute p) (body p).reverse = backward p from rfl] at hdropped
  rw [parent?] at h
  split at h
  · cases h
  next s rest hback =>
  cases h
  obtain ⟨dropped', hdropped', -⟩ := exists_trim (isAbsolute p) rest
  generalize backward.trim (isAbsolute p) rest = kept at hdropped'
  have hbody : body p = kept.reverse ++ (dropped ++ s :: dropped').reverse := by
    rw [← List.reverse_reverse (body p), hdropped, hback, hdropped']
    simp
  have hhead : isAbsolute p ∨ kept.getLast? ≠ some "" := by
    by_cases habs : isAbsolute p
    · exact .inl habs
    · refine .inr fun hlast => habs ?_
      rw [body, if_neg habs] at hbody
      obtain ⟨init, rfl⟩ := List.getLast?_eq_some_iff.1 hlast
      rw [List.reverse_concat, List.cons_append] at hbody
      exact isAbsolute_iff_segments.2 ⟨_, by simp, hbody⟩
  have hmem : ∀ x ∈ kept, x ∈ body p := fun x hx => by simp [hbody, hx]
  obtain ⟨habs, hkept⟩ := body_rebuild (fun x hx => no_slash_of_mem_body (hmem x hx)) hhead
  refine ⟨habs, ?_⟩
  rw [steps_eq_body, steps_eq_body, hkept, hbody]
  split
  · simp
  · rw [List.filter_append, List.map_append]
    exact List.prefix_append _ _

theorem steps_of_mem_ancestors (h : a ∈ ancestors.go k p) :
    isAbsolute a = isAbsolute p ∧ Name.steps (ofText a) <+: Name.steps (ofText p) := by
  induction k generalizing p with
  | zero =>
    rw [List.mem_singleton.1 h]
    exact ⟨rfl, List.prefix_refl _⟩
  | succ k ih =>
    rw [ancestors.go] at h
    split at h
    · rw [List.mem_singleton.1 h]
      exact ⟨rfl, List.prefix_refl _⟩
    · next directory hparent =>
      obtain ⟨habs, hsteps⟩ := steps_of_parent? hparent
      rcases List.mem_cons.1 h with rfl | h
      · exact ⟨rfl, List.prefix_refl _⟩
      · exact ⟨(ih h).1.trans habs, (ih h).2.trans hsteps⟩

theorem trim_cons (h : IsName s) : backward.trim absolute (s :: rest) = s :: rest := by
  rw [backward.trim, if_neg (by simp [h.ne_empty, h.ne_here])]

theorem backward_join (hn : IsName name) : backward (join a name) = name :: (lead a).reverse := by
  have hback : backward (join a name) =
      backward.trim (isAbsolute (join a name)) (body (join a name)).reverse := rfl
  rw [hback, body_join hn, List.reverse_append]
  exact trim_cons hn

theorem parent?_join_eq (hn : IsName name) : parent? (join a name) =
    some (rebuild a (backward.trim (isAbsolute a) (lead a).reverse)) := by
  rw [parent?, backward_join hn]
  simp only [isAbsolute_join hn.isAbsolute_eq]
  rw [rebuild_congr (isAbsolute_join hn.isAbsolute_eq)]

theorem exists_parent?_join (hn : IsName name) : ∃ a',
    parent? (join a name) = some a' ∧ isAbsolute a' = isAbsolute a ∧
      ∃ k, Name.steps (ofText a) = Name.steps (ofText a') ++ List.replicate k Name.here := by
  obtain ⟨dropped, hdropped, hall⟩ := exists_trim (isAbsolute a) (lead a).reverse
  generalize hkept : backward.trim (isAbsolute a) (lead a).reverse = kept at hdropped
  have hmem : ∀ s ∈ kept, s ∈ body a := fun s hs => by
    have : s ∈ lead a := List.mem_reverse.1 (hdropped ▸ List.mem_append_right _ hs)
    rcases lead_cases a with h | h <;> simp [h, this]
  have hfilter : (body a).filter (· ≠ "") = (lead a).filter (· ≠ "") := by
    rcases lead_cases a with h | h <;> simp [h]
  have hlead : lead a = kept.reverse ++ dropped.reverse := by
    rw [← List.reverse_append, ← hdropped, List.reverse_reverse]
  have hhead : isAbsolute a ∨ kept.getLast? ≠ some "" := by
    by_cases habs : isAbsolute a
    · exact .inl habs
    · refine .inr fun hlast => head?_lead (a := a) (by simpa using habs) ?_
      rw [hlead, List.head?_append, List.head?_reverse, hlast]
      rfl
  obtain ⟨habs, hbody⟩ := body_rebuild (fun s hs => no_slash_of_mem_body (hmem s hs)) hhead
  refine ⟨_, by rw [parent?_join_eq hn, hkept], habs, (dropped.reverse.filter (· ≠ "")).length, ?_⟩
  rw [steps_eq_body, steps_eq_body, hbody, hfilter, hlead, List.filter_append, List.map_append]
  congr 1
  · split
    · next h => simp [h]
    · rfl
  · rw [List.eq_replicate_iff]
    refine ⟨by simp, fun n hn => ?_⟩
    obtain ⟨s, hs, rfl⟩ := List.mem_map.1 hn
    obtain ⟨hs, hne⟩ := List.mem_filter.1 hs
    rcases hall s (List.mem_reverse.1 hs) with rfl | rfl
    · simp at hne
    · rfl

theorem parent?_join_join (hn : IsName name) (hn' : IsName name') :
    parent? (join (join a name) name') = some (join a name) := by
  have hlead : lead (join a name) = body (join a name) := by
    rcases lead_cases (join a name) with h | h
    · exact h.symm
    · rw [body_join hn] at h
      simpa [hn.ne_empty] using (List.append_inj' h rfl).2
  rw [parent?_join_eq hn', hlead, body_join hn, List.reverse_append, List.reverse_singleton,
    List.singleton_append, trim_cons hn, ← List.singleton_append, ← List.reverse_singleton,
    ← List.reverse_append, ← body_join hn, rebuild_body]

theorem fileName?_of_getLast? (hn : IsName name)
    (h : (segments p).getLast? = some name) : fileName? p = some name := by
  have hpart : part? name = some (.name name) := by
    simp [part?, hn.ne_empty, hn.ne_here, hn.ne_up]
  have hlast : ((segments p).filterMap part?).getLast? = some (.name name) := by
    obtain ⟨pre, hpre⟩ := List.getLast?_eq_some_iff.1 h
    simp [hpre, hpart]
  have hparts : (parts p).getLast? = some (.name name) := by
    rw [parts]
    split
    · rw [List.getLast?_cons, hlast, Option.getD_some]
    split
    · rw [List.getLast?_cons, hlast, Option.getD_some]
    · exact hlast
  rw [fileName?, hparts]

theorem fileName?_join (hn : IsName name) : fileName? (join a name) = some name := by
  refine fileName?_of_getLast? hn ?_
  have hbody := body_join (a := a) hn
  rw [body] at hbody
  split at hbody
  · next habs =>
    obtain ⟨rest, -, hrest⟩ := isAbsolute_iff_segments.1 habs
    rw [hrest, List.drop_one, List.tail_cons] at hbody
    rw [hrest, hbody, ← List.cons_append, List.getLast?_concat]
  · rw [hbody, List.getLast?_concat]

theorem withExtension_join (hn : IsName name) (hother : IsName (stem name ++ "." ++ extension)) :
    withExtension (join a name) extension = join a (stem name ++ "." ++ extension) := by
  have habs : isAbsolute (join a name) = isAbsolute (join a (stem name ++ "." ++ extension)) := by
    rw [isAbsolute_join hn.isAbsolute_eq, isAbsolute_join hother.isAbsolute_eq]
  have hbody := rebuild_body (join a (stem name ++ "." ++ extension))
  rw [body_join hother, List.reverse_append, List.reverse_singleton, List.singleton_append] at hbody
  rw [withExtension, fileName?_join hn, backward_join hn]
  exact (rebuild_congr habs).trans hbody

end Path

end AgentChain

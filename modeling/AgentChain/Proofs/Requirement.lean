import AgentChain.Proofs.Catalog.Published

/-!
# The grammar of requirement lines

A line of a requirement file is read by cutting: first the comment goes, then the blanks around what
is left, then a name is taken from its start, and the blanks around the rest go. Beside the reader
stands what a line is made of: blanks, a statement without blanks at its ends, blanks again and a
comment. A statement is empty, or it starts with a name, or the line has a flaw. Cuts and parts
agree for every line. A file is read line by line, so that files compose.
-/

namespace AgentChain

open Text (lines trimEndChars linesFrom dropReturn)

/-! ### Blanks around a text -/

namespace Text

variable {cs s w w₁ w₂ : List Char}

def Blank (w : List Char) : Prop :=
  ∀ c ∈ w, isBlank c = true

/-- A text that neither starts nor ends with a blank. -/
structure Tight (s : List Char) : Prop where
  head : ∀ c ∈ s.head?, isBlank c = false
  last : ∀ c ∈ s.getLast?, isBlank c = false

theorem Blank.append (h₁ : Blank w₁) (h₂ : Blank w₂) : Blank (w₁ ++ w₂) :=
  fun c hc => (List.mem_append.mp hc).elim (h₁ c) (h₂ c)

theorem dropWhile_blank_append (hw : Blank w) :
    (w ++ cs).dropWhile isBlank = cs.dropWhile isBlank := by
  rw [List.dropWhile_append, List.dropWhile_eq_nil_iff.mpr hw]
  rfl

theorem trimEndChars_append_blank (hw : Blank w) : trimEndChars (cs ++ w) = trimEndChars cs := by
  rw [trimEndChars, List.reverse_append,
    dropWhile_blank_append fun c hc => hw c (List.mem_reverse.mp hc), trimEndChars]

theorem Tight.trimChars_eq (h : Tight s) (h₁ : Blank w₁) (h₂ : Blank w₂) :
    trimChars (w₁ ++ s ++ w₂) = s := by
  cases s with
  | nil =>
    rw [List.append_nil, trimChars, List.dropWhile_eq_nil_iff.mpr (h₁.append h₂)]
    rfl
  | cons c rest =>
    have hc : isBlank c = false := h.head c rfl
    rw [trimChars, List.append_assoc, dropWhile_blank_append h₁, List.cons_append,
      List.dropWhile_cons_of_neg (by simp [hc]), ← List.cons_append, trimEndChars_append_blank h₂,
      trimEndChars_eq, List.rdropWhile_eq_self_iff]
    intro hne
    simp [h.last _ (List.getLast_mem_getLast? hne)]

theorem exists_trimEndChars (cs : List Char) :
    ∃ w, cs = trimEndChars cs ++ w ∧ Blank w ∧
      ∀ c ∈ (trimEndChars cs).getLast?, isBlank c = false := by
  rw [trimEndChars_eq]
  refine ⟨cs.rtakeWhile isBlank, List.rdropWhile_append_rtakeWhile.symm,
    fun c => List.mem_rtakeWhile_imp, fun c hc => ?_⟩
  have hne : cs.rdropWhile isBlank ≠ [] := by
    rintro hnil
    simp [hnil] at hc
  rw [List.getLast?_eq_some_getLast hne] at hc
  cases hc
  simpa using List.rdropWhile_last_not isBlank cs hne

theorem exists_trimChars (cs : List Char) :
    ∃ w₁ w₂, cs = w₁ ++ trimChars cs ++ w₂ ∧ Blank w₁ ∧ Blank w₂ ∧ Tight (trimChars cs) := by
  obtain ⟨w₂, heq, h₂, hlast⟩ := exists_trimEndChars (cs.dropWhile isBlank)
  refine ⟨cs.takeWhile isBlank, w₂, ?_, fun c => List.mem_takeWhile_imp, h₂, fun c hc => ?_, hlast⟩
  · rw [List.append_assoc, trimChars, ← heq, List.takeWhile_append_dropWhile]
  · have hhead := List.head?_dropWhile_not isBlank cs
    rw [heq, List.head?_append, show (trimEndChars _).head? = some c from hc] at hhead
    simpa using hhead

/-- Blanks taken from the end first make no difference. -/
theorem trimChars_trimEndChars (cs : List Char) : trimChars (trimEndChars cs) = trimChars cs := by
  obtain ⟨w, heq, hw, -⟩ := exists_trimEndChars cs
  obtain ⟨w₁, w₂, heq', h₁, h₂, htight⟩ := exists_trimChars (trimEndChars cs)
  have hcs : cs = w₁ ++ trimChars (trimEndChars cs) ++ (w₂ ++ w) := by
    rw [← List.append_assoc, ← heq', ← heq]
  conv_rhs => rw [hcs]
  rw [htight.trimChars_eq h₁ (h₂.append hw)]

end Text

/-! ### Names in their normal spelling -/

namespace PackageName

/-- A character of a normal spelling: a small letter, a digit or a hyphen. -/
def IsNormal (c : Char) : Prop :=
  ('a' ≤ c ∧ c ≤ 'z') ∨ ('0' ≤ c ∧ c ≤ '9') ∨ c = '-'

theorem le_iff {a b : Char} : a ≤ b ↔ a.toNat ≤ b.toNat :=
  Iff.rfl

variable {c : Char}

theorem isPart_iff : isPart c ↔
    (65 ≤ c.toNat ∧ c.toNat ≤ 90) ∨ (97 ≤ c.toNat ∧ c.toNat ≤ 122) ∨
      (48 ≤ c.toNat ∧ c.toNat ≤ 57) ∨ c = '.' ∨ c = '_' ∨ c = '-' := by
  simp only [isPart, isInitial, Bool.or_eq_true, Bool.and_eq_true, decide_eq_true_iff, le_iff]
  simp only [show 'A'.toNat = 65 from rfl, show 'Z'.toNat = 90 from rfl,
    show 'a'.toNat = 97 from rfl, show 'z'.toNat = 122 from rfl, show '0'.toNat = 48 from rfl,
    show '9'.toNat = 57 from rfl, or_assoc]

theorem isPart_of_isInitial (h : isInitial c) : isPart c := by
  simp [isPart, h]

theorem isBlank_of_isPart (h : isPart c) : Text.isBlank c = false := by
  obtain h | h | h | rfl | rfl | rfl := isPart_iff.mp h
  iterate 3
    simp only [Text.isBlank, Bool.or_eq_false_iff, Bool.and_eq_false_iff, decide_eq_false_iff_not,
      beq_eq_false_iff_ne]
    omega
  all_goals decide

theorem ne_hash_of_isPart (h : isPart c) : c ≠ '#' := by
  rintro rfl
  exact absurd h (by decide)

theorem isNormal_foldChar (h : isPart c) : IsNormal (foldChar c) := by
  have hsmall {a : Char} (hlow : 97 ≤ a.toNat) (hhigh : a.toNat ≤ 122) : IsNormal a :=
    .inl ⟨hlow, hhigh⟩
  obtain ⟨hkept, hscore, hpoint, hcapital⟩ | ⟨hmark, -⟩ | ⟨hletter, hlow, hhigh⟩ := foldChar_cases c
  · rw [hkept]
    obtain hc | ⟨hlow, hhigh⟩ | ⟨hlow, hhigh⟩ | hc | hc | hc := isPart_iff.mp h
    · exact absurd hc hcapital
    · exact hsmall hlow hhigh
    · exact .inr (.inl ⟨hlow, hhigh⟩)
    · exact absurd hc hpoint
    · exact absurd hc hscore
    · exact .inr (.inr hc)
  · exact .inr (.inr hmark)
  · exact hsmall (by omega) (by omega)

theorem toList_normalize (h : ∀ c ∈ name, isPart c) :
    (normalize (String.ofList name)).toList = name.map foldChar := by
  have htight : Text.Tight name :=
    ⟨fun c hc => isBlank_of_isPart (h c (List.mem_of_mem_head? hc)),
      fun c hc => isBlank_of_isPart (h c (List.mem_of_mem_getLast? hc))⟩
  have htrim : Text.trimChars ([] ++ name ++ []) = name :=
    htight.trimChars_eq (by simp [Text.Blank]) (by simp [Text.Blank])
  rw [List.nil_append, List.append_nil] at htrim
  rw [normalize, String.toList_ofList, String.toList_ofList, htrim]

end PackageName

/-! ### Lines -/

namespace Requirement

open Text (Blank Tight)
open PackageName (isPart isInitial IsNormal normalize)

variable {agent : String} {line s name rest : List Char}

/-- A line says something: around it stand blanks, and after it a comment may stand. -/
structure Says (line s : List Char) : Prop where
  tight : Tight s
  plain : '#' ∉ s
  around : ∃ w₁ w₂ comment, line = w₁ ++ s ++ w₂ ++ comment ∧ Blank w₁ ∧ Blank w₂ ∧
    (comment = [] ∨ comment.head? = some '#')

theorem hash_not_mem_of_blank (h : Blank w) : '#' ∉ w :=
  fun hmem => absurd (h _ hmem) (by decide)

theorem takeWhile_comment (h : '#' ∉ before) (hcomment : comment = [] ∨ comment.head? = some '#') :
    (before ++ comment).takeWhile (· ≠ '#') = before := by
  have hbefore : ∀ c ∈ before, decide (c ≠ '#') := by
    intro c hc
    rw [decide_eq_true_iff]
    rintro rfl
    exact h hc
  rw [List.takeWhile_append_of_pos hbefore]
  rcases hcomment with rfl | hhash
  · simp
  · obtain ⟨more, rfl⟩ := List.head?_eq_some_iff.mp hhash
    simp

theorem says_iff {line} : Says line.toList s ↔ statement line = s := by
  constructor
  · rintro ⟨htight, hplain, w₁, w₂, comment, hline, h₁, h₂, hcomment⟩
    have hbefore : '#' ∉ w₁ ++ s ++ w₂ := by
      simp [hplain, hash_not_mem_of_blank h₁, hash_not_mem_of_blank h₂]
    rw [statement, hline, takeWhile_comment hbefore hcomment, htight.trimChars_eq h₁ h₂]
  · rintro rfl
    obtain ⟨w₁, w₂, heq, h₁, h₂, htight⟩ := Text.exists_trimChars (line.toList.takeWhile (· ≠ '#'))
    refine ⟨htight, fun hmem => ?_, w₁, w₂, line.toList.dropWhile (· ≠ '#'), ?_, h₁, h₂, ?_⟩
    · have hmem' : '#' ∈ line.toList.takeWhile (· ≠ '#') := by
        rw [heq]
        exact List.mem_append_left _ (List.mem_append_right _ hmem)
      simpa using List.mem_takeWhile_imp hmem'
    · calc line.toList
        _ = line.toList.takeWhile (· ≠ '#') ++ line.toList.dropWhile (· ≠ '#') :=
            List.takeWhile_append_dropWhile.symm
        _ = _ := congrArg (· ++ _) heq
    · cases hdrop : line.toList.dropWhile (· ≠ '#') with
      | nil => exact .inl rfl
      | cons c more =>
        have hhead := List.head?_dropWhile_not (· ≠ '#') line.toList
        rw [hdrop] at hhead
        simpa using hhead

/-- The longest start of a text that is made of the characters of a name. -/
structure LongestRun (s name : List Char) : Prop where
  start : name <+: s
  parts : ∀ c ∈ name, isPart c = true
  longest : ∀ p, p <+: s → (∀ c ∈ p, isPart c = true) → p <+: name

/-- A statement is a name and what follows it. -/
structure Names (s name rest : List Char) : Prop where
  eq : s = name ++ rest
  run : LongestRun s name
  initial : ∃ c ∈ name.head?, isInitial c = true

theorem longestRun_takeWhile (s : List Char) : LongestRun s (s.takeWhile isPart) where
  start := List.takeWhile_prefix _
  parts c hc := List.mem_takeWhile_imp hc
  longest p hp hparts := by
    obtain ⟨more, rfl⟩ := hp
    rw [List.takeWhile_append_of_pos hparts]
    exact List.prefix_append _ _

theorem LongestRun.unique (h : LongestRun s name) (h' : LongestRun s name') : name = name' :=
  (h'.longest name h.start h.parts).eq_of_length_le (h.longest name' h'.start h'.parts).length_le

theorem Names.unique (h : Names s name rest) (h' : Names s name' rest') :
    name = name' ∧ rest = rest' := by
  obtain rfl := h.run.unique h'.run
  exact ⟨rfl, List.append_cancel_left (h.eq.symm.trans h'.eq)⟩

theorem names_iff : Names s name rest ↔ ∃ c more, s = c :: more ∧ isInitial c ∧
    name = c :: more.takeWhile isPart ∧ rest = more.dropWhile isPart := by
  have hcons (c : Char) (more : List Char) (hc : isInitial c) :
      Names (c :: more) (c :: more.takeWhile isPart) (more.dropWhile isPart) := by
    have hpart := PackageName.isPart_of_isInitial hc
    refine ⟨by simp, ?_, c, rfl, hc⟩
    simpa [hpart] using longestRun_takeWhile (c :: more)
  constructor
  · intro h
    obtain ⟨c, hhead, hc⟩ := h.initial
    obtain ⟨more, rfl⟩ := List.head?_eq_some_iff.mp hhead
    obtain rfl := h.eq
    obtain ⟨hname, hrest⟩ := h.unique (hcons c (more ++ rest) hc)
    exact ⟨c, more ++ rest, rfl, hc, hname, hrest⟩
  · rintro ⟨c, more, rfl, hc, rfl, rfl⟩
    exact hcons c more hc

/-- What a line with a name declares. -/
def declared (agent : String) (name rest : List Char) : Requirement where
  agent
  name := normalize (String.ofList name)
  qualifier :=
    if Text.trimChars rest = [] then none else some (String.ofList (Text.trimChars rest))

/-- Everything that a line can come to, by what it says. -/
theorem parseLine_cases {line} (h : Says line.toList s) :
    (s = [] ∧ parseLine agent line = .ok none) ∨
      (∃ name rest, Names s name rest ∧
        parseLine agent line = .ok (some (declared agent name rest))) ∨
      (s ≠ [] ∧ (∀ name rest, ¬ Names s name rest) ∧
        parseLine agent line = .error (.noName (String.ofList s))) := by
  rw [parseLine, says_iff.mp h]
  cases s with
  | nil => exact .inl ⟨rfl, rfl⟩
  | cons c more =>
    by_cases hc : isInitial c
    · refine .inr (.inl ⟨_, _, names_iff.mpr ⟨c, more, rfl, hc, rfl, rfl⟩, ?_⟩)
      simp [hc, declared]
    · refine .inr (.inr ⟨by simp, fun name rest hnames => ?_, by simp [hc]⟩)
      obtain ⟨c', _, heq, hc', -⟩ := names_iff.mp hnames
      obtain rfl := (List.cons.inj heq).1
      exact hc hc'

theorem declared_normal (h : Names s name rest) :
    (declared agent name rest).name ≠ "" ∧
      (∀ c ∈ (declared agent name rest).name.toList, IsNormal c) ∧
      normalize (declared agent name rest).name = (declared agent name rest).name := by
  have hlist : (declared agent name rest).name.toList = name.map PackageName.foldChar :=
    PackageName.toList_normalize h.run.parts
  refine ⟨fun hempty => ?_, fun c hc => ?_, PackageName.normalize_normalize _⟩
  · obtain ⟨c, hhead, -⟩ := h.initial
    rw [hempty] at hlist
    simp [List.map_eq_nil_iff.mp hlist.symm] at hhead
  · rw [hlist] at hc
    obtain ⟨a, ha, rfl⟩ := List.mem_map.mp hc
    exact PackageName.isNormal_foldChar (h.run.parts a ha)

/-- A name, a qualifier and a comment, with blanks before the name and before the comment. -/
theorem says_of_parts (h₁ : Blank w₁) (h₂ : Blank w₂)
    (hn : ∀ c ∈ n, isPart c) (hne : n ≠ []) (hq : '#' ∉ q) :
    Says (w₁ ++ n ++ q ++ w₂ ++ '#' :: comment) (n ++ trimEndChars q) := by
  obtain ⟨c, more, rfl⟩ := List.exists_cons_of_ne_nil hne
  obtain ⟨w, heq, hw, hlast⟩ := Text.exists_trimEndChars q
  refine ⟨⟨fun a ha => ?_, fun a ha => ?_⟩, fun hmem => ?_, w₁, w ++ w₂, '#' :: comment, ?_, h₁,
    hw.append h₂, .inr rfl⟩
  · cases ha
    exact PackageName.isBlank_of_isPart (hn c (by simp))
  · rw [Option.mem_def, List.getLast?_append] at ha
    cases hend : (trimEndChars q).getLast? with
    | none =>
      rw [hend] at ha
      exact PackageName.isBlank_of_isPart (hn a (List.mem_of_mem_getLast? (by simpa using ha)))
    | some b =>
      rw [hend] at ha
      obtain rfl : b = a := by simpa using ha
      exact hlast b hend
  · rcases List.mem_append.mp hmem with hmem | hmem
    · exact PackageName.ne_hash_of_isPart (hn _ hmem) rfl
    · exact hq (heq ▸ List.mem_append_left w hmem)
  · conv_lhs => rw [heq]
    simp

theorem names_of_parts (hn : ∀ c ∈ n, isPart c) (hinitial : ∃ c ∈ n.head?, isInitial c)
    (hq : ∀ c ∈ q.head?, isPart c = false) :
    Names (n ++ trimEndChars q) n (trimEndChars q) := by
  refine ⟨rfl, ?_, hinitial⟩
  obtain ⟨w, heq, -⟩ := Text.exists_trimEndChars q
  have htake : (trimEndChars q).takeWhile isPart = [] := by
    cases hrest : trimEndChars q with
    | nil => rfl
    | cons c more =>
      have hhead : c ∈ q.head? := by
        rw [heq, hrest]
        rfl
      rw [List.takeWhile_cons_of_neg (by simp [hq c hhead])]
  have hrun := longestRun_takeWhile (n ++ trimEndChars q)
  rwa [List.takeWhile_append_of_pos hn, htake, List.append_nil] at hrun

/-- Every line is read by one grammar. A line says exactly one thing, and that alone decides:
nothing is said and there is no requirement, or a name starts what is said and the requirement is
that name in its normal spelling with the rest as its qualifier, or what is said is the flaw. A line
put together from a name, a qualifier and a comment is read back as these parts. -/
theorem parseLine_grammar (agent line : String) :
    ∃ s, (∀ s', Says line.toList s' ↔ s' = s) ∧
      (parseLine agent line = .ok none ↔ s = []) ∧
      (∀ r, parseLine agent line = .ok (some r) ↔
        ∃ name rest, Names s name rest ∧ r = declared agent name rest) ∧
      (∀ flaw, parseLine agent line = .error flaw ↔
        s ≠ [] ∧ (∀ name rest, ¬ Names s name rest) ∧ flaw = .noName (String.ofList s)) ∧
      (∀ name rest name' rest', Names s name rest → Names s name' rest' →
        name' = name ∧ rest' = rest) ∧
      (∀ r, parseLine agent line = .ok (some r) →
        r.name ≠ "" ∧ (∀ c ∈ r.name.toList, IsNormal c) ∧ normalize r.name = r.name) ∧
      (∀ w₁ n q w₂ comment, line.toList = w₁ ++ n ++ q ++ w₂ ++ '#' :: comment →
        Blank w₁ → Blank w₂ → (∀ c ∈ n, isPart c = true) → (∃ c ∈ n.head?, isInitial c = true) →
        '#' ∉ q → (∀ c ∈ q.head?, isPart c = false) →
        parseLine agent line = .ok (some (declared agent n q))) := by
  have hsays : Says line.toList (statement line) := says_iff.mpr rfl
  have hempty (name rest : List Char) : ¬ Names [] name rest := by
    intro h
    obtain ⟨_, _, heq, -⟩ := names_iff.mp h
    cases heq
  have hcases := @parseLine_cases agent _ line hsays
  have hsome (r : Requirement) : parseLine agent line = .ok (some r) ↔
      ∃ name rest, Names (statement line) name rest ∧ r = declared agent name rest := by
    obtain ⟨hs, heq⟩ | ⟨name, rest, hnames, heq⟩ | ⟨-, hnone, heq⟩ := hcases
    · simp [heq, hs, hempty]
    · rw [heq]
      constructor
      · rintro ⟨⟩
        exact ⟨name, rest, hnames, rfl⟩
      · rintro ⟨name', rest', hnames', rfl⟩
        obtain ⟨rfl, rfl⟩ := hnames.unique hnames'
        rfl
    · simp [heq, hnone]
  refine ⟨statement line, fun s' => says_iff.trans eq_comm, ?_, hsome, fun flaw => ?_, ?_, ?_, ?_⟩
  · obtain ⟨hs, heq⟩ | ⟨name, rest, hnames, heq⟩ | ⟨hs, -, heq⟩ := hcases
    · simp [heq, hs]
    · have hs : statement line ≠ [] := fun hs => hempty name rest (hs ▸ hnames)
      simp [heq, hs]
    · simp [heq, hs]
  · obtain ⟨hs, heq⟩ | ⟨name, rest, hnames, heq⟩ | ⟨hs, hnone, heq⟩ := hcases
    · simp [heq, hs]
    · rw [heq]
      refine ⟨nofun, fun h => absurd hnames (h.2.1 name rest)⟩
    · rw [heq]
      simp [hs, hnone, eq_comm]
  · intro name rest name' rest' h h'
    exact h'.unique h
  · intro r hr
    obtain ⟨name, rest, hnames, rfl⟩ := (hsome r).mp hr
    exact declared_normal hnames
  · intro w₁ n q w₂ comment hline h₁ h₂ hn hinitial hq hhead
    have hne : n ≠ [] := by
      rintro rfl
      obtain ⟨_, hc, -⟩ := hinitial
      simp at hc
    have hs : statement line = n ++ trimEndChars q := by
      apply says_iff.mp
      rw [hline]
      exact says_of_parts h₁ h₂ hn hne hq
    refine (hsome _).mpr ⟨n, trimEndChars q, hs ▸ names_of_parts hn hinitial hhead, ?_⟩
    rw [declared, declared, Text.trimChars_trimEndChars]

end Requirement

/-! ### Lines of a file -/

namespace Text

variable {cs w : List Char}

theorem trimChars_append_blank (hw : Blank w) : trimChars (cs ++ w) = trimChars cs := by
  obtain ⟨w₁, w₂, heq, h₁, h₂, htight⟩ := exists_trimChars cs
  have hcs : cs ++ w = w₁ ++ trimChars cs ++ (w₂ ++ w) := by
    rw [← List.append_assoc, ← heq]
  rw [hcs, htight.trimChars_eq h₁ (h₂.append hw)]

theorem linesFrom_append_newline (current a b : List Char) :
    linesFrom current (a ++ '\n' :: b) = linesFrom current (a ++ ['\n']) ++ linesFrom [] b := by
  induction a generalizing current with
  | nil => simp [linesFrom]
  | cons c a ih =>
    by_cases hc : c = '\n'
    · simp [linesFrom, hc, ih]
    · simp [linesFrom, ih]

theorem lines_append (ha : a = "" ∨ ∃ t, a = t ++ "\n") (b : String) :
    lines (a ++ b) = lines a ++ lines b := by
  obtain rfl | ⟨t, rfl⟩ := ha
  · simp [lines, linesFrom]
  · have hb : (t ++ "\n" ++ b).toList = t.toList ++ '\n' :: b.toList := by simp
    have ht : (t ++ "\n").toList = t.toList ++ ['\n'] := by simp
    rw [lines, hb, linesFrom_append_newline, List.map_append, lines, lines, ht]

theorem length_lines (ha : a = "" ∨ ∃ t, a = t ++ "\n") :
    (lines a).length = a.toList.count '\n' := by
  obtain rfl | ⟨t, rfl⟩ := ha
  · rfl
  · have hlen : ∀ cs current, (linesFrom current (cs ++ ['\n'])).length = cs.count '\n' + 1 := by
      intro cs
      induction cs with
      | nil => simp [linesFrom]
      | cons c cs ih =>
        intro current
        by_cases hc : c = '\n'
        · simp [linesFrom, hc, ih]
        · simp [linesFrom, hc, ih]
    simp [lines, hlen]

end Text

namespace Requirement

variable {agent : String} {n : Nat} {before : List String}

/-- All lines can be read. -/
def Flawless (agent : String) (lines : List String) : Prop :=
  ∀ line ∈ lines, ∃ r, parseLine agent line = .ok r

/-- What a line declares, if it declares anything. -/
def declared? (agent line : String) : Option Requirement :=
  (parseLine agent line).toOption.join

theorem parseLines_append (h : Flawless agent before) (after : List String) :
    parseLines agent n (before ++ after) =
      (parseLines agent (n + before.length) after).map (before.filterMap (declared? agent) ++ ·) := by
  induction before generalizing n with
  | nil => cases h : parseLines agent n after <;> simp [h, Except.map]
  | cons line before ih =>
    obtain ⟨⟨r, hline⟩, hbefore⟩ := List.forall_mem_cons.1 h
    rw [List.cons_append, parseLines, hline, ih hbefore, List.length_cons, Nat.add_right_comm]
    have hdeclared : declared? agent line = r := by simp [declared?, hline, Except.toOption]
    cases parseLines agent (n + before.length + 1) after <;> cases r <;>
      simp [Except.map, hdeclared]

theorem parseLines_of_flawless (h : Flawless agent before) :
    parseLines agent n before = .ok (before.filterMap (declared? agent)) := by
  simpa [parseLines, Except.map] using parseLines_append h [] (n := n)

theorem parseLines_of_flaw (h : Flawless agent before)
    (hline : parseLine agent line = .error e) (after : List String) :
    parseLines agent n (before ++ line :: after) = .error (.inLine (n + before.length) e) := by
  rw [parseLines_append h, parseLines, hline]
  rfl

/-- Either all lines can be read, or there is a first one that cannot. -/
theorem flawless_or (agent : String) (lines : List String) : Flawless agent lines ∨
    ∃ before line after e, lines = before ++ line :: after ∧ Flawless agent before ∧
      parseLine agent line = .error e := by
  induction lines with
  | nil => exact .inl (by simp [Flawless])
  | cons line lines ih =>
    cases hline : parseLine agent line with
    | error e => exact .inr ⟨[], line, lines, e, rfl, by simp [Flawless], hline⟩
    | ok r =>
      refine ih.imp (fun h => List.forall_mem_cons.2 ⟨⟨r, hline⟩, h⟩) ?_
      rintro ⟨before, line', after, e, rfl, h, herror⟩
      exact ⟨line :: before, line', after, e, rfl, List.forall_mem_cons.2 ⟨⟨r, hline⟩, h⟩, herror⟩

theorem parseLine_dropReturn (agent : String) (cs : List Char) :
    parseLine agent (String.ofList (dropReturn cs)) = parseLine agent (String.ofList cs) := by
  have hreturn : Text.Blank ['\r'] := by simpa [Text.Blank] using (by decide)
  have hstatement : statement (String.ofList (dropReturn cs)) = statement (String.ofList cs) := by
    rw [dropReturn]
    split
    · next rest hrest =>
      obtain rfl : cs = rest.reverse ++ ['\r'] := by rw [← List.reverse_reverse cs, hrest]; simp
      simp only [statement, String.toList_ofList, List.takeWhile_append]
      split
      · next hlen =>
        rw [(List.takeWhile_prefix _).eq_of_length hlen]
        exact (Text.trimChars_append_blank hreturn).symm
      · rfl
    · rfl
  simp only [parseLine, hstatement]

theorem parseLines_linesFrom_return (agent : String) (a b current : List Char) :
    parseLines agent n ((linesFrom current (a ++ '\r' :: '\n' :: b)).map String.ofList) =
      parseLines agent n ((linesFrom current (a ++ '\n' :: b)).map String.ofList) := by
  induction a generalizing current n with
  | nil =>
    have hline := parseLine_dropReturn agent current.reverse
    simp [linesFrom, dropReturn, parseLines] at hline ⊢
    rw [hline]
  | cons c a ih =>
    by_cases hc : c = '\n'
    · simp [linesFrom, hc, parseLines, ih]
    · simp [linesFrom, ih]

/-- A file is read to what its lines declare, or its flaw is that of the first line with one. -/
theorem parseFile_cases (agent s : String) :
    (Flawless agent (lines s) ∧ parseFile agent s = .ok ((lines s).filterMap (declared? agent))) ∨
    ∃ before line after e, lines s = before ++ line :: after ∧ Flawless agent before ∧
      parseLine agent line = .error e ∧
      parseFile agent s = .error (.inLine (before.length + 1) e) := by
  rcases flawless_or agent (lines s) with h | ⟨before, line, after, e, heq, h, hline⟩
  · exact .inl ⟨h, parseLines_of_flawless h⟩
  · refine .inr ⟨before, line, after, e, heq, h, hline, ?_⟩
    rw [parseFile, heq, parseLines_of_flaw h hline, Nat.add_comm]

/-- Requirement files compose. A file that ends with a line end, or is empty, has as many lines as
line ends; what follows it is read as it is alone, with its lines counted on. A file is read if every
line is, and then to what its lines declare, in their order. Otherwise its flaw is that of the first
line with a flaw, under the number of that line. A carriage return before a line end makes no
difference. -/
theorem parseFile_composes (agent : String) :
    (∀ a b, (a = "" ∨ ∃ t, a = t ++ "\n") →
      (∀ flaw, parseFile agent a = .error flaw → parseFile agent (a ++ b) = .error flaw) ∧
      (∀ xs j e, parseFile agent a = .ok xs → parseFile agent b = .error (.inLine j e) →
        parseFile agent (a ++ b) = .error (.inLine (a.toList.count '\n' + j) e)) ∧
      ∀ xs ys, parseFile agent a = .ok xs → parseFile agent b = .ok ys →
        parseFile agent (a ++ b) = .ok (xs ++ ys)) ∧
    (∀ s, (∃ rs, parseFile agent s = .ok rs) ↔ Flawless agent (lines s)) ∧
    (∀ s rs, parseFile agent s = .ok rs → rs = (lines s).filterMap (declared? agent)) ∧
    (∀ s flaw, parseFile agent s = .error flaw ↔ ∃ before line after e,
      lines s = before ++ line :: after ∧ Flawless agent before ∧
        parseLine agent line = .error e ∧ flaw = .inLine (before.length + 1) e) ∧
    ∀ a b, parseFile agent (a ++ "\r\n" ++ b) = parseFile agent (a ++ "\n" ++ b) := by
  refine ⟨fun a b ha => ?_, fun s => ?_, fun s rs h => ?_, fun s flaw => ⟨fun hflaw => ?_, ?_⟩,
    fun a b => ?_⟩
  · have happend : parseFile agent (a ++ b) = parseLines agent 1 (lines a ++ lines b) := by
      rw [parseFile, Text.lines_append ha]
    rw [happend, ← Text.length_lines ha]
    rcases parseFile_cases agent a with ⟨h, ha⟩ | ⟨before, line, after, e, heq, h, hline, ha⟩
    · rw [ha, parseLines_append h]
      rcases parseFile_cases agent b with ⟨h', hb⟩ | ⟨before, line, after, e, heq, h', hline, hb⟩
      · rw [hb, parseLines_of_flawless h']
        refine ⟨nofun, nofun, ?_⟩
        rintro xs ys ⟨⟩ ⟨⟩
        rfl
      · rw [hb, heq, parseLines_of_flaw h' hline]
        refine ⟨nofun, ?_, nofun⟩
        rintro xs j e ⟨⟩ ⟨⟩
        rw [Except.map, Nat.add_comm 1, Nat.add_assoc, Nat.add_comm 1]
    · rw [ha, heq, List.append_assoc, List.cons_append, parseLines_of_flaw h hline, Nat.add_comm 1]
      exact ⟨fun _ h => h, nofun, nofun⟩
  · rcases parseFile_cases agent s with ⟨h, hs⟩ | ⟨before, line, after, e, heq, -, hline, hs⟩
    · simp [hs, h]
    · refine iff_of_false (by simp [hs]) fun hall => ?_
      obtain ⟨r, hr⟩ := hall line (by simp [heq])
      cases hr.symm.trans hline
  · rcases parseFile_cases agent s with ⟨-, hs⟩ | ⟨_, _, _, _, -, -, -, hs⟩
    · exact (Except.ok.inj (hs.symm.trans h)).symm
    · cases hs.symm.trans h
  · rcases parseFile_cases agent s with ⟨-, hs⟩ | ⟨before, line, after, e, heq, h, hline, hs⟩
    · cases hs.symm.trans hflaw
    · exact ⟨before, line, after, e, heq, h, hline, (Except.error.inj (hs.symm.trans hflaw)).symm⟩
  · rintro ⟨before, line, after, e, heq, h, hline, rfl⟩
    rw [parseFile, heq, parseLines_of_flaw h hline, Nat.add_comm]
  · simpa [parseFile, lines] using parseLines_linesFrom_return agent a.toList b.toList [] (n := 1)

end Requirement

end AgentChain

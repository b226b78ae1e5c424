import AgentChain.Proofs.Json.Depth
import AgentChain.Proofs.Json.Number

/-!
# Written documents are read back

A value may be written compactly or in indented lines. Either text is read to a document with the
same structure, the same names and the same texts; only a float may come back as another float, and
containers that are nested more than 127 levels deep have no value. Blanks are skipped, so the two
texts are treated alike: they are one text with different blanks in it.
-/

namespace AgentChain.Json

/-! ### Texts -/

/-- What is read for a character of a text: control characters without a letter of their own are
written by their numbers. -/
def pieceOf (c : Char) : Piece :=
  if c.toNat < 0x20 ∧ c ∉ ['\x08', '\t', '\n', '\x0c', '\r'] then .unit c.toNat else .char c

theorem scanPieces_escaped (c : Char) (cs : List Char) :
    scanPieces (escaped c ++ cs) = (scanPieces cs).map fun (ps, r) => (pieceOf c :: ps, r) := by
  by_cases hcontrol : c.toNat < 0x20
  · obtain ⟨i, hi, rfl⟩ : ∃ i, i < 32 ∧ c = Char.ofNat i :=
      ⟨c.toNat, hcontrol, (Char.ofNat_toNat c).symm⟩
    interval_cases i <;> rfl
  · by_cases hquote : c = '"'
    · subst hquote
      rfl
    · by_cases hslash : c = '\\'
      · subst hslash
        rfl
      · have hpiece : pieceOf c = .char c := by simp [pieceOf, hcontrol]
        simp only [escaped, hquote, hslash, hcontrol, if_false, List.singleton_append, hpiece]
        simp [scanPieces, hslash, hcontrol]

theorem scanPieces_flatMap (s rest : List Char) :
    scanPieces (s.flatMap escaped ++ '"' :: rest) = some (s.map pieceOf, rest) := by
  induction s with
  | nil => rfl
  | cons c s ih =>
    rw [List.flatMap_cons, List.append_assoc, scanPieces_escaped, ih]
    rfl

theorem joinPieces_unit (hn : n < 0xd800) (ps : List Piece) :
    joinPieces (.unit n :: ps) = (joinPieces ps).map (Char.ofNat n :: ·) := by
  have hhigh : ¬0xd800 ≤ n := by omega
  have hlow : ¬0xdc00 ≤ n := by omega
  match ps with
  | [] => simp [joinPieces, hhigh]
  | .char c :: ps => simp [joinPieces, hhigh]
  | .unit m :: ps => rw [joinPieces]; simp [hhigh, hlow]

theorem joinPieces_map_pieceOf (s : List Char) : joinPieces (s.map pieceOf) = some s := by
  induction s with
  | nil => rfl
  | cons c s ih =>
    rw [List.map_cons, pieceOf]
    split_ifs with hcontrol
    · rw [joinPieces_unit (hcontrol.1.trans (by decide)), ih, Char.ofNat_toNat]
      rfl
    · rw [joinPieces, ih]
      rfl

theorem scanString_quoted (s : String) (rest : List Char) :
    scanString (s.toList.flatMap escaped ++ '"' :: rest) = some (some s, rest) := by
  simp only [scanString, scanPieces_flatMap, Option.map_some, joinPieces_map_pieceOf,
    String.ofList_toList]

/-! ### Values -/

namespace Value

mutual

/-- The value that comes back when a value is written and read. -/
def reread : Value → Value
  | .number n => .number n.reread
  | .array items => .array (rereadItems items)
  | .object members => .object (rereadMembers members)
  | v => v

def rereadItems : List Value → List Value
  | [] => []
  | v :: rest => reread v :: rereadItems rest

def rereadMembers : List (String × Value) → List (String × Value)
  | [] => []
  | (name, v) :: rest => (name, reread v) :: rereadMembers rest

end

end Value

/-! ### Documents that are nested too deeply -/

end AgentChain.Json

namespace AgentChain.Document

open Json (Value within)

mutual

/-- The document of a value when there is room for some levels only. -/
def ofValueWithin (room : Nat) : Value → Document
  | .array items => within room (.list (ofValuesWithin (room - 1) items))
  | .object members => within room (.table (ofMembersWithin (room - 1) members))
  | v => ofValue v

def ofValuesWithin (room : Nat) : List Value → List Document
  | [] => []
  | v :: rest => ofValueWithin room v :: ofValuesWithin room rest

def ofMembersWithin (room : Nat) : List (String × Value) → List (String × Document)
  | [] => []
  | (name, v) :: rest => (name, ofValueWithin room v) :: ofMembersWithin room rest

end

theorem within_of_pos (h : 0 < room) (d : Document) : within room d = d :=
  if_neg h.ne'

theorem of_value?_within (h : (within room d).value? = some w) : 0 < room ∧ d.value? = some w := by
  rw [within] at h
  split at h
  · cases h
  · exact ⟨Nat.pos_of_ne_zero ‹_›, h⟩

mutual

theorem ofValueWithin_of_depth_le (v : Value) (h : v.depth ≤ room) :
    ofValueWithin room v = ofValue v := by
  match v with
  | .null | .bool _ | .number _ | .string _ => rfl
  | .array items =>
    rw [Value.depth] at h
    rw [ofValueWithin, within_of_pos (by omega), ofValue,
      ofValuesWithin_of_depth_le items (by omega)]
  | .object members =>
    rw [Value.depth] at h
    rw [ofValueWithin, within_of_pos (by omega), ofValue,
      ofMembersWithin_of_depth_le members (by omega)]

theorem ofValuesWithin_of_depth_le (items : List Value)
    (h : Value.itemsDepth items ≤ room) : ofValuesWithin room items = ofValues items := by
  match items with
  | [] => rfl
  | v :: items =>
    obtain ⟨hv, hitems⟩ := max_le_iff.mp h
    rw [ofValuesWithin, ofValues, ofValueWithin_of_depth_le v hv,
      ofValuesWithin_of_depth_le items hitems]

theorem ofMembersWithin_of_depth_le (members : List (String × Value))
    (h : Value.membersDepth members ≤ room) :
    ofMembersWithin room members = ofMembers members := by
  match members with
  | [] => rfl
  | (name, v) :: members =>
    obtain ⟨hv, hmembers⟩ := max_le_iff.mp h
    rw [ofMembersWithin, ofMembers, ofValueWithin_of_depth_le v hv,
      ofMembersWithin_of_depth_le members hmembers]

end

mutual

theorem depth_le_of_value?_within (v : Value)
    (h : (ofValueWithin room v).value? = some w) : v.depth ≤ room := by
  match v with
  | .null | .bool _ | .number _ | .string _ => exact Nat.zero_le room
  | .array items =>
    obtain ⟨hroom, h⟩ := of_value?_within h
    obtain ⟨vs, hvs, -⟩ := Option.map_eq_some_iff.mp h
    have hitems := itemsDepth_le_of_values?_within items hvs
    rw [Value.depth]
    omega
  | .object members =>
    obtain ⟨hroom, h⟩ := of_value?_within h
    obtain ⟨ms, hms, -⟩ := Option.map_eq_some_iff.mp h
    have hmembers := membersDepth_le_of_members?_within members hms
    rw [Value.depth]
    omega

theorem itemsDepth_le_of_values?_within (items : List Value)
    (h : values? (ofValuesWithin room items) = some vs) :
    Value.itemsDepth items ≤ room := by
  match items with
  | [] => exact Nat.zero_le room
  | v :: items =>
    obtain ⟨w, hw, h⟩ := Option.bind_eq_some_iff.mp h
    obtain ⟨ws, hws, -⟩ := Option.map_eq_some_iff.mp h
    exact max_le (depth_le_of_value?_within v hw) (itemsDepth_le_of_values?_within items hws)

theorem membersDepth_le_of_members?_within (members : List (String × Value))
    (h : members? (ofMembersWithin room members) = some ms) :
    Value.membersDepth members ≤ room := by
  match members with
  | [] => exact Nat.zero_le room
  | (name, v) :: members =>
    obtain ⟨w, hw, h⟩ := Option.bind_eq_some_iff.mp h
    obtain ⟨ws, hws, -⟩ := Option.map_eq_some_iff.mp h
    exact max_le (depth_le_of_value?_within v hw) (membersDepth_le_of_members?_within members hws)

end

end AgentChain.Document

namespace AgentChain.Json

namespace Value

mutual

theorem depth_reread (v : Value) : v.reread.depth = v.depth := by
  match v with
  | .null | .bool _ | .number _ | .string _ => rfl
  | .array items => rw [reread, depth, depth, itemsDepth_reread items]
  | .object members => rw [reread, depth, depth, membersDepth_reread members]

theorem itemsDepth_reread (items : List Value) :
    itemsDepth (rereadItems items) = itemsDepth items := by
  match items with
  | [] => rfl
  | v :: items => rw [rereadItems, itemsDepth, itemsDepth, depth_reread v, itemsDepth_reread items]

theorem membersDepth_reread (members : List (String × Value)) :
    membersDepth (rereadMembers members) = membersDepth members := by
  match members with
  | [] => rfl
  | (name, v) :: members =>
    rw [rereadMembers, membersDepth, membersDepth, depth_reread v, membersDepth_reread members]

end

end Value

/-! ### Texts with blanks in them -/

/-- The blanks in a text: what stands for the end of a line and the indentation of the next one, by
its level, and what stands between a colon and a value. -/
structure Spacing where
  line : Nat → List Char
  gap : List Char
  isSpace_line : ∀ level, ∀ c ∈ line level, isSpace c = true
  isSpace_gap : ∀ c ∈ gap, isSpace c = true

namespace Spacing

def none : Spacing where
  line _ := []
  gap := []
  isSpace_line _ := by simp
  isSpace_gap := by simp

/-- Indented lines. -/
def lines : Spacing where
  line := Value.newLine
  gap := [' ']
  isSpace_line level c hc := by
    obtain rfl | hc := List.mem_cons.mp hc
    · rfl
    · rw [List.eq_of_mem_replicate hc]
      rfl
  isSpace_gap c hc := by
    rw [List.mem_singleton.mp hc]
    rfl

end Spacing

namespace Value

mutual

def spaced (sp : Spacing) (level : Nat) : Value → List Char
  | .array (v :: rest) =>
    '[' :: (sp.line (level + 1) ++ (spacedItems sp (level + 1) (v :: rest) ++
      (sp.line level ++ [']'])))
  | .object (m :: rest) =>
    '\x7b' :: (sp.line (level + 1) ++ (spacedMembers sp (level + 1) (m :: rest) ++
      (sp.line level ++ ['\x7d'])))
  | v => compactChars v

def spacedItems (sp : Spacing) (level : Nat) : List Value → List Char
  | [] => []
  | [v] => spaced sp level v
  | v :: w :: rest => spaced sp level v ++ ',' :: (sp.line level ++ spacedItems sp level (w :: rest))

def spacedMembers (sp : Spacing) (level : Nat) : List (String × Value) → List Char
  | [] => []
  | [(name, v)] => quoted name ++ ':' :: (sp.gap ++ spaced sp level v)
  | (name, v) :: m :: rest =>
    quoted name ++ ':' :: (sp.gap ++ (spaced sp level v ++ ',' ::
      (sp.line level ++ spacedMembers sp level (m :: rest))))

end

mutual

theorem spaced_none (level : Nat) (v : Value) : v.spaced .none level = v.compactChars := by
  match v with
  | .null | .bool _ | .number _ | .string _ | .array [] | .object [] => rw [spaced] <;> simp
  | .array (v :: items) =>
    rw [spaced, spacedItems_none _ (v :: items), compactChars]
    rfl
  | .object (m :: members) =>
    rw [spaced, spacedMembers_none _ (m :: members), compactChars]
    rfl

theorem spacedItems_none (level : Nat) (items : List Value) :
    spacedItems .none level items = compactItems items := by
  match items with
  | [] => rfl
  | [v] => rw [spacedItems, compactItems, spaced_none level v]
  | v :: w :: items =>
    rw [spacedItems, compactItems, spaced_none level v, spacedItems_none level (w :: items)]
    rfl

theorem spacedMembers_none (level : Nat) (members : List (String × Value)) :
    spacedMembers .none level members = compactMembers members := by
  match members with
  | [] => rfl
  | [(name, v)] =>
    rw [spacedMembers, compactMembers, spaced_none level v]
    rfl
  | (name, v) :: m :: members =>
    rw [spacedMembers, compactMembers, spaced_none level v, spacedMembers_none level (m :: members)]
    rfl

end

mutual

theorem spaced_lines (level : Nat) (v : Value) : v.spaced .lines level = v.prettyChars level := by
  match v with
  | .null | .bool true | .bool false | .number _ | .string _ | .array [] | .object [] => rfl
  | .array (v :: items) =>
    rw [spaced, spacedItems_lines _ (v :: items), prettyChars, List.append_assoc, List.append_assoc]
    rfl
  | .object (m :: members) =>
    rw [spaced, spacedMembers_lines _ (m :: members), prettyChars, List.append_assoc,
      List.append_assoc]
    rfl

theorem spacedItems_lines (level : Nat) (items : List Value) :
    spacedItems .lines level items = prettyItems level items := by
  match items with
  | [] => rfl
  | [v] => rw [spacedItems, prettyItems, spaced_lines level v]
  | v :: w :: items =>
    rw [spacedItems, prettyItems, spaced_lines level v, spacedItems_lines level (w :: items)]
    rfl

theorem spacedMembers_lines (level : Nat) (members : List (String × Value)) :
    spacedMembers .lines level members = prettyMembers level members := by
  match members with
  | [] => rfl
  | [(name, v)] =>
    rw [spacedMembers, prettyMembers, spaced_lines level v]
    rfl
  | (name, v) :: m :: members =>
    rw [spacedMembers, prettyMembers, spaced_lines level v, spacedMembers_lines level (m :: members)]
    rfl

end

end Value

/-! ### What is read at the start of a value -/

section Start

variable {fuel room : Nat} {c : Char} {cs blanks : List Char} {cs' : List Char}

theorem skipSpace_cons (hc : isSpace c = false) : skipSpace (c :: cs) = c :: cs := by
  simp [skipSpace, hc]

theorem skipSpace_blanks (h : ∀ c ∈ blanks, isSpace c) :
    skipSpace (blanks ++ cs) = skipSpace cs := by
  induction blanks with
  | nil => rfl
  | cons c blanks ih =>
    rw [List.cons_append, skipSpace, List.dropWhile_cons_of_pos (h c List.mem_cons_self)]
    exact ih fun c' hc' => h c' (List.mem_cons_of_mem _ hc')

theorem scanValue_congr (h : skipSpace cs = skipSpace cs') :
    scanValue fuel room cs = scanValue fuel room cs' := by
  cases fuel with
  | zero => rfl
  | succ fuel => rw [scanValue, scanValue, h]

theorem scanItems_congr (h : skipSpace cs = skipSpace cs') :
    scanItems fuel room cs = scanItems fuel room cs' := by
  cases fuel with
  | zero => rfl
  | succ fuel => rw [scanItems, scanItems, scanValue_congr h]

theorem scanMembers_congr (h : skipSpace cs = skipSpace cs') :
    scanMembers fuel room cs = scanMembers fuel room cs' := by
  cases fuel with
  | zero => rfl
  | succ fuel => rw [scanMembers, scanMembers, h]

theorem isSpace_of_number (hc : c.isDigit ∨ c = '-') : isSpace c = false := by
  obtain hc | rfl := hc
  · by_contra hspace
    simp only [isSpace, Bool.not_eq_false, Bool.or_eq_true, decide_eq_true_eq] at hspace
    obtain ((rfl | rfl) | rfl) | rfl := hspace <;> cases hc
  · rfl

theorem scanValue_number (hc : c.isDigit ∨ c = '-') :
    scanValue (fuel + 1) room (c :: cs) =
      (scanNumber (c :: cs)).map fun (n, r) => (n.elim .unreadable .number, r) := by
  rw [scanValue, skipSpace_cons (isSpace_of_number hc)]
  split
  all_goals first
    | rfl
    | rename_i heq
      obtain ⟨rfl, -⟩ := List.cons.inj heq
      simp at hc

theorem scanValue_array (h : ∀ c ∈ blanks, isSpace c) (hspace : isSpace c = false)
    (hc : c ≠ ']') : scanValue (fuel + 1) room ('[' :: (blanks ++ c :: cs)) =
      (scanItems fuel (room - 1) (c :: cs)).map fun (ds, r) => (within room (.list ds), r) := by
  have hbracket : isSpace '[' = false := rfl
  simp only [scanValue, skipSpace_cons hbracket, skipSpace_blanks h, skipSpace_cons hspace]
  split
  · rename_i heq
    exact absurd (List.cons.inj heq).1 hc
  · rfl

theorem scanValue_object (h : ∀ c ∈ blanks, isSpace c) :
    scanValue (fuel + 1) room ('\x7b' :: (blanks ++ '"' :: cs)) =
      (scanMembers fuel (room - 1) ('"' :: cs)).map fun (es, r) => (within room (tableOf es), r) := by
  have hbrace : isSpace '\x7b' = false := rfl
  have hquote : isSpace '"' = false := rfl
  simp only [scanValue, skipSpace_cons hbrace, skipSpace_blanks h, skipSpace_cons hquote]
  rfl

end Start

section Text

variable (sp : Spacing) (level : Nat)

theorem Value.exists_head_spaced (v : Value) :
    ∃ c cs, v.spaced sp level = c :: cs ∧ isSpace c = false ∧ c ≠ ']' := by
  match v with
  | .null | .bool true | .bool false | .string _ | .array [] | .array (_ :: _) | .object []
  | .object (_ :: _) => exact ⟨_, _, rfl, rfl, by decide⟩
  | .number n =>
    obtain ⟨c, cs, hchars, hc⟩ := n.exists_head_chars
    refine ⟨c, cs, hchars, isSpace_of_number hc, ?_⟩
    rintro rfl
    simp at hc

theorem Value.length_spaced_pos (v : Value) : 0 < (v.spaced sp level).length := by
  obtain ⟨c, cs, hchars, -⟩ := v.exists_head_spaced sp level
  simp [hchars]

theorem Value.exists_head_spacedItems (v : Value) (items : List Value) :
    ∃ c cs, spacedItems sp level (v :: items) = c :: cs ∧ isSpace c = false ∧ c ≠ ']' := by
  obtain ⟨c, cs, hchars, hspace, hc⟩ := v.exists_head_spaced sp level
  cases items with
  | nil => exact ⟨c, cs, hchars, hspace, hc⟩
  | cons w items => exact ⟨c, _, by rw [spacedItems, hchars]; rfl, hspace, hc⟩

theorem Value.exists_head_spacedMembers (name : String) (v : Value)
    (members : List (String × Value)) :
    ∃ cs, spacedMembers sp level ((name, v) :: members) = '"' :: cs := by
  cases members with
  | nil => exact ⟨_, rfl⟩
  | cons m members => exact ⟨_, rfl⟩

theorem endsNumber_of_isSpace (h : ∀ c, cs.head? = some c → isSpace c) : EndsNumber cs := by
  intro c hc
  have hspace := h c hc
  simp only [isSpace, Bool.or_eq_true, decide_eq_true_eq] at hspace
  obtain ((rfl | rfl) | rfl) | rfl := hspace <;> decide

theorem endsNumber_blanks (h : ∀ c ∈ blanks, isSpace c)
    (cs : List Char) (hc : c ∈ [',', ']', '\x7d', '\x7b']) : EndsNumber (blanks ++ c :: cs) := by
  cases blanks with
  | nil =>
    intro d hd
    obtain rfl : c = d := by simpa using hd
    simp only [List.mem_cons, List.not_mem_nil, or_false] at hc
    obtain rfl | rfl | rfl | rfl := hc <;> decide
  | cons b blanks =>
    refine endsNumber_of_isSpace fun d hd => ?_
    obtain rfl : b = d := by simpa using hd
    exact h b List.mem_cons_self

theorem endsNumber_comma (cs : List Char) : EndsNumber (',' :: cs) :=
  endsNumber_blanks (List.forall_mem_nil _) cs (by simp)

end Text

theorem tableOf_map_some (members : List (String × Document)) :
    tableOf (members.map fun m => (some m.1, m.2)) = .table members := by
  have hmap : (fun e : Option String × Document => (e.1.getD "", e.2)) ∘
      (fun m : String × Document => (some m.1, m.2)) = id := rfl
  simp [tableOf, hmap]

theorem scanMembers_quoted (fuel room : Nat) (name : String) (cs : List Char) :
    scanMembers (fuel + 1) room (quoted name ++ ':' :: cs) =
      (scanValue fuel room cs).bind fun (d, rest) =>
        match skipSpace rest with
        | ',' :: rest => (scanMembers fuel room rest).map fun (es, r) => ((some name, d) :: es, r)
        | '\x7d' :: rest => some ([(some name, d)], rest)
        | _ => none := by
  have hname := scanString_quoted name (':' :: cs)
  rw [quoted, List.cons_append, List.append_assoc, List.singleton_append, scanMembers,
    skipSpace_cons rfl]
  change (scanString (name.toList.flatMap escaped ++ '"' :: ':' :: cs)).bind _ = _
  rw [hname]
  rfl

open Value (spaced spacedItems spacedMembers)

mutual

/-- A written value is read, whatever follows it. The fuel must do for the text; where the room does
not do for the value, the document is unreadable. -/
theorem scanValue_spaced (sp : Spacing) (level : Nat) (v : Value)
    (hfuel : 2 * (v.spaced sp level).length ≤ fuel + 1) (hrest : EndsNumber rest) :
    scanValue fuel room (v.spaced sp level ++ rest) =
      some (Document.ofValueWithin room v.reread, rest) := by
  obtain ⟨fuel, rfl⟩ : ∃ f, fuel = f + 1 :=
    ⟨fuel - 1, by have := v.length_spaced_pos sp level; omega⟩
  match v with
  | .null => rfl
  | .bool true => rfl
  | .bool false => rfl
  | .number n =>
    obtain ⟨c, cs, hchars, hc⟩ := n.exists_head_chars
    have hscan := scanNumber_chars n hrest
    change scanValue _ _ (n.chars ++ rest) = _
    rw [hchars, List.cons_append, scanValue_number hc, ← List.cons_append, ← hchars, hscan]
    rfl
  | .string s =>
    have hstring := scanString_quoted s rest
    change scanValue _ _ (quoted s ++ rest) = _
    rw [quoted, List.cons_append, List.append_assoc]
    change (scanString (s.toList.flatMap escaped ++ '"' :: rest)).map _ = _
    rw [hstring]
    rfl
  | .array [] => rfl
  | .object [] => rfl
  | .array (w :: items) =>
    have hitems : scanItems fuel (room - 1) (spacedItems sp (level + 1) (w :: items) ++
        (sp.line level ++ ']' :: rest)) = _ :=
      scanItems_spaced sp (level + 1) (w :: items) (List.cons_ne_nil _ _)
        (by simp only [spaced, List.length_cons, List.length_append] at hfuel; omega)
        (sp.isSpace_line level)
    obtain ⟨c, cs, hchars, hspace, hc⟩ := Value.exists_head_spacedItems sp (level + 1) w items
    have htext : (Value.array (w :: items)).spaced sp level ++ rest =
        '[' :: (sp.line (level + 1) ++ (spacedItems sp (level + 1) (w :: items) ++
          (sp.line level ++ ']' :: rest))) := by
      simp [spaced]
    rw [hchars, List.cons_append] at hitems htext
    rw [htext, scanValue_array (sp.isSpace_line _) hspace hc, hitems]
    rfl
  | .object ((name, w) :: members) =>
    have hmembers : scanMembers fuel (room - 1)
        (spacedMembers sp (level + 1) ((name, w) :: members) ++
          (sp.line level ++ '\x7d' :: rest)) = _ :=
      scanMembers_spaced sp (level + 1) ((name, w) :: members) (List.cons_ne_nil _ _)
        (by simp only [spaced, List.length_cons, List.length_append] at hfuel; omega)
        (sp.isSpace_line level)
    obtain ⟨cs, hchars⟩ := Value.exists_head_spacedMembers sp (level + 1) name w members
    have htext : (Value.object ((name, w) :: members)).spaced sp level ++ rest =
        '\x7b' :: (sp.line (level + 1) ++
          (spacedMembers sp (level + 1) ((name, w) :: members) ++
            (sp.line level ++ '\x7d' :: rest))) := by
      simp [spaced]
    rw [hchars, List.cons_append] at hmembers htext
    rw [htext, scanValue_object (sp.isSpace_line _), hmembers]
    exact congrArg (fun d => some (within room d, rest)) (tableOf_map_some _)

theorem scanItems_spaced (sp : Spacing) (level : Nat) (items : List Value) (hne : items ≠ [])
    (hfuel : 2 * (spacedItems sp level items).length ≤ fuel) (hblanks : ∀ c ∈ blanks, isSpace c) :
    scanItems fuel room (spacedItems sp level items ++ (blanks ++ ']' :: rest)) =
      some (Document.ofValuesWithin room (Value.rereadItems items), rest) := by
  match items with
  | [] => exact absurd rfl hne
  | [v] =>
    have hlength := v.length_spaced_pos sp level
    rw [spacedItems] at hfuel ⊢
    obtain ⟨fuel, rfl⟩ : ∃ f, fuel = f + 1 := ⟨fuel - 1, by omega⟩
    rw [scanItems, scanValue_spaced sp level v hfuel (endsNumber_blanks hblanks rest (by simp))]
    simp only [Option.bind_some, skipSpace_blanks hblanks]
    rfl
  | v :: w :: items =>
    have hlength := v.length_spaced_pos sp level
    rw [spacedItems, List.length_append, List.length_cons, List.length_append] at hfuel
    obtain ⟨fuel, rfl⟩ : ∃ f, fuel = f + 1 := ⟨fuel - 1, by omega⟩
    have hitems : scanItems fuel room (spacedItems sp level (w :: items) ++
        (blanks ++ ']' :: rest)) = _ :=
      scanItems_spaced sp level (w :: items) (List.cons_ne_nil _ _) (by omega) hblanks
    rw [spacedItems, List.append_assoc, List.cons_append, List.append_assoc, scanItems,
      scanValue_spaced sp level v (by omega) (endsNumber_comma _)]
    change (scanItems fuel room (sp.line level ++ (spacedItems sp level (w :: items) ++
      (blanks ++ ']' :: rest)))).map _ = _
    rw [scanItems_congr (skipSpace_blanks (sp.isSpace_line level)), hitems]
    rfl

theorem scanMembers_spaced (sp : Spacing) (level : Nat) (members : List (String × Value))
    (hne : members ≠ []) (hfuel : 2 * (spacedMembers sp level members).length ≤ fuel)
    (hblanks : ∀ c ∈ blanks, isSpace c) :
    scanMembers fuel room (spacedMembers sp level members ++ (blanks ++ '\x7d' :: rest)) =
      some ((Document.ofMembersWithin room (Value.rereadMembers members)).map
        fun m => (some m.1, m.2), rest) := by
  match members with
  | [] => exact absurd rfl hne
  | [(name, v)] =>
    have hlength := v.length_spaced_pos sp level
    rw [spacedMembers, List.length_append, List.length_cons, List.length_append] at hfuel
    obtain ⟨fuel, rfl⟩ : ∃ f, fuel = f + 1 := ⟨fuel - 1, by omega⟩
    rw [spacedMembers, List.append_assoc, List.cons_append, List.append_assoc,
      scanMembers_quoted, scanValue_congr (skipSpace_blanks sp.isSpace_gap),
      scanValue_spaced sp level v (by omega) (endsNumber_blanks hblanks rest (by simp))]
    simp only [Option.bind_some, skipSpace_blanks hblanks]
    rfl
  | (name, v) :: m :: members =>
    have hlength := v.length_spaced_pos sp level
    simp only [spacedMembers, List.length_append, List.length_cons] at hfuel
    obtain ⟨fuel, rfl⟩ : ∃ f, fuel = f + 1 := ⟨fuel - 1, by omega⟩
    have hmembers : scanMembers fuel room (spacedMembers sp level (m :: members) ++
        (blanks ++ '\x7d' :: rest)) = _ :=
      scanMembers_spaced sp level (m :: members) (List.cons_ne_nil _ _) (by omega) hblanks
    have htext : spacedMembers sp level ((name, v) :: m :: members) ++
        (blanks ++ '\x7d' :: rest) = quoted name ++ ':' :: (sp.gap ++ (v.spaced sp level ++
          ',' :: (sp.line level ++ (spacedMembers sp level (m :: members) ++
            (blanks ++ '\x7d' :: rest))))) := by
      simp [spacedMembers]
    rw [htext, scanMembers_quoted, scanValue_congr (skipSpace_blanks sp.isSpace_gap),
      scanValue_spaced sp level v (by omega) (endsNumber_comma _)]
    change (scanMembers fuel room (sp.line level ++ (spacedMembers sp level (m :: members) ++
      (blanks ++ '\x7d' :: rest)))).map _ = _
    rw [scanMembers_congr (skipSpace_blanks (sp.isSpace_line level)), hmembers]
    rfl

end

theorem parse?_spaced (sp : Spacing) (v : Value) (hblanks : ∀ c ∈ blanks, isSpace c) :
    parse? (String.ofList (v.spaced sp 0 ++ blanks)) =
      some (Document.ofValueWithin depthLimit v.reread) := by
  have hends : EndsNumber blanks :=
    endsNumber_of_isSpace fun c hc => hblanks c (List.mem_of_mem_head? hc)
  have hskip : skipSpace (blanks ++ []) = [] := skipSpace_blanks hblanks
  rw [List.append_nil] at hskip
  rw [parse?, String.toList_ofList, parseChars?,
    scanValue_spaced sp 0 v (by rw [List.length_append]; omega) hends]
  simp [hskip]

theorem parse?_compact (v : Value) :
    parse? v.compact = some (Document.ofValueWithin depthLimit v.reread) := by
  rw [Value.compact, ← Value.spaced_none 0]
  simpa using parse?_spaced .none v (List.forall_mem_nil _)

/-- The lines of a value that is not nested too deeply are read to the document of what comes back.
-/
theorem parse?_pretty {v : Value} (h : v.depth ≤ depthLimit) :
    parse? (v.pretty ++ "\n") = some (Document.ofValue v.reread) := by
  have htext : v.pretty ++ "\n" = String.ofList (v.spaced .lines 0 ++ ['\n']) := by
    rw [Value.pretty, Value.spaced_lines, String.ofList_append]
  rw [htext, parse?_spaced .lines v (by simp [isSpace]),
    Document.ofValueWithin_of_depth_le _ (v.depth_reread.trans_le h)]

end AgentChain.Json

/-! ### The value of the document of a value -/

namespace AgentChain.Document

open Json (Value)

mutual

theorem exists_value?_ofValue (v : Value) : ∃ w, (ofValue v).value? = some w := by
  match v with
  | .null | .bool _ | .number _ | .string _ => exact ⟨_, rfl⟩
  | .array items =>
    obtain ⟨vs, hvs⟩ := exists_values?_ofValues items
    exact ⟨_, by rw [ofValue, value?, hvs]; rfl⟩
  | .object members =>
    obtain ⟨ms, hms⟩ := exists_members?_ofMembers members
    exact ⟨_, by rw [ofValue, value?, hms]; rfl⟩

theorem exists_values?_ofValues (items : List Value) :
    ∃ vs, values? (ofValues items) = some vs := by
  match items with
  | [] => exact ⟨_, rfl⟩
  | v :: items =>
    obtain ⟨w, hw⟩ := exists_value?_ofValue v
    obtain ⟨vs, hvs⟩ := exists_values?_ofValues items
    exact ⟨w :: vs, by rw [ofValues, values?, hw, hvs]; rfl⟩

theorem exists_members?_ofMembers (members : List (String × Value)) :
    ∃ ms, members? (ofMembers members) = some ms := by
  match members with
  | [] => exact ⟨_, rfl⟩
  | (name, v) :: members =>
    obtain ⟨w, hw⟩ := exists_value?_ofValue v
    obtain ⟨ms, hms⟩ := exists_members?_ofMembers members
    exact ⟨(name, w) :: ms, by rw [ofMembers, members?, hw, hms]; rfl⟩

end

end AgentChain.Document

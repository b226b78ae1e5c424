import AgentChain.Download
import Mathlib.Data.List.Forall2
import Mathlib.Logic.Function.Iterate
import Mathlib.Tactic.Common

/-!
# Repeated downloads

A fetcher gives one answer after another. The first acceptable one ends a download; if there is none
among those that the policy allows, each of them gives a reason. A body is acceptable if no hash is
expected or if it has the expected hash, in any letter case.
-/

namespace AgentChain.Download

/-! ### Hashes in any letter case -/

theorem isUpper_iff {c : Char} : c.isUpper ↔ 65 ≤ c.toNat ∧ c.toNat ≤ 90 := by
  change decide (65 ≤ c.toNat ∧ c.toNat ≤ 90) ↔ _
  exact decide_eq_true_iff

theorem toNat_toLower (c : Char) : c.toLower.toNat = if c.isUpper then c.toNat + 32 else c.toNat := by
  by_cases h : c.isUpper
  · have hle := (isUpper_iff.1 h).2
    have hsum : (c.val + 32).toNat = c.toNat + 32 := by
      rw [UInt32.toNat_add]
      exact Nat.mod_eq_of_lt (show c.toNat + 32 < 2 ^ 32 by omega)
    delta Char.toLower
    rw [if_pos h, dif_pos (of_decide_eq_true h)]
    exact hsum
  · delta Char.toLower
    rw [if_neg h, dif_neg fun hcapital => h (decide_eq_true hcapital)]

/-- One character is the other, or they are the two cases of one letter. -/
def SameLetter (a b : Char) : Prop :=
  a = b ∨ (a.isUpper = true ∧ b.toNat = a.toNat + 32) ∨ (b.isUpper = true ∧ a.toNat = b.toNat + 32)

theorem toLower_eq_toLower_iff {a b : Char} : a.toLower = b.toLower ↔ SameLetter a b := by
  rw [SameLetter, ← Char.toNat_inj, ← Char.toNat_inj, toNat_toLower, toNat_toLower]
  split <;> split <;> simp_all [isUpper_iff] <;> omega

/-- Two texts are the same but for the case of their letters. -/
def SameButCase (a b : String) : Prop :=
  List.Forall₂ SameLetter a.toList b.toList

theorem sameHash_iff : sameHash a b ↔ SameButCase a b := by
  rw [sameHash, decide_eq_true_iff, SameButCase, ← List.forall₂_eq_eq_eq,
    List.forall₂_map_left_iff, List.forall₂_map_right_iff]
  simp only [toLower_eq_toLower_iff]

/-! ### One answer -/

variable {S : Type} {fetcher : Fetcher S} {package url reason : String} {expected : Option String}
  {answer : Except (List String) Bytes} {body : Bytes} {n : Nat} {s t : S}

def Fits (expected : Option String) (body : Bytes) : Prop :=
  ∀ hash ∈ expected, SameButCase (Sha256.hex body) hash

def Acceptable (expected : Option String) (answer : Except (List String) Bytes) : Prop :=
  ∃ body, answer = .ok body ∧ Fits expected body

/-- A reason why an attempt failed tells its number, and what went wrong or the two hashes. -/
inductive Explains (expected : Option String) (attempt : Nat) :
    Except (List String) Bytes → String → Prop
  | failed (reasons : List String) :
    Explains expected attempt (.error reasons) (s!"attempt {attempt}: " ++ Text.join ": " reasons)
  | mismatch {hash : String} {body : Bytes} (h : expected = some hash) :
    Explains expected attempt (.ok body)
      s!"attempt {attempt}: sha256 mismatch (expected {hash}, got {Sha256.hex body})"

theorem judge_cases (expected : Option String) (n : Nat) (answer : Except (List String) Bytes) :
    (∃ body, answer = .ok body ∧ Fits expected body ∧ judge expected n answer = .ok body) ∨
      ∃ reason, ¬ Acceptable expected answer ∧ Explains expected n answer reason ∧
        judge expected n answer = .error reason := by
  cases answer with
  | error reasons => exact .inr ⟨_, by rintro ⟨_, ⟨⟩, -⟩, .failed reasons, rfl⟩
  | ok body =>
    cases expected with
    | none => exact .inl ⟨body, rfl, nofun, rfl⟩
    | some hash =>
      by_cases h : sameHash (Sha256.hex body) hash
      · refine .inl ⟨body, rfl, fun _ hhash => ?_, if_pos h⟩
        cases hhash
        exact sameHash_iff.1 h
      · refine .inr ⟨_, ?_, .mismatch rfl, if_neg h⟩
        rintro ⟨_, ⟨⟩, hfits⟩
        exact h (sameHash_iff.2 (hfits hash rfl))

/-! ### One answer after another -/

def stateAfter (fetcher : Fetcher S) (url : String) (n : Nat) (s : S) : S :=
  (fun s => (fetcher.fetch url s).2)^[n] s

def answerAfter (fetcher : Fetcher S) (url : String) (n : Nat) (s : S) : Except (List String) Bytes :=
  (fetcher.fetch url (stateAfter fetcher url n s)).1

/-- The answer after so many others is the first acceptable one. -/
def FirstAcceptable (fetcher : Fetcher S) (url : String) (expected : Option String) (s : S) (n : Nat)
    (body : Bytes) : Prop :=
  answerAfter fetcher url n s = .ok body ∧ Fits expected body ∧
    ∀ i < n, ¬ Acceptable expected (answerAfter fetcher url i s)

theorem FirstAcceptable.eq (h : FirstAcceptable fetcher url expected s n body)
    (h' : FirstAcceptable fetcher url expected s m body') : n = m ∧ body = body' := by
  obtain rfl : n = m := by
    rcases Nat.lt_trichotomy n m with hlt | heq | hlt
    · exact absurd ⟨body, h.1, h.2.1⟩ (h'.2.2 n hlt)
    · exact heq
    · exact absurd ⟨body', h'.1, h'.2.1⟩ (h.2.2 m hlt)
  exact ⟨rfl, Except.ok.inj (h.1.symm.trans h'.1)⟩

theorem attempts_cases (fetcher : Fetcher S) (url : String) (expected : Option String)
    (left number : Nat) (s : S) :
    (∃ n < left, ∃ body, FirstAcceptable fetcher url expected s n body ∧
      attempts fetcher url expected left number s = (.ok body, stateAfter fetcher url (n + 1) s)) ∨
    (∀ i < left, ¬ Acceptable expected (answerAfter fetcher url i s)) ∧
      ∃ reasons, attempts fetcher url expected left number s =
        (.error reasons, stateAfter fetcher url left s) ∧ reasons.length = left ∧
        ∀ i reason, reasons[i]? = some reason →
          Explains expected (number + i) (answerAfter fetcher url i s) reason := by
  induction left generalizing number s with
  | zero => exact .inr ⟨nofun, [], rfl, rfl, by simp⟩
  | succ left ih =>
    rw [attempts]
    rcases judge_cases expected number (fetcher.fetch url s).1 with
      ⟨body, hanswer, hfits, hjudge⟩ | ⟨reason, hnot, hreason, hjudge⟩
    · refine .inl ⟨0, Nat.succ_pos left, body, ⟨hanswer, hfits, nofun⟩, ?_⟩
      simp only [hjudge]
      rfl
    have hfirst : ∀ {n}, (∀ i < n, ¬ Acceptable expected
        (answerAfter fetcher url i (fetcher.fetch url s).2)) →
        ∀ i < n + 1, ¬ Acceptable expected (answerAfter fetcher url i s) := by
      intro n h i hi
      cases i with
      | zero => exact hnot
      | succ i => exact h i (Nat.lt_of_succ_lt_succ hi)
    simp only [hjudge]
    rcases ih (number + 1) (fetcher.fetch url s).2 with
      ⟨n, hn, body, ⟨hanswer, hfits, hbefore⟩, hres⟩ | ⟨hall, reasons, hres, hlength, hreasons⟩
    · rw [hres]
      exact .inl ⟨n + 1, Nat.succ_lt_succ hn, body, ⟨hanswer, hfits, hfirst hbefore⟩, rfl⟩
    · rw [hres]
      refine .inr ⟨hfirst hall, reason :: reasons, rfl, by rw [List.length_cons, hlength], ?_⟩
      intro i reason' hi
      cases i with
      | zero =>
        cases hi
        exact hreason
      | succ i => exact Nat.add_right_comm number 1 i ▸ hreasons i reason' hi

theorem fetch_eq (fetcher : Fetcher S) (package url : String) (expected : Option String)
    (policy : Config.RetryPolicy) (s : S) :
    fetch fetcher package url expected policy s =
      ((attempts fetcher url expected policy.maxAttempts.toNat 1 s).1.mapError fun reasons =>
        { package, url, attempts := reasons },
        (attempts fetcher url expected policy.maxAttempts.toNat 1 s).2) :=
  rfl

theorem fits_of_fetch
    (h : fetch fetcher package url expected policy s = (.ok body, t)) : Fits expected body := by
  rw [fetch_eq] at h
  rcases attempts_cases fetcher url expected policy.maxAttempts.toNat 1 s with
    ⟨n, -, body', hfirst, hres⟩ | ⟨-, reasons, hres, -⟩ <;> rw [hres] at h <;> cases h
  exact hfirst.2.1

theorem exists_stateAfter_of_fetch (hattempts : 0 < policy.maxAttempts)
    (h : fetch fetcher package url expected policy s = (r, t)) :
    (∃ n ≠ 0, t = stateAfter fetcher url n s) ∧ ∀ f, r = .error f → f.attempts ≠ [] := by
  have hpos : 0 < policy.maxAttempts.toNat := hattempts
  rw [fetch_eq] at h
  rcases attempts_cases fetcher url expected policy.maxAttempts.toNat 1 s with
    ⟨n, -, body, -, hres⟩ | ⟨-, reasons, hres, hlength, -⟩ <;> rw [hres] at h <;> cases h
  · exact ⟨⟨n + 1, by simp, rfl⟩, nofun⟩
  · refine ⟨⟨_, Nat.pos_iff_ne_zero.mp hpos, rfl⟩, ?_⟩
    rintro _ ⟨⟩
    exact List.ne_nil_of_length_pos (hlength ▸ hpos)

/-- A download returns the body of the first acceptable answer among those that the policy allows, after
as many fetches. If there is none, it fails after all of them, with one reason for each. A body with a
wrong hash is never returned. -/
theorem fetch_returns_first_acceptable (fetcher : Fetcher S) (package url : String)
    (expected : Option String) (policy : Config.RetryPolicy) (s : S) :
    (∀ n < policy.maxAttempts.toNat, ∀ body, FirstAcceptable fetcher url expected s n body →
      fetch fetcher package url expected policy s = (.ok body, stateAfter fetcher url (n + 1) s)) ∧
    ((∀ i < policy.maxAttempts.toNat, ¬ Acceptable expected (answerAfter fetcher url i s)) →
      ∃ reasons, fetch fetcher package url expected policy s =
          (.error ⟨package, url, reasons⟩, stateAfter fetcher url policy.maxAttempts.toNat s) ∧
        reasons.length = policy.maxAttempts.toNat ∧
        ∀ i reason, reasons[i]? = some reason →
          Explains expected (i + 1) (answerAfter fetcher url i s) reason) ∧
    ∀ body t, fetch fetcher package url expected policy s = (.ok body, t) → Fits expected body := by
  refine ⟨fun n hn body hfirst => ?_, fun hnone => ?_, fun body t => fits_of_fetch⟩
  · rw [fetch_eq]
    rcases attempts_cases fetcher url expected policy.maxAttempts.toNat 1 s with
      ⟨m, -, body', hfirst', hres⟩ | ⟨hnone, -⟩
    · obtain ⟨rfl, rfl⟩ := hfirst.eq hfirst'
      rw [hres]
      rfl
    · exact absurd ⟨body, hfirst.1, hfirst.2.1⟩ (hnone n hn)
  · rw [fetch_eq]
    rcases attempts_cases fetcher url expected policy.maxAttempts.toNat 1 s with
      ⟨m, hm, body, hfirst, -⟩ | ⟨-, reasons, hres, hlength, hreasons⟩
    · exact absurd ⟨body, hfirst.1, hfirst.2.1⟩ (hnone m hm)
    · rw [hres]
      exact ⟨reasons, rfl, hlength, fun i reason h => Nat.add_comm 1 i ▸ hreasons i reason h⟩

end AgentChain.Download

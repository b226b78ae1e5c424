import AgentChain.Action
import AgentChain.Bytes.Sha256

/-!
# Downloads

A file is fetched from its address, and again if that fails, as often as the policy allows. If its
hash is known, a body with another hash counts as a failure. All reasons are kept.
-/

namespace AgentChain.Download

/-- How a body is fetched from an address. It may remember what it was asked. A failure is given by
its contexts and its cause, from the outside in. -/
structure Fetcher (S : Type) where
  fetch : (url : String) → S → Except (List String) Bytes × S

def sameHash (a b : String) : Bool :=
  a.toList.map Char.toLower = b.toList.map Char.toLower

def judge (expected : Option String) (attempt : Nat) :
    Except (List String) Bytes → Except String Bytes
  | .error reasons => .error (s!"attempt {attempt}: " ++ Text.join ": " reasons)
  | .ok body =>
    match expected with
    | none => .ok body
    | some hash =>
      let actual := Sha256.hex body
      if sameHash actual hash then .ok body
      else .error s!"attempt {attempt}: sha256 mismatch (expected {hash}, got {actual})"

/-- Fetch a file with `left` attempts left, the next of which has the given number. The reasons of
failed attempts come in order. -/
def attempts {S : Type} (fetcher : Fetcher S) (url : String) (expected : Option String) :
    (left number : Nat) → S → Except (List String) Bytes × S
  | 0, _, s => (.error [], s)
  | left + 1, number, s =>
    let (answer, s) := fetcher.fetch url s
    match judge expected number answer with
    | .ok body => (.ok body, s)
    | .error reason =>
      let (r, s) := attempts fetcher url expected left (number + 1) s
      (r.mapError (reason :: ·), s)

def fetch {S : Type} (fetcher : Fetcher S) (package url : String) (expected : Option String)
    (policy : Config.RetryPolicy) (s : S) : Except DownloadFailure Bytes × S :=
  let (r, s) := attempts fetcher url expected policy.maxAttempts.toNat 1 s
  (r.mapError fun reasons => { package, url, attempts := reasons }, s)

/-- A fetcher that gives answers in their order and remembers the addresses, oldest first. -/
structure Script where
  answers : List (Except (List String) Bytes)
  calls : List String

/-- The fetcher of a script; a script that has run out answers with a failure. -/
def scripted : Fetcher Script where
  fetch url s :=
    match s.answers with
    | [] => (.error ["no scripted response"], { s with calls := s.calls ++ [url] })
    | answer :: rest => (answer, { answers := rest, calls := s.calls ++ [url] })

/-- A fetcher of known files, found by the last part of an address, that remembers the addresses. -/
def shelf (bodies : List (String × Bytes)) : Fetcher (List String) where
  fetch url calls :=
    let name := ((Text.split '/' url).getLast?).getD url
    (match Json.lookup? name bodies with
      | some body => .ok body
      | none => .error ["404 Not Found: " ++ url], calls ++ [url])

def offline : Fetcher Unit where
  fetch url s := (.error ["request " ++ url, "no connection"], s)

end AgentChain.Download

import AgentChain.Catalog.Basic

/-!
# The closure of a request

A request names packages. Its closure is everything that the request reaches by the direct needs of
the catalog's packages: the packages of the catalog among it are to be vendored, and the other names
are gaps. Each name is expanded once, so that cycles do no harm.
-/

namespace AgentChain

namespace Closure

def without (name : String) (names : List String) : List String :=
  names.filter (· ≠ name)

theorem length_without_lt {name : String} {names : List String} (h : name ∈ names) :
    (without name names).length < names.length :=
  List.length_filter_lt_length_iff_exists.mpr ⟨name, h, by simp⟩

/-- The names reached from the pending ones by `needs`, among those that remain to be visited. -/
def reach (needs : String → List String) (remaining pending : List String) : List String :=
  match pending with
  | [] => []
  | name :: rest =>
    if name ∈ remaining then
      name :: reach needs (without name remaining) (needs name ++ rest)
    else reach needs remaining rest
termination_by (remaining.length, pending.length)
decreasing_by
  · exact Prod.Lex.left _ _ (length_without_lt ‹_›)
  · exact Prod.Lex.right _ (by simp)

end Closure

structure Closure where
  packages : Text.NameSet
  /-- The names that the catalog does not list. -/
  missing : Text.NameSet
  deriving DecidableEq, Repr

namespace Catalog

def mentioned (catalog : Catalog) (requested : List String) : List String :=
  requested ++ catalog.packages.flatMap fun p => p.2.depends

def reached (catalog : Catalog) (requested : List String) : List String :=
  Closure.reach catalog.needs (catalog.mentioned requested) requested

def close (catalog : Catalog) (requested : List String) : Closure :=
  let names := catalog.reached requested
  { packages := Text.NameSet.ofList (names.filter fun n => (catalog.get? n).isSome)
    missing := Text.NameSet.ofList (names.filter fun n => (catalog.get? n).isNone) }

end Catalog

end AgentChain

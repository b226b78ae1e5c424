import AgentChain.Proofs.Action
import AgentChain.Vendor
import Mathlib.Data.Finset.Card

/-!
# What a request reaches

The closure of a request is compared with a relation: the least set of names that has the requested
ones and, with every package of the catalog, the needs of that package. The search keeps a list of
names that remain to be visited, and two facts about its result carry the comparison: a pending name
that remains is found, and so is every remaining need of a name that is found. Neither speaks of the
order in which names are taken up, so repeated names, cycles and dangling needs need no cases of
their own.
-/

namespace AgentChain

namespace Text.NameSet

theorem eq_of_mem_iff {s t : NameSet} (hs : s.Pairwise (· < ·)) (ht : t.Pairwise (· < ·))
    (h : ∀ x, x ∈ s ↔ x ∈ t) : s = t := by
  induction s generalizing t with
  | nil =>
    cases t with
    | nil => rfl
    | cons b t => exact absurd ((h b).mpr List.mem_cons_self) List.not_mem_nil
  | cons a s ih =>
    cases t with
    | nil => exact absurd ((h a).mp List.mem_cons_self) List.not_mem_nil
    | cons b t =>
      obtain ⟨ha, hs'⟩ := List.pairwise_cons.mp hs
      obtain ⟨hb, ht'⟩ := List.pairwise_cons.mp ht
      -- the heads are the least members, and so neither can be below the other
      obtain rfl : a = b := by
        by_contra hne
        have hat : a ∈ t := (List.mem_cons.mp ((h a).mp List.mem_cons_self)).resolve_left hne
        have hbs : b ∈ s :=
          (List.mem_cons.mp ((h b).mpr List.mem_cons_self)).resolve_left (Ne.symm hne)
        exact String.lt_irrefl a (String.lt_trans (ha b hbs) (hb a hat))
      refine congrArg (a :: ·) (ih hs' ht' fun x => ?_)
      constructor
      · intro hx
        refine (List.mem_cons.mp ((h x).mp (List.mem_cons_of_mem _ hx))).resolve_left ?_
        rintro rfl
        exact String.lt_irrefl x (ha x hx)
      · intro hx
        refine (List.mem_cons.mp ((h x).mpr (List.mem_cons_of_mem _ hx))).resolve_left ?_
        rintro rfl
        exact String.lt_irrefl x (hb x hx)

theorem filterMap_eq {α : Type} {s t : NameSet} {f : String → Option α} (hs : s.Pairwise (· < ·))
    (ht : t.Pairwise (· < ·)) (h : ∀ x, (f x).isSome → (x ∈ s ↔ x ∈ t)) :
    s.filterMap f = t.filterMap f := by
  have hdefined (l : NameSet) : l.filterMap f = (l.filter (f · |>.isSome)).filterMap f := by
    rw [List.filterMap_filter]
    refine List.filterMap_congr fun x _ => ?_
    cases f x <;> rfl
  have hsame : s.filter (f · |>.isSome) = t.filter (f · |>.isSome) := by
    refine eq_of_mem_iff (hs.filter _) (ht.filter _) fun x => ?_
    rw [List.mem_filter, List.mem_filter]
    exact and_congr_left fun hx => h x hx
  rw [hdefined s, hdefined t, hsame]

theorem length_ofList (names : List String) : (ofList names).length = names.toFinset.card := by
  have hnodup : (ofList names).Nodup :=
    (pairwise_lt_ofList names).imp fun h => by rintro rfl; exact String.lt_irrefl _ h
  rw [← List.toFinset_card_of_nodup hnodup]
  congr 1
  ext x
  simp

end Text.NameSet

namespace Closure

section Reach

variable {needs : String → List String} {remaining pending : List String} {name need : String}

theorem mem_without : x ∈ without name remaining ↔ x ∈ remaining ∧ x ≠ name := by
  simp [without]

theorem mem_reach_of_pending (hpending : name ∈ pending) (hremaining : name ∈ remaining) :
    name ∈ reach needs remaining pending := by
  fun_induction reach needs remaining pending with
  | case1 => exact absurd hpending List.not_mem_nil
  | case2 remaining first rest hfirst ih =>
    by_cases hname : name = first
    · exact hname ▸ List.mem_cons_self
    · have hrest : name ∈ rest := (List.mem_cons.mp hpending).resolve_left hname
      exact List.mem_cons_of_mem _
        (ih (List.mem_append_right _ hrest) (mem_without.mpr ⟨hremaining, hname⟩))
  | case3 remaining first rest hfirst ih =>
    have hname : name ≠ first := fun h => hfirst (h ▸ hremaining)
    exact ih ((List.mem_cons.mp hpending).resolve_left hname) hremaining

theorem mem_reach_of_need (hname : name ∈ reach needs remaining pending) (hneed : need ∈ needs name)
    (hremaining : need ∈ remaining) : need ∈ reach needs remaining pending := by
  fun_induction reach needs remaining pending with
  | case1 => exact absurd hname List.not_mem_nil
  | case2 remaining first rest hfirst ih =>
    by_cases hvisited : need = first
    · exact hvisited ▸ List.mem_cons_self
    · have hleft : need ∈ without first remaining := mem_without.mpr ⟨hremaining, hvisited⟩
      obtain rfl | hname := List.mem_cons.mp hname
      · exact List.mem_cons_of_mem _ (mem_reach_of_pending (List.mem_append_left _ hneed) hleft)
      · exact List.mem_cons_of_mem _ (ih hname hleft)
  | case3 remaining first rest hfirst ih => exact ih hname hremaining

theorem of_mem_reach {p : String → Prop} (hneeds : ∀ n, p n → ∀ m ∈ needs n, p m)
    (hpending : ∀ n ∈ pending, p n) (hname : name ∈ reach needs remaining pending) : p name := by
  fun_induction reach needs remaining pending with
  | case1 => exact absurd hname List.not_mem_nil
  | case2 remaining first rest hfirst ih =>
    have hp : p first := hpending first List.mem_cons_self
    obtain rfl | hname := List.mem_cons.mp hname
    · exact hp
    · refine ih (fun n hn => ?_) hname
      obtain hn | hn := List.mem_append.mp hn
      · exact hneeds first hp n hn
      · exact hpending n (List.mem_cons_of_mem _ hn)
  | case3 remaining first rest hfirst ih =>
    exact ih (fun n hn => hpending n (List.mem_cons_of_mem _ hn)) hname

end Reach

end Closure

namespace Catalog

/-- The names that a request reaches: the requested ones, and the direct needs of every package of
the catalog that is reached. -/
inductive Reaches (catalog : Catalog) (requested : List String) : String → Prop
  | requested {name : String} (h : name ∈ requested) : Reaches catalog requested name
  | needed {name need : String} {entry : Entry} (h : Reaches catalog requested name)
      (hentry : catalog.get? name = some entry) (hneed : need ∈ entry.depends) :
      Reaches catalog requested need

section Reached

variable {catalog : Catalog} {requested : List String} {name need : String}

theorem mem_needs_iff :
    need ∈ catalog.needs name ↔ ∃ entry, catalog.get? name = some entry ∧ need ∈ entry.depends := by
  rw [needs]
  split <;> simp_all

theorem Reaches.mem_mentioned (h : catalog.Reaches requested name) :
    name ∈ catalog.mentioned requested := by
  cases h with
  | requested h => exact List.mem_append_left _ h
  | needed _ hentry hneed =>
    exact List.mem_append_right _ (List.mem_flatMap.mpr ⟨_, Json.mem_of_lookup? hentry, hneed⟩)

theorem mem_reached : name ∈ catalog.reached requested ↔ catalog.Reaches requested name := by
  constructor
  · refine Closure.of_mem_reach (fun n hn m hm => ?_) fun n hn => .requested hn
    obtain ⟨entry, hentry, hneed⟩ := mem_needs_iff.mp hm
    exact hn.needed hentry hneed
  · intro h
    have hmentioned := h.mem_mentioned
    induction h with
    | requested h => exact Closure.mem_reach_of_pending h hmentioned
    | needed h hentry hneed ih =>
      exact Closure.mem_reach_of_need (ih h.mem_mentioned)
        (mem_needs_iff.mpr ⟨_, hentry, hneed⟩) hmentioned

theorem mem_close_packages :
    name ∈ (catalog.close requested).packages ↔
      catalog.Reaches requested name ∧ (catalog.get? name).isSome := by
  simp [close, mem_reached]

theorem mem_close_missing :
    name ∈ (catalog.close requested).missing ↔
      catalog.Reaches requested name ∧ (catalog.get? name).isNone := by
  simp [close, mem_reached]

theorem pairwise_lt_packages (catalog : Catalog) (requested : List String) :
    (catalog.close requested).packages.Pairwise (· < ·) :=
  Text.NameSet.pairwise_lt_ofList _

theorem pairwise_lt_missing (catalog : Catalog) (requested : List String) :
    (catalog.close requested).missing.Pairwise (· < ·) :=
  Text.NameSet.pairwise_lt_ofList _

theorem Reaches.mono (hsub : ∀ n ∈ requested, n ∈ more)
    (h : catalog.Reaches requested name) : catalog.Reaches more name := by
  induction h with
  | requested h => exact .requested (hsub _ h)
  | needed _ hentry hneed ih => exact ih.needed hentry hneed

theorem close_congr {other : List String} (h : ∀ n, n ∈ requested ↔ n ∈ other) :
    catalog.close requested = catalog.close other := by
  have hreaches (n : String) : catalog.Reaches requested n ↔ catalog.Reaches other n :=
    ⟨.mono fun m hm => (h m).mp hm, .mono fun m hm => (h m).mpr hm⟩
  have hpackages : (catalog.close requested).packages = (catalog.close other).packages :=
    Text.NameSet.eq_of_mem_iff (pairwise_lt_packages _ _) (pairwise_lt_packages _ _) fun n => by
      rw [mem_close_packages, mem_close_packages, hreaches]
  have hmissing : (catalog.close requested).missing = (catalog.close other).missing :=
    Text.NameSet.eq_of_mem_iff (pairwise_lt_missing _ _) (pairwise_lt_missing _ _) fun n => by
      rw [mem_close_missing, mem_close_missing, hreaches]
  cases hc : catalog.close requested
  cases ho : catalog.close other
  simp_all

end Reached

end Catalog

namespace World

theorem result_reportAll (events : List Event) (w : World) :
    (reportAll events).result w = (.ok (), events.foldl reporting w) := by
  induction events generalizing w with
  | nil => rfl
  | cons e events ih => exact ih (w.reporting e)

theorem reported_foldl_reporting (events : List Event) (w : World) :
    (events.foldl reporting w).reported =
      w.reported ++ events.map fun e => { e with timestamp := w.clock.millis } := by
  induction events generalizing w with
  | nil => simp
  | cons e events ih =>
    rw [List.foldl_cons, ih]
    simp [reporting]

end World

namespace Vendor

def gapEvent (time : Timestamp) (name : String) : Event where
  timestamp := time.millis
  stage := "resolve"
  level := .warn
  name := "catalog_gap"
  fields := [("package", .string name)]

def countsEvent (time : Timestamp) (requested resolved missing : Nat) : Event where
  timestamp := time.millis
  stage := "resolve"
  level := .info
  name := "closure_resolved"
  fields := [("missing", .ofCount missing), ("requested", .ofCount requested),
    ("resolved", .ofCount resolved)]

/-- Whatever the catalog and the requested names are, resolving them gives the packages of the
catalog that are reached and the other names that are, both in ascending order. It reports each of
the latter once, in that order, and then the sizes of the three sets. -/
theorem resolution_exact (catalog : Catalog) (names : List String) (w : World) :
    ∃ packages missing : Text.NameSet,
      catalog.close names = { packages, missing } ∧
      packages.Pairwise (· < ·) ∧
      (∀ n, n ∈ packages ↔ catalog.Reaches names n ∧ (catalog.get? n).isSome) ∧
      missing.Pairwise (· < ·) ∧
      (∀ n, n ∈ missing ↔ catalog.Reaches names n ∧ (catalog.get? n).isNone) ∧
      ∃ w', (resolve (.ofList names) catalog).result w = (.ok { packages, missing }, w') ∧
        w'.reported = w.reported ++ (missing.map (gapEvent w.clock) ++
          [countsEvent w.clock names.toFinset.card packages.length missing.length]) := by
  have hclose : catalog.close (Text.NameSet.ofList names) = catalog.close names :=
    Catalog.close_congr fun _ => Text.NameSet.mem_ofList
  have hresult : (resolve (.ofList names) catalog).result w = (.ok (catalog.close names),
      (resolutionEvents (.ofList names) (catalog.close names)).foldl World.reporting w) := by
    rw [resolve, hclose]
    exact Action.result_bind_of_ok (World.result_reportAll _ w) _
  refine ⟨(catalog.close names).packages, (catalog.close names).missing, rfl,
    catalog.pairwise_lt_packages names, fun _ => Catalog.mem_close_packages,
    catalog.pairwise_lt_missing names, fun _ => Catalog.mem_close_missing, _, hresult, ?_⟩
  rw [World.reported_foldl_reporting, resolutionEvents, List.map_append, List.map_map,
    ← Text.NameSet.length_ofList]
  rfl

end Vendor

end AgentChain

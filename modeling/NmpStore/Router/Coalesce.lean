import Mathlib.Data.List.Perm.Basic
import NmpStore.Router.Wire

/-! # Coalescing

Filters of one session and one routing are merged by the registered rules until no pair merges. The rules only widen.
-/

namespace NmpStore.Routing

open Resolver (ConcreteFilter)

structure Entry where
  filter : ConcreteFilter
  provenance : List RouteProvenance := []
  ownership : EntryOwnership := {}

def Entry.join (a b : Entry) (filter : ConcreteFilter) : Entry :=
  ⟨filter, a.provenance ++ b.provenance, a.ownership.extend b.ownership⟩

abbrev MergeRule := ConcreteFilter → ConcreteFilter → Option ConcreteFilter

def maxIdsPerFilter : Nat := 256

def maxTagValuesPerFilter : Nat := 500

variable {α : Type}

def bothConstrain [Ord α] (a b : Option (ExtTreeSet α compare)) :
    Option (ExtTreeSet α compare × ExtTreeSet α compare) :=
  match a, b with
  | some a, some b => if !a.isEmpty && !b.isEmpty then some (a, b) else none
  | _, _ => none

def structuralUnion : MergeRule := fun a b =>
  if a.limit.isNone && b.limit.isNone then
    match soleDifference a b with
    | none | some .since | some .until | some .limit => none
    | some .kinds => (bothConstrain a.kinds b.kinds).map fun sets => { a with kinds := some (sets.1 ∪ sets.2) }
    | some .authors => (bothConstrain a.authors b.authors).map fun sets => { a with authors := some (sets.1 ∪ sets.2) }
    | some .ids => (bothConstrain a.ids b.ids).bind fun sets =>
      if (sets.1 ∪ sets.2).size > maxIdsPerFilter then none else some { a with ids := some (sets.1 ∪ sets.2) }
    | some (.tag name) => do
      let values ← a.tags[name]?
      let more ← b.tags[name]?
      if (values ∪ more).size > maxTagValuesPerFilter then none
      else some { a with tags := a.tags.insert name (values ∪ more) }
  else none

section

variable (rules : List MergeRule)

def tryMergePair (a b : Entry) : Option Entry := (rules.findSome? fun rule => rule a.filter b.filter).map (a.join b)

def applyMerge (current : List Entry) (i j : Nat) (merged : Entry) : List Entry :=
  ((current.eraseIdx j).eraseIdx i) ++ [merged]

def revalidate : Nat → List Entry → Nat → Nat → List Entry × Nat
  | 0, current, settled, _ => (current, settled)
  | fuel + 1, current, settled, k =>
    if k < settled then
      match (do let a ← current[k]?; let b ← current[current.length - 1]?; tryMergePair rules a b) with
      | some merged => revalidate fuel (applyMerge current k (current.length - 1) merged) (settled - 1) 0
      | none => revalidate fuel current settled (k + 1)
    else (current, settled)

def mergeFixedPoint : Nat → List Entry → Nat → Nat → List Entry
  | 0, current, _, _ => current
  | fuel + 1, current, settled, j =>
    if settled < current.length then
      if j < current.length then
        match (do let a ← current[settled]?; let b ← current[j]?; tryMergePair rules a b) with
        | some merged =>
          let (current, settled) := revalidate rules ((current.length + 1) ^ 2) (applyMerge current settled j merged) settled 0
          mergeFixedPoint fuel current settled (settled + 1)
        | none => mergeFixedPoint fuel current settled (j + 1)
      else mergeFixedPoint fuel current (settled + 1) (settled + 2)
    else current

variable (entries : List Entry)

def absorb (entry : Entry) : List Entry :=
  match entries.findIdx? fun other => other.filter = entry.filter with
  | some i => entries.modify i fun other => other.join entry other.filter
  | none => entries ++ [entry]

def dedupSurvivors : List Entry := entries.foldl absorb []

def coalesceWith : List Entry :=
  let distinct := (dedupSurvivors entries).insertionSort fun a b => (compare a.filter b.filter).isLE
  dedupSurvivors (mergeFixedPoint rules ((distinct.length + 1) ^ 3) distinct 0 1)

end

variable (entries : List Entry)

theorem absorb_filters (e : Entry) :
    (absorb entries e).map Entry.filter = entries.map Entry.filter ∨ e.filter ∉ entries.map Entry.filter ∧
        (absorb entries e).map Entry.filter = entries.map Entry.filter ++ [e.filter] := by
  unfold absorb
  split
  · rename_i i hF
    refine .inl ?_
    apply List.ext_getElem?
    intro j
    rw [List.getElem?_map, List.getElem?_map, List.getElem?_modify]
    cases entries[j]? with
    | none => simp
    | some o =>
      by_cases hE : i = j <;> simp [hE, Entry.join]
  · rename_i hN
    refine .inr ⟨fun hM => ?_, by simp⟩
    obtain ⟨o, hI, hE⟩ := mem_map.mp hM
    have := List.findIdx?_eq_none_iff.mp hN o hI
    simp [hE] at this

theorem dedupSurvivors_nodup : ((dedupSurvivors entries).map Entry.filter).Nodup := by
  have hF : ∀ (l o : List Entry), (o.map Entry.filter).Nodup → ((l.foldl absorb o).map Entry.filter).Nodup := by
    intro l
    induction l with
    | nil => exact fun _ h => h
    | cons e l ih =>
      intro o h
      refine ih _ ?_
      rcases absorb_filters o e with hS | ⟨hN, hM⟩
      · rw [hS]
        exact h
      rw [hM]
      exact nodup_append.mpr ⟨h, List.nodup_singleton _, by
        rintro a ha b hb rfl
        exact hN (mem_singleton.mp hb ▸ ha)⟩
  exact hF entries [] nodup_nil

theorem coalesceWith_nodup (rules : List MergeRule) (entries : List Entry) :
    ((coalesceWith rules entries).map Entry.filter).Nodup := dedupSurvivors_nodup _

def Component.Same (component : Component) (a b : ConcreteFilter) : Prop :=
  match component with
  | .since => a.since = b.since
  | .until => a.until = b.until
  | .kinds => a.kinds = b.kinds
  | .authors => a.authors = b.authors
  | .ids => a.ids = b.ids
  | .limit => a.limit = b.limit
  | .tag name => a.tags[name]? = b.tags[name]?

def Component.Admits (component : Component) (filter : ConcreteFilter) (event : Event) : Prop :=
  match component with
  | .since => filter.since.all (· ≤ event.createdAt) = true
  | .until => filter.until.all (event.createdAt ≤ ·) = true
  | .kinds => filter.kinds.all (fun kinds => kinds.isEmpty || kinds.contains event.kind) = true
  | .authors => filter.authors.all (fun authors => authors.isEmpty || authors.contains event.pubkey) = true
  | .ids => filter.ids.all (fun ids => ids.isEmpty || ids.contains event.id) = true
  | .limit => True
  | .tag name => ∀ values, filter.tags[name]? = some values → ∃ tag ∈ event.tags.single, tag.1 = name ∧ tag.2 ∈ values

section Widening

variable {a b m : ConcreteFilter} {component : Component}

theorem matchEvent_iff :
    filter.matchEvent ev = true ↔ ∀ component : Component, component.Admits filter ev := by
  have hT : (filter.tags.toList.all fun e => ev.tags.single.any fun tag => tag.1 = e.1 && e.2.contains tag.2) =
      true ↔ ∀ name, (Component.tag name).Admits filter ev := by
    simp [Component.Admits, all_eq_true]
  rw [ConcreteFilter.matchEvent]
  simp only [and_eq_true, hT]
  constructor
  · rintro ⟨⟨⟨⟨⟨hI, hA⟩, hK⟩, hS⟩, hU⟩, hT⟩ (_ | _ | _ | _ | _ | _ | name)
    exacts [hS, hU, hK, hA, hI, trivial, hT name]
  · intro h
    exact ⟨⟨⟨⟨⟨h .ids, h .authors⟩, h .kinds⟩, h .since⟩, h .until⟩, fun name => h (.tag name)⟩

theorem Component.Same.admits_iff (h : component.Same a b) (ev : Event) :
    component.Admits a ev ↔ component.Admits b ev := by
  cases component <;> simp only [Component.Same] at h <;> simp only [Component.Admits, h]

theorem soleDifference_spec (h : soleDifference a b = some component) (o : Component) :
    o.Same a b ↔ o ≠ component := by
  unfold soleDifference at h
  extract_lets names fields tags at h
  have hM : ∀ c : Component, (c, true) ∈ fields ++ tags ↔ ¬c.Same a b := by
    rintro (_ | _ | _ | _ | _ | _ | name)
    case tag =>
      -- a name that neither filter mentions makes no difference
      have hN : a.tags[name]? ≠ b.tags[name]? → name ∈ names := by
        intro hn
        by_cases hA : name ∈ a.tags <;> by_cases hB : name ∈ b.tags <;>
          simp_all [names, ← Std.ExtTreeMap.contains_iff_mem]
      simp only [fields, tags, mem_append, mem_map, Prod.mk.injEq, Component.tag.injEq, decide_eq_true_eq,
        Component.Same]
      simpa using hN
    all_goals simp [fields, tags, Component.Same]
  split at h
  · rename_i c x hO
    obtain rfl := Option.some.inj h
    have ho : ∀ c' : Component, ¬c'.Same a b ↔ c' = c := by
      intro c'
      have hF : (c', true) ∈ (fields ++ tags).filter Prod.snd ↔ (c', true) ∈ fields ++ tags := by simp
      have hT : x = true := by
        have hH : (c, x) ∈ (fields ++ tags).filter Prod.snd := hO ▸ .head _
        exact (mem_filter.mp hH).2
      rw [← hM, ← hF, hO, hT]
      simp
    rw [← not_iff_not, ho]
    simp
  · cases h

theorem bothConstrain_eq_some [Ord α] {x y : Option (ExtTreeSet α compare)} {sets} :
    bothConstrain x y = some sets ↔ x = some sets.1 ∧ y = some sets.2 ∧ sets.1.isEmpty = false ∧ sets.2.isEmpty = false := by
  obtain ⟨s, t⟩ := sets
  cases x <;> cases y <;> simp [bothConstrain]
  grind

/-- The union of two sets that constrain lets pass what either does. -/
theorem admits_union [Ord α] [TransOrd α] {s t : ExtTreeSet α compare} (hs : s.isEmpty = false)
    (ht : t.isEmpty = false) (h : (s.isEmpty || s.contains x) = true ∨ (t.isEmpty || t.contains x) = true) :
    ((s ∪ t).isEmpty || (s ∪ t).contains x) = true := by
  simp only [hs, ht, Bool.false_or] at h
  simp only [Std.ExtTreeSet.contains_union, or_eq_true]
  exact .inr h

theorem structuralUnion_spec (h : structuralUnion a b = some m) : ∃ component, soleDifference a b = some component ∧
    (∀ o : Component, o ≠ component → o.Same m a) ∧
      ∀ ev, component.Admits a ev ∨ component.Admits b ev → component.Admits m ev := by
  unfold structuralUnion at h
  split at h
  case isFalse => cases h
  cases hS : soleDifference a b with
  | none => simp [hS] at h
  | some component =>
    refine ⟨component, rfl, ?_⟩
    rw [hS] at h
    cases component with
    | since | «until» | limit => cases h
    | kinds | authors =>
      obtain ⟨st, he, rfl⟩ := map_eq_some_iff.mp h
      obtain ⟨hA, hB, hs, ht⟩ := bothConstrain_eq_some.mp he
      refine ⟨?_, fun ev ha => admits_union hs ht ?_⟩
      · rintro (_ | _ | _ | _ | _ | _ | name) hN <;> first | rfl | exact absurd rfl hN
      · simpa [Component.Admits, hA, hB] using ha
    | ids =>
      obtain ⟨st, he, h⟩ := bind_eq_some_iff.mp h
      obtain ⟨hA, hB, hs, ht⟩ := bothConstrain_eq_some.mp he
      split at h
      · cases h
      cases h
      refine ⟨?_, fun ev ha => admits_union hs ht ?_⟩
      · rintro (_ | _ | _ | _ | _ | _ | name) hN <;> first | rfl | exact absurd rfl hN
      · simpa [Component.Admits, hA, hB] using ha
    | tag name =>
      obtain ⟨vl, hA, h⟩ := bind_eq_some_iff.mp h
      obtain ⟨mr, hB, h⟩ := bind_eq_some_iff.mp h
      split at h
      · cases h
      cases h
      refine ⟨?_, fun ev ha all hl => ?_⟩
      · rintro (_ | _ | _ | _ | _ | _ | o) hN
        case tag => simpa [Component.Same, get_insert] using fun hE => absurd (congrArg Component.tag hE.symm) hN
        all_goals rfl
      rw [get_insert, if_pos rfl] at hl
      cases hl
      rcases ha with ha | ha
      · obtain ⟨tag, hT, hn, hV⟩ := ha vl hA
        exact ⟨tag, hT, hn, mem_union_iff.mpr (.inl hV)⟩
      · obtain ⟨tag, hT, hn, hV⟩ := ha mr hB
        exact ⟨tag, hT, hn, mem_union_iff.mpr (.inr hV)⟩

end Widening

/-- The union of two filters matches what either of them matches, and differs from each only in the one component in which
they differ. -/
theorem structuralUnion_widens {a b m : ConcreteFilter} (h : structuralUnion a b = some m) :
    (∀ event, a.matchEvent event = true ∨ b.matchEvent event = true → m.matchEvent event = true) ∧
      ∃ component : Component, (∀ other : Component, other.Same a b ↔ other ≠ component) ∧
        ∀ other : Component, other ≠ component → other.Same m a ∧ other.Same m b := by
  obtain ⟨component, hS, hs, ha⟩ := structuralUnion_spec h
  have ho : ∀ other : Component, other ≠ component → other.Same m a ∧ other.Same m b := by
    intro other hN
    have hb := (soleDifference_spec hS other).mpr hN
    refine ⟨hs other hN, ?_⟩
    have hf := hs other hN
    cases other <;> exact Eq.trans hf hb
  refine ⟨fun event hM => matchEvent_iff.mpr fun other => ?_, component, soleDifference_spec hS, ho⟩
  by_cases hE : other = component
  · subst hE
    exact ha event (hM.imp (matchEvent_iff.mp · _) (matchEvent_iff.mp · _))
  obtain ⟨hA, hB⟩ := ho other hE
  rcases hM with hM | hM
  · exact (hA.admits_iff event).mpr (matchEvent_iff.mp hM other)
  · exact (hB.admits_iff event).mpr (matchEvent_iff.mp hM other)

theorem structuralUnion_widens_authors :
    let a : ConcreteFilter := { authors := some (.ofList [7] compare) }
    let b : ConcreteFilter := { authors := some (.ofList [8] compare) }
    ∃ m, structuralUnion a b = some m ∧ m.matchEvent { id := 1, pubkey := 8, createdAt := 10, kind := 1, sig := 0 } = true := by
  intro a b
  obtain ⟨m, hU⟩ : ∃ m, structuralUnion a b = some m := isSome_iff_exists.mp (by decide +kernel)
  exact ⟨m, hU, (structuralUnion_widens hU).1 _ (.inr (by decide +kernel))⟩

end NmpStore.Routing

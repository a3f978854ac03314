import NmpStore.Router.Coalesce

/-! # Attaching to a running request

A later demand joins a request already on the wire when the sent filter covers its own, axis by axis. An empty set is a
subset of every set, while in matching it constrains nothing.
-/

namespace NmpStore.Routing

open Resolver (ConcreteFilter)

variable {α : Type} [Ord α] [Std.TransOrd α]

def optionSetCovers (physical candidate : Option (ExtTreeSet α compare)) : Bool :=
  match physical, candidate with
  | none, _ => true
  | some _, none => false
  | some physical, some candidate => candidate.toList.all physical.contains

def physicalFilterCovers (physical candidate : ConcreteFilter) : Bool :=
  if physical.limit.isSome || candidate.limit.isSome then false
  else if !optionSetCovers physical.kinds candidate.kinds || !optionSetCovers physical.authors candidate.authors ||
      !optionSetCovers physical.ids candidate.ids then false
  else if !physical.tags.toList.all fun entry =>
      candidate.tags[entry.1]?.any fun values => values.toList.all entry.2.contains then false
  else
    let sinceCovered := match physical.since, candidate.since with
      | none, _ => true
      | some _, none => false
      | some physical, some candidate => decide (physical ≤ candidate)
    let untilCovered := match physical.until, candidate.until with
      | none, _ => true
      | some _, none => false
      | some physical, some candidate => decide (candidate ≤ physical)
    sinceCovered && untilCovered

def Component.PresentEmpty (component : Component) (filter : ConcreteFilter) : Prop :=
  match component with
  | .kinds => filter.kinds.any (·.isEmpty) = true
  | .authors => filter.authors.any (·.isEmpty) = true
  | .ids => filter.ids.any (·.isEmpty) = true
  | .since | .until | .limit | .tag _ => False

theorem optionSetCovers_admits [LawfulEqOrd α] {x : α}
    (hC : optionSetCovers p c = true) (hA : c.all (fun set => set.isEmpty || set.contains x) = true)
    (hZ : c.any (·.isEmpty) = true → p.all (fun set => set.isEmpty || set.contains x) = true) :
    p.all (fun set => set.isEmpty || set.contains x) = true := by
  cases p with
  | none => rfl
  | some ph =>
    cases c with
    | none => cases hC
    | some cd =>
      simp only [Option.all_some, or_eq_true] at hA
      rcases hA with hN | hM
      · exact hZ hN
      · have ha := all_eq_true.mp hC x (Std.ExtTreeSet.mem_toList.mpr hM)
        simp [ha]

theorem physicalFilterCovers_admits {ev : Event} (hC : physicalFilterCovers p c = true)
    {cm : Component} (hA : cm.Admits c ev)
    (hZ : cm.PresentEmpty c → cm.Admits p ev) : cm.Admits p ev := by
  unfold physicalFilterCovers at hC
  split_ifs at hC with hL hs hT
  simp only [Bool.not_eq_true', or_eq_true, not_or, Bool.not_eq_false] at hs hT
  obtain ⟨⟨hK, ha⟩, hI⟩ := hs
  obtain ⟨hn, hU⟩ := and_eq_true _ _ ▸ hC
  cases cm with
  | limit => trivial
  | kinds => exact optionSetCovers_admits hK hA hZ
  | authors => exact optionSetCovers_admits ha hA hZ
  | ids => exact optionSetCovers_admits hI hA hZ
  | since =>
    revert hn hA
    simp only [Component.Admits]
    cases p.since <;> cases c.since <;> simp
    omega
  | «until» =>
    revert hU hA
    simp only [Component.Admits]
    cases p.until <;> cases c.until <;> simp
    omega
  | tag nm =>
    intro vl hV
    have hS := all_eq_true.mp hT (nm, vl) (mem_toList.mpr hV)
    cases hW : c.tags[nm]? with
    | none => simp [hW] at hS
    | some wn =>
      obtain ⟨tag, ht, hN, hv⟩ := hA wn hW
      rw [hW] at hS
      exact ⟨tag, ht, hN, all_eq_true.mp hS _ (Std.ExtTreeSet.mem_toList.mpr hv)⟩

/-- Of the events a covered filter matches, the covering one misses those that it refuses on an axis where the covered
filter has an empty set, and no others. -/
theorem physicalFilterCovers_misses_iff (hCovers : physicalFilterCovers p c = true)
    (hMatches : c.matchEvent event = true) :
    p.matchEvent event = true ↔ ∀ component : Component, component.PresentEmpty c → component.Admits p event := by
  rw [matchEvent_iff]
  constructor
  · intro h component _
    exact h component
  · intro h component
    exact physicalFilterCovers_admits hCovers (matchEvent_iff.mp hMatches component) (h component)

theorem physicalFilterCovers_hits_author :
    let p : ConcreteFilter := { kinds := some (.ofList [1, 2] compare) }
    let c : ConcreteFilter := { kinds := some (.ofList [1] compare), authors := some ∅ }
    let event : Event := { id := 1, pubkey := 7, createdAt := 10, kind := 1, sig := 0 }
    physicalFilterCovers p c = true ∧ c.matchEvent event = true ∧ p.matchEvent event = true := by
  intro p c event
  have hC : physicalFilterCovers p c = true := by decide +kernel
  have hM : c.matchEvent event = true := by decide +kernel
  refine ⟨hC, hM, (physicalFilterCovers_misses_iff hC hM).mpr ?_⟩
  rintro (_ | _ | _ | _ | _ | _ | _) hE <;> first | exact hE.elim | rfl

/-- A demand with an empty set of kinds asks for every kind and is attached to a request for one kind; so with authors and
with ids. -/
theorem physicalFilterCovers_empty_misses :
    let event : Event := { id := 1, pubkey := 7, createdAt := 10, kind := 1, sig := 0 }
    ∀ filters ∈ [({ kinds := some (.ofList [2] compare) }, { kinds := some ∅ }),
        ({ authors := some (.ofList [8] compare) }, { authors := some ∅ }),
        (({ ids := some (.ofList [2] compare) }, { ids := some ∅ }) : ConcreteFilter × ConcreteFilter)],
      physicalFilterCovers filters.1 filters.2 = true ∧ filters.2.matchEvent event = true ∧
        filters.1.matchEvent event = false := by
  decide +kernel

end NmpStore.Routing

import NmpStore.Canonical.Tables

/-! # Filters, demands and demand atoms

A query binds the fields of a filter to values that are literal, follow the active identity, or are projected from the
rows of an inner demand.
-/

namespace NmpStore.Resolver

theorem lawfulEqCmp_compareOn {α β : Type} [Ord β] [LawfulEqOrd β] {f : α → β} (hf : Function.Injective f) :
    Std.LawfulEqCmp (compareOn f) where
  compare_self {a} := Std.ReflOrd.compare_self (a := f a)
  eq_of_compare h := hf (Std.LawfulEqOrd.eq_of_compare h)

abbrev IndexedTagName := UInt8

inductive RoutingEvidenceKind where
  | hint
  | sourceProvenance
  deriving DecidableEq

def RoutingEvidenceKind.rank : RoutingEvidenceKind → Nat
  | .hint => 0
  | .sourceProvenance => 1

structure RoutingEvidence where
  relay : RelayUrl
  origin : RoutingEvidenceKind
  deriving DecidableEq

def RoutingEvidence.key (evidence : RoutingEvidence) : RelayUrl × Nat := (evidence.relay, evidence.origin.rank)

theorem RoutingEvidence.key_injective : Function.Injective RoutingEvidence.key := by
  rintro ⟨r, og⟩ ⟨r', og'⟩ h
  cases og <;> cases og' <;> simp_all [RoutingEvidence.key, RoutingEvidenceKind.rank]

instance : Ord RoutingEvidence := ⟨compareOn RoutingEvidence.key⟩

instance : TransOrd RoutingEvidence := inferInstanceAs (TransCmp (compareOn RoutingEvidence.key))

instance : LawfulEqOrd RoutingEvidence := lawfulEqCmp_compareOn RoutingEvidence.key_injective

inductive ReadRouting where
  | auto
  | explicit (relays : List RelayUrl)
  deriving DecidableEq

structure ConcreteFilter where
  kinds : Option (ExtTreeSet Nat) := none
  authors : Option (ExtTreeSet PublicKey) := none
  ids : Option (ExtTreeSet EventId) := none
  tags : Table IndexedTagName (ExtTreeSet Bytes) := ∅
  since : Option Nat := none
  «until» : Option Nat := none
  limit : Option Nat := none
  deriving DecidableEq

namespace ConcreteFilter

/-- NIP-01 matching: an absent or empty set constrains nothing, a named tag needs one of its values. -/
def matchEvent (filter : ConcreteFilter) (event : Event) : Bool :=
  filter.ids.all (fun ids => ids.isEmpty || ids.contains event.id) &&
    filter.authors.all (fun authors => authors.isEmpty || authors.contains event.pubkey) &&
    filter.kinds.all (fun kinds => kinds.isEmpty || kinds.contains event.kind) &&
    filter.since.all (· ≤ event.createdAt) && filter.until.all (event.createdAt ≤ ·) &&
    filter.tags.toList.all fun entry => event.tags.single.any fun tag => tag.1 = entry.1 && entry.2.contains tag.2

def key (filter : ConcreteFilter) : Option (List Nat) × Option (List PublicKey) × Option (List EventId) ×
    List (IndexedTagName × List Bytes) × Option Nat × Option Nat × Option Nat :=
  (filter.kinds.map (·.toList), filter.authors.map (·.toList), filter.ids.map (·.toList),
    filter.tags.toList.map fun entry => (entry.1, entry.2.toList), filter.since, filter.until, filter.limit)

theorem toList_injective {α : Type} [Ord α] [TransOrd α] :
    Function.Injective (fun s : ExtTreeSet α => s.toList) := fun _ _ h => Std.ExtTreeSet.toList_inj.mp h

theorem key_injective : Function.Injective key := by
  rintro ⟨kn, authors, ids, tags, since, «until», lm⟩ ⟨kn', authors', ids', tags', since', until', lm'⟩ h
  simp only [key, Prod.mk.injEq] at h
  obtain ⟨hK, hA, hI, hT, rfl, rfl, rfl⟩ := h
  have hT : tags.toList = tags'.toList := by
    refine List.map_injective_iff.mpr ?_ hT
    rintro ⟨nm, vl⟩ ⟨nm', vl'⟩ h
    simp only [Prod.mk.injEq] at h
    exact Prod.ext h.1 (toList_injective h.2)
  obtain rfl := Option.map_injective toList_injective hK
  obtain rfl := Option.map_injective toList_injective hA
  obtain rfl := Option.map_injective toList_injective hI
  obtain rfl := Std.ExtTreeMap.toList_inj.mp hT
  rfl

instance : Ord ConcreteFilter := ⟨compareOn key⟩

instance : TransOrd ConcreteFilter := inferInstanceAs (TransCmp (compareOn key))

instance : LawfulEqOrd ConcreteFilter := lawfulEqCmp_compareOn key_injective

end ConcreteFilter

/-- A resolved filter with the context it is requested in and the routing facts that came with its values. -/
structure ContextualAtom where
  filter : ConcreteFilter
  routing : ReadRouting
  authenticateAs : Option PublicKey
  routingEvidence : ExtTreeSet RoutingEvidence
  deriving DecidableEq

def ReadRouting.key : ReadRouting → Option (List RelayUrl)
  | .auto => none
  | .explicit relays => some relays

theorem ReadRouting.key_injective : Function.Injective ReadRouting.key := by
  rintro (_ | relays) (_ | relays') h <;> simp_all [ReadRouting.key]

namespace ContextualAtom

def key (atom : ContextualAtom) : ConcreteFilter × Option (List RelayUrl) × Option PublicKey × List RoutingEvidence :=
  (atom.filter, atom.routing.key, atom.authenticateAs, atom.routingEvidence.toList)

theorem key_injective : Function.Injective key := by
  rintro ⟨fl, routing, authenticateAs, ev⟩ ⟨fl', routing', authenticateAs', ev'⟩ h
  simp only [key, Prod.mk.injEq] at h
  obtain ⟨rfl, hR, rfl, hE⟩ := h
  obtain rfl := ReadRouting.key_injective hR
  obtain rfl := ConcreteFilter.toList_injective hE
  rfl

instance : Ord ContextualAtom := ⟨compareOn key⟩

instance : TransOrd ContextualAtom := inferInstanceAs (TransCmp (compareOn key))

instance : LawfulEqOrd ContextualAtom := lawfulEqCmp_compareOn key_injective

end ContextualAtom

inductive DemandOp where
  | close (atom : ContextualAtom)
  | open (atom : ContextualAtom)
  deriving DecidableEq

abbrev DemandDelta := List DemandOp

def DemandDelta.replay (delta : DemandDelta) (held : ExtTreeSet ContextualAtom) : ExtTreeSet ContextualAtom :=
  delta.foldl (fun held op => match op with
    | .close atom => held.erase atom
    | .open atom => held.insert atom) held

inductive Selector where
  | authors
  | ids
  | tag (name : Bytes)
  | addressCoord
  deriving DecidableEq

inductive IdentityField where
  | activePubkey
  deriving DecidableEq

inductive SetAlgebra where
  | union
  | intersect
  | diff
  deriving DecidableEq

inductive CacheMode where
  | agnostic
  | strict
  deriving DecidableEq

inductive Freshness where
  | live
  | maxAge (seconds : Nat)
  | cacheOnly
  deriving DecidableEq

inductive FieldSlot where
  | authors
  | ids
  | tag (name : IndexedTagName)
  deriving DecidableEq

structure FilterBase where
  kinds : Option (ExtTreeSet Nat) := none
  since : Option Nat := none
  «until» : Option Nat := none
  limit : Option Nat := none
  deriving DecidableEq

mutual

inductive Binding where
  | literal (values : ExtTreeSet Bytes)
  | reactive (field : IdentityField)
  | derived (inner : Demand) (project : Selector)
  | setOp (op : SetAlgebra) (operands : Operands)
  deriving DecidableEq

inductive Operands where
  | nil
  | cons (first : Binding) (rest : Operands)
  deriving DecidableEq

inductive BoundFields where
  | nil
  | cons (slot : FieldSlot) (binding : Binding) (rest : BoundFields)
  deriving DecidableEq

inductive Filter where
  | mk (base : FilterBase) (bound : BoundFields)
  deriving DecidableEq

inductive Demand where
  | mk (selection : Filter) (routing : ReadRouting) (authenticateAs : Option PublicKey) (cache : CacheMode)
      (freshness : Freshness)
  deriving DecidableEq

end

/-- What two demands must agree on to share a graph: everything but the cache mode and freshness of the root. -/
structure AcquisitionKey where
  selection : Filter
  routing : ReadRouting
  authenticateAs : Option PublicKey
  deriving DecidableEq

def Demand.acquisitionKey : Demand → AcquisitionKey
  | .mk selection routing authenticateAs _ _ => ⟨selection, routing, authenticateAs⟩

end NmpStore.Resolver

import NmpStore.Resolver.Grammar

/-! # The resolver graph

Every live query is a tree of filter nodes and binding nodes in one flat table.
-/

namespace NmpStore.Resolver

/-- What the resolver reads from texts: keys and ids in hex, and the tags of an event under an arbitrary name, each
with its value and the relay of its hint. -/
class EventText where
  parsePublicKey : Bytes → Option PublicKey
  parseEventId : Bytes → Option EventId
  publicKeyHex : PublicKey → Bytes
  eventIdHex : EventId → Bytes
  tagValues : Event → Bytes → List (Bytes × Option RelayUrl)

inductive Element where
  | scalar (value : Bytes)
  | coord (kind : Nat) (author : PublicKey) (d : Bytes)
  deriving DecidableEq

namespace Element

def key : Element → Nat × Nat × PublicKey × Bytes
  | .scalar value => (0, 0, 0, value)
  | .coord kind author d => (1, kind, author, d)

theorem key_injective : Function.Injective key := by
  rintro (val | ⟨knd, author, d⟩) (val' | ⟨knd', author', d'⟩) h <;> simp_all [key]

instance : Ord Element := ⟨compareOn key⟩

instance : TransOrd Element := inferInstanceAs (TransCmp (compareOn key))

instance : LawfulEqOrd Element := lawfulEqCmp_compareOn key_injective

end Element

abbrev ResolvedSet := Table Element (ExtTreeSet RoutingEvidence)

namespace ResolvedSet

def insertWith (set : ResolvedSet) (element : Element) (evidence : List RoutingEvidence) : ResolvedSet :=
  set.insert element (evidence.foldl (·.insert ·) (set[element]?.getD ∅))

def mergeFrom (set other : ResolvedSet) : ResolvedSet :=
  other.toList.foldl (fun set entry => insertWith set entry.1 entry.2.toList) set

end ResolvedSet

/-- Write one value into the field it is bound to; a coordinate pins kind, author and identifier together. A text that
is no key or id contributes nothing. -/
def mergeElementInto [EventText] (filter : ConcreteFilter) (slot : FieldSlot) : Element → Option ConcreteFilter
  | .coord kind author d => some { filter with
      kinds := some ((filter.kinds.getD ∅).insert kind)
      authors := some ((filter.authors.getD ∅).insert author)
      tags := filter.tags.insert 100 ((filter.tags[(100 : UInt8)]?.getD ∅).insert d) }
  | .scalar value =>
    match slot with
    | .authors => (EventText.parsePublicKey value).map fun author =>
        { filter with authors := some ((filter.authors.getD ∅).insert author) }
    | .ids => (EventText.parseEventId value).map fun id =>
        { filter with ids := some ((filter.ids.getD ∅).insert id) }
    | .tag name => some { filter with tags := filter.tags.insert name ((filter.tags[name]?.getD ∅).insert value) }

def carriesHint (name : Bytes) : Bool := name = [101] ∨ name = [97] ∨ name = [112]

def sourceEvidence (stored : StoredEvent) : List RoutingEvidence :=
  stored.provenance.seen.keys.map fun relay => ⟨relay, .sourceProvenance⟩

def tagEvidence (stored : StoredEvent) (name : Bytes) (hint : Option RelayUrl) : List RoutingEvidence :=
  if carriesHint name then
    match hint with
    | some relay => [⟨relay, .hint⟩]
    | none => sourceEvidence stored
  else []

def projectEvent [EventText] (project : Selector) (set : ResolvedSet) (stored : StoredEvent) : ResolvedSet :=
  match project with
  | .authors => ResolvedSet.insertWith set (.scalar (EventText.publicKeyHex stored.event.pubkey)) []
  | .ids => ResolvedSet.insertWith set (.scalar (EventText.eventIdHex stored.event.id)) []
  | .tag name => (EventText.tagValues stored.event name).foldl (fun set tag =>
      ResolvedSet.insertWith set (.scalar tag.1) (tagEvidence stored name tag.2)) set
  | .addressCoord => ResolvedSet.insertWith set
      (.coord stored.event.kind stored.event.pubkey (stored.event.tags.identifier.getD "").toUTF8.toList)
      (sourceEvidence stored)

def projectEvents [EventText] (events : List StoredEvent) (project : Selector) : ResolvedSet :=
  events.foldl (projectEvent project) ∅

def resolveReactive [EventText] (field : IdentityField) (identity : Option PublicKey) : ResolvedSet :=
  match field with
  | .activePubkey =>
    match identity with
    | some key => ResolvedSet.insertWith ∅ (.scalar (EventText.publicKeyHex key)) []
    | none => ∅

def intersectWith (set other : ResolvedSet) : ResolvedSet :=
  other.toList.foldl (fun set entry => if set.contains entry.1 then ResolvedSet.insertWith set entry.1 entry.2.toList else set)
    (set.filter fun element _ => other.contains element)

def resolveSetOp (op : SetAlgebra) (operands : List ResolvedSet) : ResolvedSet :=
  match op, operands with
  | .union, operands => operands.foldl ResolvedSet.mergeFrom ∅
  | .intersect, [] => ∅
  | .intersect, first :: rest => rest.foldl intersectWith first
  | .diff, [] => ∅
  | .diff, first :: rest => rest.foldl (fun set other => Table.eraseAll set other.keys) first

abbrev NodeId := Nat

inductive ParentLink where
  | root
  | setOpOperand (parent : NodeId)
  | filterField (parent : NodeId)
  | derivedInner (parent : NodeId)
  deriving DecidableEq

def ParentLink.parent : ParentLink → Option NodeId
  | .root => none
  | .setOpOperand parent | .filterField parent | .derivedInner parent => some parent

structure FilterNode where
  base : FilterBase
  bound : List (FieldSlot × NodeId)
  cachedAtoms : ExtTreeSet ContextualAtom := ∅
  routing : ReadRouting
  authenticateAs : Option PublicKey

inductive Node where
  | literal (resolved : ResolvedSet)
  | reactive (field : IdentityField) (cached : ResolvedSet)
  | derived (inner : NodeId) (project : Selector) (cache : CacheMode) (freshness : Freshness) (cached : ResolvedSet)
  | setOp (op : SetAlgebra) (operands : List NodeId) (cached : ResolvedSet)
  | filter (data : FilterNode)

namespace Node

def children (id : NodeId) : Node → List (NodeId × ParentLink)
  | .literal _ | .reactive _ _ => []
  | .derived inner _ _ _ _ => [(inner, .derivedInner id)]
  | .setOp _ operands _ => operands.map (·, .setOpOperand id)
  | .filter data => data.bound.map fun field => (field.2, .filterField id)

def atoms : Node → ExtTreeSet ContextualAtom
  | .filter data => data.cachedAtoms
  | _ => ∅

def resolvedSet : Node → ResolvedSet
  | .literal set | .reactive _ set | .derived _ _ _ _ set | .setOp _ _ set => set
  | .filter _ => ∅

end Node

structure NodeMeta where
  parent : ParentLink
  depth : Nat
  deriving DecidableEq

structure Graph where
  nextId : Nat := 0
  nodes : Table NodeId Node := ∅
  metas : Table NodeId NodeMeta := ∅

namespace Graph

variable (g : Graph)

def allocId : NodeId × Graph := (g.nextId + 1, { g with nextId := g.nextId + 1 })

variable (id : NodeId)

def insertNode (node : Node) (parent : ParentLink) (depth : Nat) : Graph :=
  { g with nodes := g.nodes.insert id node, metas := g.metas.insert id ⟨parent, depth⟩ }

def removeNode : Graph := { g with nodes := g.nodes.erase id, metas := g.metas.erase id }

def discardAllocatedAfter (checkpoint : NodeId) : Graph :=
  { g with nodes := g.nodes.filter fun id _ => id ≤ checkpoint, metas := g.metas.filter fun id _ => id ≤ checkpoint }

def setNode (node : Node) : Graph := { g with nodes := g.nodes.insert id node }

def parentOf : ParentLink := (g.metas[id]?.map NodeMeta.parent).getD .root

def depthOf : Nat := (g.metas[id]?.map NodeMeta.depth).getD 0

def resolvedSetOf : ResolvedSet := (g.nodes[id]?.map Node.resolvedSet).getD ∅

def atomsOf : ExtTreeSet ContextualAtom := (g.nodes[id]?.map Node.atoms).getD ∅

def derivedNodeIds : List NodeId :=
  (g.nodes.toList.filter fun entry => match entry.2 with
    | .derived _ _ _ _ _ => true
    | _ => false).map Prod.fst

def baseFilter (base : FilterBase) : ConcreteFilter :=
  { kinds := base.kinds, since := base.since, «until» := base.until, limit := base.limit }

section

variable [EventText]

def mergeField (slot : FieldSlot) (set : ResolvedSet) (filter : ConcreteFilter) : Option ConcreteFilter :=
  if set.toList.any fun entry => (mergeElementInto filter slot entry.1).isSome then
    some (set.toList.foldl (fun filter entry => (mergeElementInto filter slot entry.1).getD filter) filter)
  else none

/-- The one filter that stands for all values of a filter node at once; an empty field matches nothing. -/
def wideOf (data : FilterNode) : Option ConcreteFilter :=
  data.bound.foldlM (fun filter field => mergeField field.1 (g.resolvedSetOf field.2) filter) (baseFilter data.base)

def wideConcrete (id : NodeId) : Option ConcreteFilter :=
  match g.nodes[id]? with
  | some (.filter data) => g.wideOf data
  | _ => none

def fanOutField (slot : FieldSlot) (set : ResolvedSet) (atoms : List (ConcreteFilter × ExtTreeSet RoutingEvidence)) :
    List (ConcreteFilter × ExtTreeSet RoutingEvidence) :=
  atoms.flatMap fun atom => set.toList.filterMap fun entry =>
    (mergeElementInto atom.1 slot entry.1).map fun filter => (filter, entry.2.toList.foldl (·.insert ·) atom.2)

def atomsFor (data : FilterNode) : ExtTreeSet ContextualAtom :=
  .ofList ((data.bound.foldl (fun atoms field => fanOutField field.1 (g.resolvedSetOf field.2) atoms)
    [(baseFilter data.base, ∅)]).map fun atom : ConcreteFilter × ExtTreeSet RoutingEvidence =>
      (⟨atom.1, data.routing, data.authenticateAs, atom.2⟩ : ContextualAtom)) compare

end

def strictProjectionRelays (cache : CacheMode) : Option (List RelayUrl) :=
  match cache, g.nodes[id]? with
  | .strict, some (.filter { routing := .explicit relays, .. }) => some relays
  | _, _ => none

/-- The nodes of a subtree, children first. Ids grow downwards, so the next id bounds the depth of a walk. -/
def collectNodeIds : Nat → NodeId → List NodeId
  | 0, _ => []
  | fuel + 1, id =>
    match g.nodes[id]? with
    | none => []
    | some node => ((node.children id).flatMap fun child => collectNodeIds fuel child.1) ++ [id]

def atomsInStructuralOrder : Nat → NodeId → List ContextualAtom
  | 0, _ => []
  | fuel + 1, id =>
    match g.nodes[id]? with
    | none => []
    | some node => ((node.children id).flatMap fun child => atomsInStructuralOrder fuel child.1) ++ node.atoms.toList

end Graph

end NmpStore.Resolver

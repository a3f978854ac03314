import NmpStore.Resolver.Graph
import NmpStore.Store.Ingest

/-! # The resolver engine

The engine counts, for every atom, the filter nodes that contribute it. An atom is opened when its count leaves zero and
closed when it returns there.
-/

namespace NmpStore.Resolver

abbrev HandleId := Nat

structure StoreReader where
  query : ConcreteFilter → Result (List StoredEvent)
  queryNewest : ConcreteFilter → Nat → Result (List StoredEvent)
  queryNewestUnderPin : ConcreteFilter → List RelayUrl → Nat → Result (List StoredEvent)

def visibleUnderPin (provenance : Provenance) (pinned : List RelayUrl) : Bool :=
  provenance.localOrigin.isSome || provenance.seen.keys.any (· ∈ pinned)

structure Metrics where
  recomputePasses : Nat := 0
  nodesRecomputed : Nat := 0
  setsReevaluated : Nat := 0
  atomsOpened : Nat := 0
  atomsClosed : Nat := 0
  deriving DecidableEq

structure DeltaAcc where
  closes : List ContextualAtom := []
  opens : List ContextualAtom := []

def DeltaAcc.intoDelta (acc : DeltaAcc) : DemandDelta := acc.closes.reverse.map .close ++ acc.opens.map .open

structure GraphEntry where
  descriptor : AcquisitionKey
  refcount : Nat

structure Engine where
  graph : Graph := {}
  descriptorToRoot : List (AcquisitionKey × NodeId) := []
  graphEntries : Table NodeId GraphEntry := ∅
  handleToRoot : Table HandleId NodeId := ∅
  nextHandle : Nat := 0
  /-- For each demanded atom the number of filter nodes that contribute it. -/
  atoms : Table ContextualAtom Nat := ∅
  reactiveNodes : ExtTreeSet NodeId := ∅
  identity : Option PublicKey := none
  metrics : Metrics := {}
  /-- Handles dropped since the last call that could withdraw them. -/
  pendingDrops : List HandleId := []

namespace Engine

variable (e : Engine)

def activeDemand : ExtTreeSet ContextualAtom := .ofList e.atoms.keys compare

def refAtom (acc : Engine × DeltaAcc) (atom : ContextualAtom) : Engine × DeltaAcc :=
  let (e, acc) := acc
  let count := e.atoms[atom]?.getD 0 + 1
  let e := { e with atoms := e.atoms.insert atom count }
  if count = 1 then
    ({ e with metrics := { e.metrics with atomsOpened := e.metrics.atomsOpened + 1 } },
      { acc with opens := acc.opens ++ [atom] })
  else (e, acc)

def unrefAtom (acc : Engine × DeltaAcc) (atom : ContextualAtom) : Engine × DeltaAcc :=
  let (e, acc) := acc
  match e.atoms[atom]? with
  | none => (e, acc)
  | some count =>
    if count - 1 = 0 then
      ({ e with
          atoms := e.atoms.erase atom
          metrics := { e.metrics with atomsClosed := e.metrics.atomsClosed + 1 } },
        { acc with closes := acc.closes ++ [atom] })
    else ({ e with atoms := e.atoms.insert atom (count - 1) }, acc)

section

variable [EventText]

def projectionInputEvents (g : Graph) (reader : StoreReader) (filterId : NodeId) (filter : ConcreteFilter)
    (cache : CacheMode) : Result (List StoredEvent) :=
  match g.strictProjectionRelays filterId cache, filter.limit with
  | some pinned, some limit => reader.queryNewestUnderPin filter pinned limit
  | some pinned, none => do
    let rows ← reader.query filter
    pure (rows.filter fun row => visibleUnderPin row.provenance pinned)
  | none, some limit => reader.queryNewest filter limit
  | none, none => reader.query filter

def derivedValue (g : Graph) (reader : StoreReader) (inner : NodeId) (project : Selector) (cache : CacheMode) :
    Result ResolvedSet :=
  match g.wideConcrete inner with
  | some filter => do
    let rows ← projectionInputEvents g reader inner filter cache
    pure (projectEvents rows project)
  | none => pure ∅

def reevaluate (e : Engine) (reader : StoreReader) (node : Node) : Result Node :=
  match node with
  | .literal resolved => pure (.literal resolved)
  | .reactive field _ => pure (.reactive field (resolveReactive field e.identity))
  | .derived inner project cache freshness _ => do
    let value ← derivedValue e.graph reader inner project cache
    pure (.derived inner project cache freshness value)
  | .setOp op operands _ => pure (.setOp op operands (resolveSetOp op (operands.map e.graph.resolvedSetOf)))
  | .filter data => pure (.filter { data with cachedAtoms := e.graph.atomsFor data })

def exchangeAtoms (e : Engine) (old new : ExtTreeSet ContextualAtom) (acc : DeltaAcc) : Engine × DeltaAcc :=
  let closed := (old.toList.filter fun atom => !new.contains atom).foldl unrefAtom (e, acc)
  (new.toList.filter fun atom => !old.contains atom).foldl refAtom closed

def recomputeNode (e : Engine) (reader : StoreReader) (id : NodeId) (acc : DeltaAcc) :
    Result (Bool × Engine × DeltaAcc) :=
  match e.graph.nodes[id]? with
  | none => pure (false, e, acc)
  | some node => do
    let value ← reevaluate e reader node
    let changed : Bool := value.resolvedSet ≠ node.resolvedSet || value.atoms ≠ node.atoms
    pure (changed, exchangeAtoms { e with graph := e.graph.setNode id value } node.atoms value.atoms acc)

def runRound (reader : StoreReader) : List NodeId → Engine → ExtTreeSet NodeId → DeltaAcc →
    Engine × Result (ExtTreeSet NodeId × DeltaAcc)
  | [], e, pending, acc => (e, .ok (pending, acc))
  | id :: rest, e, pending, acc =>
    let e := { e with metrics := { e.metrics with setsReevaluated := e.metrics.setsReevaluated + 1 } }
    match recomputeNode e reader id acc with
    | .error err => (e, .error err)
    | .ok (false, e, acc) => runRound reader rest e pending acc
    | .ok (true, e, acc) =>
      let e := { e with metrics := { e.metrics with nodesRecomputed := e.metrics.nodesRecomputed + 1 } }
      runRound reader rest e ((e.graph.parentOf id).parent.elim pending pending.insert) acc

def maxDepth (g : Graph) (pending : List NodeId) : Nat := (pending.map g.depthOf).foldl max 0

def recomputeRounds (reader : StoreReader) : Nat → Engine → ExtTreeSet NodeId → DeltaAcc →
    Engine × Result DeltaAcc
  | 0, e, _, acc => (e, .ok acc)
  | fuel + 1, e, pending, acc =>
    if pending.isEmpty then (e, .ok acc)
    else
      let depth := maxDepth e.graph pending.toList
      let thisRound := pending.toList.filter fun id => e.graph.depthOf id = depth
      match runRound reader thisRound e (pending.filter fun id => e.graph.depthOf id ≠ depth) acc with
      | (e, .error err) => (e, .error err)
      | (e, .ok (pending, acc)) => recomputeRounds reader fuel e pending acc

/-- A round lies strictly above the one before it, so the depth of the deepest pending node bounds their number. -/
def runRecompute (e : Engine) (reader : StoreReader) (pending : ExtTreeSet NodeId) :
    Engine × Result DemandDelta :=
  let (e, result) := recomputeRounds reader (maxDepth e.graph pending.toList + 1) e pending {}
  (e, result.map DeltaAcc.intoDelta)

end

def teardown (root : NodeId) : Engine × DemandDelta :=
  let descriptor := e.graphEntries[root]?.map GraphEntry.descriptor
  let e := { e with
    graphEntries := e.graphEntries.erase root
    descriptorToRoot := e.descriptorToRoot.filter fun entry => some entry.1 ≠ descriptor }
  let fuel := e.graph.nextId + 1
  let (e, acc) := (e.graph.atomsInStructuralOrder fuel root).foldl unrefAtom (e, {})
  let ids := e.graph.collectNodeIds fuel root
  ({ e with graph := ids.foldl Graph.removeNode e.graph, reactiveNodes := ids.foldl (·.erase ·) e.reactiveNodes },
    acc.intoDelta)

/-- A graph goes with the last handle on it; any other handle leaves without a trace in the demand. -/
def unsubscribeInner (id : HandleId) : Engine × DemandDelta :=
  match e.handleToRoot[id]? with
  | none => (e, [])
  | some root =>
    let e := { e with handleToRoot := e.handleToRoot.erase id }
    match e.graphEntries[root]? with
    | none => (e, [])
    | some entry =>
      if entry.refcount - 1 > 0 then
        ({ e with graphEntries := e.graphEntries.insert root { entry with refcount := entry.refcount - 1 } }, [])
      else teardown e root

def drainStep (acc : Engine × DemandDelta) (id : HandleId) : Engine × DemandDelta :=
  let (e, delta) := unsubscribeInner acc.1 id
  (e, acc.2 ++ delta)

def drainPendingDrops : Engine × DemandDelta :=
  e.pendingDrops.foldl drainStep ({ e with pendingDrops := [] }, [])

def unsubscribe (id : HandleId) : Engine × DemandDelta :=
  let (e, dropped) := drainPendingDrops e
  let (e, delta) := unsubscribeInner e id
  (e, dropped ++ delta)

def dropHandle (id : HandleId) : Engine := { e with pendingDrops := e.pendingDrops ++ [id] }

section

variable [EventText] (e : Engine) (reader : StoreReader)

def setActivePubkey (key : Option PublicKey) :
    Engine × Result DemandDelta :=
  let (e, dropped) := drainPendingDrops e
  let e := { e with identity := key }
  if e.reactiveNodes.isEmpty then (e, .ok dropped)
  else
    let e := { e with metrics := { e.metrics with recomputePasses := e.metrics.recomputePasses + 1 } }
    let (e, result) := runRecompute e reader e.reactiveNodes
    (e, result.map (dropped ++ ·))

/-- The derived nodes whose inner filter, as it was before, matches one of the changed events. -/
def isDirty (g : Graph) (changed : List Event) (id : NodeId) : Bool :=
  match g.nodes[id]? with
  | some (.derived inner _ _ _ _) => (g.wideConcrete inner).any fun filter => changed.any filter.matchEvent
  | _ => false

def dirtySeed (g : Graph) (changed : List Event) : ExtTreeSet NodeId :=
  .ofList (g.derivedNodeIds.filter (isDirty g changed)) compare

def react (inserted removed : List Event) :
    Engine × Result DemandDelta :=
  let (e, dropped) := drainPendingDrops e
  if inserted.isEmpty && removed.isEmpty then (e, .ok dropped)
  else
    let e := { e with metrics := { e.metrics with recomputePasses := e.metrics.recomputePasses + 1 } }
    let (e, result) := runRecompute e reader (dirtySeed e.graph (inserted ++ removed))
    (e, result.map (dropped ++ ·))

def retract (inserted : List StoredEvent) (removed : List Event) :
    Engine × Result DemandDelta :=
  react e reader (inserted.map StoredEvent.event) removed

mutual

def buildFilterNode (e : Engine) (reader : StoreReader) (routing : ReadRouting) (authenticateAs : Option PublicKey)
    (parent : ParentLink) (depth : Nat) : Filter → Engine × Result NodeId
  | .mk base bound =>
    let (id, graph) := e.graph.allocId
    match buildFields { e with graph } reader id (depth + 1) bound with
    | (e, .error err) => (e, .error err)
    | (e, .ok fields) =>
      let data : FilterNode := { base, bound := fields, routing, authenticateAs }
      let atoms := e.graph.atomsFor data
      ({ e with graph := e.graph.insertNode id (.filter { data with cachedAtoms := atoms }) parent depth }, .ok id)

def buildFields (e : Engine) (reader : StoreReader) (id : NodeId) (depth : Nat) :
    BoundFields → Engine × Result (List (FieldSlot × NodeId))
  | .nil => (e, .ok [])
  | .cons slot binding rest =>
    match buildBindingNode e reader (.filterField id) depth binding with
    | (e, .error err) => (e, .error err)
    | (e, .ok child) =>
      match buildFields e reader id depth rest with
      | (e, .error err) => (e, .error err)
      | (e, .ok fields) => (e, .ok ((slot, child) :: fields))

def buildBindingNode (e : Engine) (reader : StoreReader) (parent : ParentLink) (depth : Nat) :
    Binding → Engine × Result NodeId
  | .literal values =>
    let (id, graph) := e.graph.allocId
    let resolved := values.toList.foldl (fun set value => ResolvedSet.insertWith set (.scalar value) []) ∅
    ({ e with graph := graph.insertNode id (.literal resolved) parent depth }, .ok id)
  | .reactive field =>
    let (id, graph) := e.graph.allocId
    let cached := resolveReactive field e.identity
    ({ e with
        graph := graph.insertNode id (.reactive field cached) parent depth
        reactiveNodes := e.reactiveNodes.insert id }, .ok id)
  | .derived inner project =>
    let (id, graph) := e.graph.allocId
    match buildInner { e with graph } reader (.derivedInner id) (depth + 1) inner with
    | (e, .error err) => (e, .error err)
    | (e, .ok (child, cache, freshness)) =>
      match derivedValue e.graph reader child project cache with
      | .error err => (e, .error err)
      | .ok cached =>
        ({ e with graph := e.graph.insertNode id (.derived child project cache freshness cached) parent depth }, .ok id)
  | .setOp op operands =>
    let (id, graph) := e.graph.allocId
    match buildOperands { e with graph } reader (.setOpOperand id) (depth + 1) operands with
    | (e, .error err) => (e, .error err)
    | (e, .ok children) =>
      let cached := resolveSetOp op (children.map e.graph.resolvedSetOf)
      ({ e with graph := e.graph.insertNode id (.setOp op children cached) parent depth }, .ok id)

def buildInner (e : Engine) (reader : StoreReader) (parent : ParentLink) (depth : Nat) :
    Demand → Engine × Result (NodeId × CacheMode × Freshness)
  | .mk selection routing authenticateAs cache freshness =>
    match buildFilterNode e reader routing authenticateAs parent depth selection with
    | (e, .error err) => (e, .error err)
    | (e, .ok child) => (e, .ok (child, cache, freshness))

def buildOperands (e : Engine) (reader : StoreReader) (parent : ParentLink) (depth : Nat) :
    Operands → Engine × Result (List NodeId)
  | .nil => (e, .ok [])
  | .cons first rest =>
    match buildBindingNode e reader parent depth first with
    | (e, .error err) => (e, .error err)
    | (e, .ok child) =>
      match buildOperands e reader parent depth rest with
      | (e, .error err) => (e, .error err)
      | (e, .ok children) => (e, .ok (child :: children))

end

inductive SubscribeOutcome where
  | opened (handle : HandleId) (delta : DemandDelta)
  | refused (error : PersistenceError) (delta : DemandDelta)

def SubscribeOutcome.delta : SubscribeOutcome → DemandDelta
  | .opened _ delta | .refused _ delta => delta

/-- Open a branch. Equal branches share one graph, where a joining handle is counted and touches no atom. -/
def openBranch (branch : Demand) : Engine × SubscribeOutcome :=
  let handle := e.nextHandle + 1
  let e := { e with nextHandle := handle }
  let key := branch.acquisitionKey
  match e.descriptorToRoot.find? fun entry => entry.1 = key with
  | some (_, root) =>
    let entries := match e.graphEntries[root]? with
      | some entry => e.graphEntries.insert root { entry with refcount := entry.refcount + 1 }
      | none => e.graphEntries
    ({ e with graphEntries := entries, handleToRoot := e.handleToRoot.insert handle root }, .opened handle [])
  | none =>
    let checkpoint := e.graph.nextId
    match buildFilterNode e reader key.routing key.authenticateAs .root 0 key.selection with
    | (e, .error err) =>
      ({ e with
          graph := e.graph.discardAllocatedAfter checkpoint
          reactiveNodes := e.reactiveNodes.filter (· ≤ checkpoint) }, .refused err [])
    | (e, .ok root) =>
      let e := { e with
        descriptorToRoot := (key, root) :: e.descriptorToRoot
        graphEntries := e.graphEntries.insert root ⟨key, 1⟩
        handleToRoot := e.handleToRoot.insert handle root }
      let (e, acc) := (e.graph.atomsInStructuralOrder (e.graph.nextId + 1) root).foldl refAtom (e, {})
      (e, .opened handle acc.intoDelta)

def SubscribeOutcome.after (dropped : DemandDelta) : SubscribeOutcome → SubscribeOutcome
  | .opened handle delta => .opened handle (dropped ++ delta)
  | .refused err delta => .refused err (dropped ++ delta)

def subscribe (branch : Demand) : Engine × SubscribeOutcome :=
  let (e, dropped) := drainPendingDrops e
  let (e, outcome) := openBranch e reader branch
  (e, outcome.after dropped)

end

end Engine

end NmpStore.Resolver

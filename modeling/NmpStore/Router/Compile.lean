import NmpStore.Router.Coalesce
import NmpStore.Router.Tokens

/-! # Compiling, admitting and withdrawing

Routing has put the filters of every atom into a bag, by session and by routing; here the requests are planned from it.
-/

namespace NmpStore.Routing

open Resolver (ConcreteFilter ReadRouting)

abbrev SessionBag := Table RelaySessionKey (Table ReadRouting (List Entry))

structure CompileBudget where
  relayCap : Nat
  /-- The relays that advertise how many subscriptions they accept. -/
  maxSubscriptions : Table RelayUrl Nat := ∅

class FilterHash where
  hash : ConcreteFilter → Nat

structure RequestReplacement where
  session : RelaySessionKey
  priorSubId : SubId
  nextSubId : SubId
  deriving DecidableEq

def bagEntries (parts : Table ReadRouting (List Entry)) : List Entry := parts.toList.flatMap Prod.snd

def bagScore (parts : Table ReadRouting (List Entry)) : Nat × Nat :=
  let assignments : ExtTreeSet (DemandKey × PublicKey) :=
    .ofList ((bagEntries parts).flatMap fun entry => entry.ownership.coverageAssignments.toList) compare
  (assignments.size, ((bagEntries parts).map fun entry =>
    max (max entry.provenance.length entry.ownership.coverageClaims.size) 1).sum)

def rankSessions (scored : List (RelaySessionKey × Nat × Nat)) : List RelaySessionKey :=
  (scored.insertionSort fun a b => ((compare b.2 a.2).then (compare a.1 b.1)).isLE).map Prod.fst

def applyGlobalRelayCap (bag : SessionBag) (cap : Nat) :
    SessionBag × ExtTreeSet DemandKey × ExtTreeSet RelaySessionKey :=
  if bag.size ≤ cap then (bag, ∅, ∅)
  else
    let selected := (rankSessions (bag.toList.map fun part => (part.1, bagScore part.2))).take cap
    let refused := bag.filter fun session _ => session ∉ selected
    (bag.filter fun session _ => session ∈ selected,
      .ofList (refused.toList.flatMap fun part =>
        (bagEntries part.2).flatMap fun entry => entry.ownership.ownerDemands.toList) compare,
      .ofList refused.keys compare)

section

variable (rules : List MergeRule) (session : RelaySessionKey) (incumbents : List WireReq)

def planPart (source : ReadRouting) (entries : List Entry) (counter : Nat) : List (WireReq × Option SubId) × Nat :=
  let merged := coalesceWith rules entries
  let priors := (incumbents.filter fun req => req.routing = source).map fun req => (req.filter, req.subId)
  let (assigned, counter) := assign session priors (merged.map Entry.filter) counter
  ((merged.zip assigned).map fun (entry, a) =>
    ({ subId := a.subId
       filter := entry.filter
       routing := source
       provenance := .ofList entry.provenance compare
       ownership := entry.ownership }, a.predecessor), counter)

def planParts : List (ReadRouting × List Entry) → Nat → List (WireReq × Option SubId) × Nat
  | [], counter => ([], counter)
  | (source, entries) :: rest, counter =>
    let (requests, counter) := planPart rules session incumbents source entries counter
    let (more, counter) := planParts rest counter
    (requests ++ more, counter)

end

def sortBySub (requests : List WireReq) : List WireReq :=
  requests.insertionSort fun a b => (compare a.subId b.subId).isLE

def coverageRank [FilterHash] (a b : WireReq) : Ordering :=
  (compare b.ownership.coverageAssignments.size a.ownership.coverageAssignments.size).then
    ((compare b.ownership.coverageClaims.size a.ownership.coverageClaims.size).then
      ((compare b.provenance.size a.provenance.size).then
        (compare (FilterHash.hash a.filter) (FilterHash.hash b.filter))))

def ranksBefore [FilterHash] (incumbents : List WireReq) (a b : WireReq) : Bool :=
  let running (req : WireReq) : Bool := req.subId ∈ incumbents.map WireReq.subId
  ((compare (running b) (running a)).then (coverageRank a b)).isLE

def refuseOverBudget [FilterHash] (requests : List WireReq) (allowed : Nat) (incumbents : List WireReq) :
    List WireReq × List WireReq :=
  let ranked := requests.insertionSort fun a b => ranksBefore incumbents a b
  (sortBySub (ranked.take allowed), ranked.drop allowed)

structure CompiledDemand where
  plan : RelayPlan := {}
  replacements : List RequestReplacement := []
  budgetRefused : List (RelaySessionKey × WireReq) := []
  counter : Nat

def noteReplacements (session : RelaySessionKey) (planned : List (WireReq × Option SubId)) : List RequestReplacement :=
  planned.filterMap fun (req, predecessor) => predecessor.map fun prior => ⟨session, prior, req.subId⟩

section

variable [FilterHash] (rules : List MergeRule) (incumbents : RelayPlan) (budget : CompileBudget)

def planSession (out : CompiledDemand) (part : RelaySessionKey × Table ReadRouting (List Entry)) : CompiledDemand :=
  let (session, parts) := part
  let (planned, counter) := planParts rules session (incumbents.at session) parts.toList out.counter
  let requests := sortBySub (planned.map Prod.fst)
  let out := { out with counter, replacements := out.replacements ++ noteReplacements session planned }
  match budget.maxSubscriptions[session.1]? with
  | none => { out with plan := { out.plan with reqs := out.plan.reqs.insert session requests } }
  | some allowed =>
    if requests.length ≤ allowed then { out with plan := { out.plan with reqs := out.plan.reqs.insert session requests } }
    else
      let (kept, refused) := refuseOverBudget requests allowed (incumbents.at session)
      { out with
        budgetRefused := out.budgetRefused ++ refused.map (session, ·)
        plan := { out.plan with
          limitedDemands := out.plan.limitedDemands ∪
            .ofList (refused.flatMap fun req => req.ownership.ownerDemands.toList) compare
          subscriptionShortfalls :=
            out.plan.subscriptionShortfalls.insert session ⟨allowed, requests.length, refused.length⟩
          refusedSessions := if kept.isEmpty then out.plan.refusedSessions.insert session else out.plan.refusedSessions
          reqs := if kept.isEmpty then out.plan.reqs else out.plan.reqs.insert session kept } }

def compileDemand (counter : Nat) (bag : SessionBag) : CompiledDemand :=
  let (bag, limitedDemands, refusedSessions) := applyGlobalRelayCap bag budget.relayCap
  bag.toList.foldl (planSession rules incumbents budget) { plan := { limitedDemands, refusedSessions }, counter }

end

structure Router where
  plan : RelayPlan := {}
  nextToken : Nat := 0

structure RequestMetadataUpdate where
  session : RelaySessionKey
  subId : SubId
  addedCoverageClaims : ExtTreeSet CoverageKey
  addedOwnerDemands : ExtTreeSet DemandKey

structure CompileOutcome where
  wire : WireDelta
  updates : List RequestMetadataUpdate
  replacements : List RequestReplacement

def running? (prev : List WireReq) (req : WireReq) : Option WireReq :=
  (prev.find? fun old => old.subId = req.subId).filter fun old => old.routing = req.routing && old.filter = req.filter

/-- A request that runs already keeps what it was sent with, and gains the owners of the candidate. -/
def retain (prev : List WireReq) (req : WireReq) : WireReq :=
  match running? prev req with
  | some old => { old with
      provenance := old.provenance ∪ req.provenance
      ownership := old.ownership.extend req.ownership }
  | none => req

def updateOf (session : RelaySessionKey) (prev : List WireReq) (req : WireReq) : Option RequestMetadataUpdate :=
  (running? prev req).bind fun old =>
    let claims := req.ownership.coverageClaims \ old.ownership.coverageClaims
    let owners := req.ownership.ownerDemands \ old.ownership.ownerDemands
    if claims.isEmpty && owners.isEmpty then none else some ⟨session, req.subId, claims, owners⟩

namespace Router

section

variable [FilterHash] (rules : List MergeRule)

def compile (r : Router) (bag : SessionBag) (budget : CompileBudget) : Router × CompileOutcome :=
  let compiled := compileDemand rules r.plan budget r.nextToken bag
  let reqs := compiled.plan.reqs.map fun session requests => requests.map (retain (r.plan.at session))
  ({ plan := { compiled.plan with reqs }, nextToken := compiled.counter },
    { wire := diffPlans r.plan compiled.plan
      updates := compiled.plan.reqs.toList.flatMap fun part => part.2.filterMap (updateOf part.1 (r.plan.at part.1))
      replacements := compiled.replacements })

structure Ownership where
  /-- A running request takes the candidate's owners on. -/
  attaches : RelaySessionKey → WireReq → Bool
  /-- The demand already has a request on the session. -/
  served : RelaySessionKey → DemandKey → Bool
  /-- The owners of a running request afterwards. -/
  owners : RelaySessionKey → WireReq → ExtTreeSet RouteProvenance × EntryOwnership

def prune (o : Ownership) (session : RelaySessionKey) (req : WireReq) : WireReq :=
  let ownerDemands := req.ownership.ownerDemands.filter fun demand => !o.served session demand
  { req with ownership := { req.ownership with
      ownerDemands
      coverageAssignments := req.ownership.coverageAssignments.filter fun assignment => assignment.1 ∈ ownerDemands } }

def scoreRequests (requests : List WireReq) : Nat × Nat :=
  let assignments : ExtTreeSet (DemandKey × PublicKey) :=
    .ofList (requests.flatMap fun req => req.ownership.coverageAssignments.toList) compare
  (assignments.size, (requests.map fun req =>
    max (max req.ownership.coverageClaims.size req.provenance.size) 1).sum)

/-- New sessions beyond the cap are refused, and so is what a session's remaining budget has no room for. -/
def applyResidualBudget (running candidate : WireReqs) (budget : CompileBudget) :
    WireReqs :=
  let fresh := candidate.toList.filter fun part => !running.contains part.1
  let refused := (rankSessions (fresh.map fun part => (part.1, scoreRequests part.2))).drop (budget.relayCap - running.size)
  let within (session : RelaySessionKey) (requests : List WireReq) : List WireReq :=
    match budget.maxSubscriptions[session.1]? with
    | none => requests
    | some limit =>
      let allowed := limit - (running[session]?.getD []).length
      if requests.length ≤ allowed then requests
      else sortBySub ((requests.insertionSort fun a b => (coverageRank a b).isLE).take allowed)
  ((candidate.filter fun session _ => session ∉ refused).map within).filter fun _ requests => !requests.isEmpty

def admitted (r : Router) (o : Ownership) (candidate : WireReqs) (budget : CompileBudget) :
    WireReqs :=
  let left := candidate.map fun session requests =>
    ((requests.filter fun req => !o.attaches session req).map (prune o session)).filter fun req =>
      !req.ownership.ownerDemands.isEmpty
  applyResidualBudget r.plan.reqs (left.filter fun _ requests => !requests.isEmpty) budget

/-- The running requests with their owners as the indexes have them, and the admitted ones after them. -/
def appendRequests (reqs more : WireReqs) : WireReqs :=
  more.toList.foldl (fun reqs part => reqs.insert part.1 (reqs[part.1]?.getD [] ++ part.2)) reqs

def own (o : Ownership) (session : RelaySessionKey) (req : WireReq) : WireReq :=
  { req with provenance := (o.owners session req).1, ownership := (o.owners session req).2 }

def admitCohort (r : Router) (o : Ownership) (bag : SessionBag) (budget : CompileBudget) : Router × WireDelta :=
  let compiled := compileDemand rules {} { relayCap := bag.size } r.nextToken bag
  let more := r.admitted o compiled.plan.reqs budget
  let owned := r.plan.reqs.map fun session requests => requests.map (own o session)
  ({ plan := { r.plan with reqs := appendRequests owned more }, nextToken := compiled.counter },
    more.toList.map fun part => (part.1, part.2.map fun req => .req req.subId req.filter))

end

def swapRemove (requests : List WireReq) (i : Nat) : List WireReq :=
  match requests.getLast? with
  | some last => if i + 1 = requests.length then requests.dropLast else requests.dropLast.set i last
  | none => requests

def closeRequest (reqs : WireReqs) (key : RelaySessionKey × SubId) :
    WireReqs :=
  let requests := reqs[key.1]?.getD []
  match requests.findIdx? fun req => req.subId = key.2 with
  | some i =>
    let left := swapRemove requests i
    if left.isEmpty then reqs.erase key.1 else reqs.insert key.1 left
  | none => reqs

def withdraw (r : Router) (o : Ownership) (closing : List (RelaySessionKey × SubId)) : Router × WireDelta :=
  let owned := r.plan.reqs.map fun session requests => requests.map (own o session)
  ({ r with plan := { r.plan with reqs := closing.foldl closeRequest owned } },
    (closing.foldl (fun ops key => ops.insert key.1 (ops[key.1]?.getD [] ++ [.close key.2]))
      (∅ : Table RelaySessionKey (List WireOp))).toList)

end Router

end NmpStore.Routing

import NmpStore.Router.Run

/-! # Refused owners

What a relay cap or a relay's budget refuses is remembered: which demand is refused on which session, how many owners
every refused request still has, and how many every session.
-/

namespace NmpStore.Routing

/-- A demand that is refused on a session: with the request that the budget refused, or by the relay cap. -/
structure Refusal where
  demand : DemandKey
  session : RelaySessionKey
  request : Option SubId
  deriving DecidableEq

structure Refusals where
  owners : List Refusal := []
  requestOwners : Table (RelaySessionKey × SubId) Nat := ∅
  sessionOwners : Table RelaySessionKey Nat := ∅

def markRefused (f : Refusals) (plan : RelayPlan) (session : RelaySessionKey) : RelayPlan :=
  { plan with refusedSessions :=
      if plan.reqs.contains session || !f.sessionOwners.contains session then plan.refusedSessions.erase session
      else plan.refusedSessions.insert session }

def decrement {K : Type} [Ord K] [Std.TransOrd K] (t : Table K Nat) (k : K) : Table K Nat × Bool :=
  match t[k]? with
  | none => (t, false)
  | some n => if n - 1 = 0 then (t.erase k, true) else (t.insert k (n - 1), false)

def releaseShortfall (shortfalls : Table RelaySessionKey BudgetShortfall) (session : RelaySessionKey) :
    Table RelaySessionKey BudgetShortfall :=
  match shortfalls[session]? with
  | none => shortfalls
  | some x =>
    if x.refused - 1 = 0 then shortfalls.erase session
    else shortfalls.insert session { x with planned := x.planned - 1, refused := x.refused - 1 }

variable (state : RelayPlan × Refusals)

def dropOwner (owner : Refusal) : RelayPlan × Refusals :=
  let (plan, f) := state
  let sessionOwners := (decrement f.sessionOwners owner.session).1
  let (requestOwners, released) := match owner.request with
    | none => (f.requestOwners, false)
    | some id => decrement f.requestOwners (owner.session, id)
  let f := { f with sessionOwners, requestOwners }
  let subscriptionShortfalls :=
    if released then releaseShortfall plan.subscriptionShortfalls owner.session else plan.subscriptionShortfalls
  (markRefused f { plan with subscriptionShortfalls } owner.session, f)

def removeRefusalOwners (demand : DemandKey) : RelayPlan × Refusals :=
  let (plan, f) := state
  let gone := f.owners.filter fun owner => owner.demand = demand
  if gone.isEmpty then (plan, f)
  else gone.foldl dropOwner ({ plan with limitedDemands := plan.limitedDemands.erase demand },
    { f with owners := f.owners.filter fun owner => owner.demand ≠ demand })

def indexRefusalOwner (f : Refusals) (owner : Refusal) : Option Refusals :=
  if f.owners.any fun other => other.demand = owner.demand && other.session = owner.session then none
  else some { f with
    owners := f.owners ++ [owner]
    sessionOwners := f.sessionOwners.insert owner.session (f.sessionOwners[owner.session]?.getD 0 + 1) }

/-- The owners of a refused request; a request that the relay cap refuses is not counted by itself. -/
def refusalsOf (session : RelaySessionKey) (req : WireReq) (byBudget : Bool) : List Refusal :=
  req.ownership.ownerDemands.toList.map fun demand => ⟨demand, session, if byBudget then some req.subId else none⟩

def countRequest (f : Refusals) (session : RelaySessionKey) (req : WireReq) (byBudget : Bool) : Refusals :=
  if byBudget then { f with requestOwners := f.requestOwners.insert (session, req.subId) req.ownership.ownerDemands.size } else f

def recordRefusedRequest (state : Refusals × ExtTreeSet DemandKey) (refused : RelaySessionKey × WireReq × Bool) :
    Option (Refusals × ExtTreeSet DemandKey) :=
  let (session, req, byBudget) := refused
  (refusalsOf session req byBudget).foldlM (fun (f, limited) owner => do
      let first := !f.owners.any fun other => other.demand = owner.demand
      let f ← indexRefusalOwner f owner
      pure (f, if first then limited.insert owner.demand else limited))
    (countRequest state.1 session req byBudget, state.2)

def indexRequest (f : Refusals) (refused : RelaySessionKey × WireReq × Bool) : Option Refusals :=
  (refusalsOf refused.1 refused.2.1 refused.2.2).foldlM indexRefusalOwner (countRequest f refused.1 refused.2.1 refused.2.2)

def capRefusals (capRefused : List (RelaySessionKey × List DemandKey)) : List Refusal :=
  capRefused.flatMap fun part => part.2.map fun demand => ⟨demand, part.1, none⟩

def rebuildRefusalIndexes (capRefused : List (RelaySessionKey × List DemandKey)) (budgetRefused : List (RelaySessionKey × WireReq)) :
    Option Refusals := do
  let f ← (capRefusals capRefused).foldlM indexRefusalOwner {}
  (budgetRefused.map fun refused => (refused.1, refused.2, true)).foldlM indexRequest f

end NmpStore.Routing

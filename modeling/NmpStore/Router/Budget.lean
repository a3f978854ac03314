import NmpStore.Router.Recompile
import NmpStore.Router.Refusals

/-! # The books of a router

A router keeps, beside its plan, the owners of what it refused. A compilation starts these books anew, and panics if one
demand owns two refused requests of a session.
-/

namespace NmpStore.Routing

open Resolver (ConcreteFilter ReadRouting)

structure BudgetRouter extends Router where
  refusals : Refusals := {}

def capRefusedDemands (bag : SessionBag) (cap : Nat) : List (RelaySessionKey × List DemandKey) :=
  (bag.toList.filter fun part => part.1 ∈ (applyGlobalRelayCap bag cap).2.2).map fun part =>
    (part.1, (Std.ExtTreeSet.ofList ((bagEntries part.2).flatMap fun entry =>
      entry.ownership.ownerDemands.toList) compare).toList)

/-- The candidates that no running request serves, with the owners that have no request on the session. -/
def offered (o : Router.Ownership) (candidate : WireReqs) : WireReqs :=
  (candidate.map fun session requests =>
    ((requests.filter fun req => !o.attaches session req).map (Router.prune o session)).filter fun req =>
      !req.ownership.ownerDemands.isEmpty).filter fun _ requests => !requests.isEmpty

section

variable [FilterHash] (running candidate : WireReqs) (budget : CompileBudget)

section
omit [FilterHash]

def cappedSessions : List RelaySessionKey :=
  let fresh := candidate.toList.filter fun part => !running.contains part.1
  (rankSessions (fresh.map fun part => (part.1, Router.scoreRequests part.2))).drop (budget.relayCap - running.size)

def overBudget (session : RelaySessionKey) (requests : List WireReq) : List WireReq :=
  match budget.maxSubscriptions[session.1]? with
  | none => []
  | some limit =>
    let allowed := limit - (running[session]?.getD []).length
    if requests.length ≤ allowed then [] else (requests.insertionSort fun a b => (coverageRank a b).isLE).drop allowed

def uncapped : WireReqs :=
  candidate.filter fun session _ => session ∉ cappedSessions running candidate budget

end

def residualRefused : List (RelaySessionKey × WireReq × Bool) :=
  ((cappedSessions running candidate budget).flatMap fun session => (candidate[session]?.getD []).map (session, ·, false)) ++
    (uncapped running candidate budget).toList.flatMap fun part =>
      (overBudget running budget part.1 part.2).map (part.1, ·, true)

def bookShortfall (shortfalls : Table RelaySessionKey BudgetShortfall) (part : RelaySessionKey × List WireReq) :
    Table RelaySessionKey BudgetShortfall :=
  let refused := (overBudget running budget part.1 part.2).length
  match shortfalls[part.1]? with
  | some x => shortfalls.insert part.1
      ⟨budget.maxSubscriptions[part.1.1]?.getD x.budget, x.planned + part.2.length, x.refused + refused⟩
  | none =>
    if 0 < refused then shortfalls.insert part.1
      ⟨budget.maxSubscriptions[part.1.1]?.getD 0, (running[part.1]?.getD []).length + part.2.length, refused⟩
    else shortfalls

end

def retirePlanned (shortfalls : Table RelaySessionKey BudgetShortfall) (session : RelaySessionKey) :
    Table RelaySessionKey BudgetShortfall :=
  match shortfalls[session]? with
  | some x => shortfalls.insert session { x with planned := x.planned - 1 }
  | none => shortfalls

def closeBooked (f : Refusals) (plan : RelayPlan) (key : RelaySessionKey × SubId) : RelayPlan :=
  if (plan.at key.1).any fun req => req.subId = key.2 then
    markRefused f { plan with
      reqs := Router.closeRequest plan.reqs key
      subscriptionShortfalls := retirePlanned plan.subscriptionShortfalls key.1 } key.1
  else plan

namespace BudgetRouter

section

variable [FilterHash] (rules : List MergeRule)

def compile (b : BudgetRouter) (bag : SessionBag) (budget : CompileBudget) : Option (BudgetRouter × CompileOutcome) := do
  let (toRouter, outcome) := b.toRouter.compile rules bag budget
  let refusals ← rebuildRefusalIndexes (capRefusedDemands bag budget.relayCap)
    (compileDemand rules b.plan budget b.nextToken bag).budgetRefused
  pure ({ toRouter, refusals }, outcome)

def admitCohort (b : BudgetRouter) (o : Router.Ownership) (pending : List DemandKey) (bag : SessionBag) (budget : CompileBudget) :
    Option (BudgetRouter × WireDelta) := do
  let (plan, f) := pending.foldl removeRefusalOwners (b.plan, b.refusals)
  let r : Router := { b.toRouter with plan }
  let compiled := compileDemand rules {} { relayCap := bag.size } b.nextToken bag
  let candidate := offered o compiled.plan.reqs
  let refused := residualRefused plan.reqs candidate budget
  let (next, wire) := r.admitCohort rules o bag budget
  let subscriptionShortfalls := (uncapped plan.reqs candidate budget).toList.foldl (bookShortfall plan.reqs budget)
    plan.subscriptionShortfalls
  let (refusals, limitedDemands) ← refused.foldlM recordRefusedRequest (f, plan.limitedDemands)
  let touched := refused.map Prod.fst ++ (r.admitted o compiled.plan.reqs budget).keys
  pure ({ plan := touched.foldl (markRefused refusals) { next.plan with limitedDemands, subscriptionShortfalls }
          nextToken := next.nextToken
          refusals }, wire)

end

def withdraw (b : BudgetRouter) (o : Router.Ownership) (withdrawn : List DemandKey) (closing : List (RelaySessionKey × SubId)) :
    BudgetRouter × WireDelta :=
  let (plan, f) := withdrawn.foldl removeRefusalOwners (b.plan, b.refusals)
  let owned := { plan with reqs := plan.reqs.map fun session requests => requests.map (Router.own o session) }
  ({ b with plan := closing.foldl (closeBooked f) owned, refusals := f }, (b.toRouter.withdraw o closing).2)

end BudgetRouter

/-- The place of a refused owner in the books, which only one owner takes. -/
def Refusal.slot (owner : Refusal) : DemandKey × RelaySessionKey := (owner.demand, owner.session)

/-- The owners are booked after those that the books have, or two of them take one place. -/
def Books (book : Refusals → Option Refusals) (owners : List Refusal) : Prop :=
  ∀ f : Refusals, (f.owners.map Refusal.slot).Nodup → (book f).map Refusals.owners =
    if ((f.owners ++ owners).map Refusal.slot).Nodup then some (f.owners ++ owners) else none

theorem indexRefusalOwner_books (owner : Refusal) : Books (indexRefusalOwner · owner) [owner] := by
  intro f hNodup
  have hTaken : (f.owners.any fun other => other.demand = owner.demand && other.session = owner.session) = true ↔
      owner.slot ∈ f.owners.map Refusal.slot := by
    simp [Refusal.slot]
  have hFree : ((f.owners ++ [owner]).map Refusal.slot).Nodup ↔ owner.slot ∉ f.owners.map Refusal.slot := by
    rw [map_append, List.map_singleton, ← List.concat_eq_append, List.nodup_concat]
    exact and_iff_left hNodup
  unfold indexRefusalOwner
  simp only [hTaken, hFree]
  split <;> simp_all

theorem Books.andThen (h : Books book owners) (h' : Books book' owners') :
    Books (fun f => (book f).bind book') (owners ++ owners') := by
  intro f hNodup
  have hFirst := h f hNodup
  cases hBook : book f with
  | none =>
    rw [hBook] at hFirst
    have hTwice : ¬((f.owners ++ owners).map Refusal.slot).Nodup := by
      intro hN
      rw [if_pos hN] at hFirst
      cases hFirst
    rw [if_neg]
    · simp [hBook]
    intro hN
    rw [← append_assoc, map_append] at hN
    exact hTwice (nodup_append.mp hN).1
  | some mid =>
    rw [hBook, Option.map_some] at hFirst
    split at hFirst
    · rename_i hMid
      have hOwners : mid.owners = f.owners ++ owners := Option.some_inj.mp hFirst
      have hSecond := h' mid (hOwners ▸ hMid)
      rw [hOwners, append_assoc] at hSecond
      simpa only [hBook, Option.bind_some] using hSecond
    · cases hFirst

theorem Books.foldlM {α : Type} {step : Refusals → α → Option Refusals} {owners : α → List Refusal}
    (h : ∀ x, Books (step · x) (owners x)) (l : List α) : Books (l.foldlM step) (l.flatMap owners) := by
  induction l with
  | nil =>
    intro f hNodup
    simp [hNodup]
  | cons x l ih => exact (h x).andThen ih

theorem indexRequest_books (refused : RelaySessionKey × WireReq × Bool) :
    Books (indexRequest · refused) (refusalsOf refused.1 refused.2.1 refused.2.2) := by
  intro f hNodup
  have hOwners : (countRequest f refused.1 refused.2.1 refused.2.2).owners = f.owners := by
    unfold countRequest
    split <;> rfl
  have hAll := Books.foldlM indexRefusalOwner_books (refusalsOf refused.1 refused.2.1 refused.2.2)
    (countRequest f refused.1 refused.2.1 refused.2.2) (hOwners ▸ hNodup)
  rw [hOwners, List.flatMap_singleton'] at hAll
  exact hAll

def refusedSlots (refused : List (RelaySessionKey × WireReq)) : List (DemandKey × RelaySessionKey) :=
  (refusedOwners refused).flatMap fun part => part.2.ownerDemands.toList.map (·, part.1)

/-- The books are rebuilt just if no demand owns two of the refused on one session. -/
theorem rebuildRefusalIndexes_isSome : (rebuildRefusalIndexes capRefused refused).isSome ↔
    ((capRefusals capRefused).map Refusal.slot ++ refusedSlots refused).Nodup := by
  have hAll := ((Books.foldlM indexRefusalOwner_books (capRefusals capRefused)).andThen
    (Books.foldlM indexRequest_books (refused.map fun part => (part.1, part.2, true)))) {} nodup_nil
  have hSlots : (((capRefusals capRefused).flatMap fun owner => [owner]) ++ ((refused.map fun part =>
      (part.1, part.2, true)).flatMap fun part => refusalsOf part.1 part.2.1 part.2.2)).map Refusal.slot =
        (capRefusals capRefused).map Refusal.slot ++ refusedSlots refused := by
    rw [List.flatMap_singleton', map_append, refusedSlots, refusedOwners, List.flatMap_map, List.flatMap_map,
      List.map_flatMap]
    simp only [refusalsOf, map_map]
    rfl
  rw [show ({} : Refusals).owners = [] from rfl, nil_append, hSlots] at hAll
  have hRebuild : (rebuildRefusalIndexes capRefused refused).map Refusals.owners = _ := hAll
  rw [← Option.isSome_map, hRebuild]
  split <;> simp_all

/-! ## Runs of a router with its books -/

theorem removeRefusalOwners_reqs (demands : List DemandKey) (state : RelayPlan × Refusals) :
    (demands.foldl removeRefusalOwners state).1.reqs = state.1.reqs := by
  have hDrops : ∀ (owners : List Refusal) (state : RelayPlan × Refusals),
      (owners.foldl dropOwner state).1.reqs = state.1.reqs := by
    intro owners
    induction owners with
    | nil => exact fun _ => rfl
    | cons owner owners ih => exact fun state => ih (dropOwner state owner)
  induction demands generalizing state with
  | nil => rfl
  | cons demand demands ih =>
    rw [foldl_cons, ih]
    unfold removeRefusalOwners
    split
    simp only
    split
    · rfl
    · rw [hDrops]

theorem markRefused_reqs (f : Refusals) (sessions : List RelaySessionKey) (plan : RelayPlan) :
    (sessions.foldl (markRefused f) plan).reqs = plan.reqs := by
  induction sessions generalizing plan with
  | nil => rfl
  | cons session sessions ih => exact ih (markRefused f plan session)

theorem closeBooked_reqs (f : Refusals) (closing : List (RelaySessionKey × SubId)) (plan : RelayPlan) :
    (closing.foldl (closeBooked f) plan).reqs = closing.foldl Router.closeRequest plan.reqs := by
  induction closing generalizing plan with
  | nil => rfl
  | cons key closing ih =>
    rw [foldl_cons, ih, foldl_cons]
    congr 1
    unfold closeBooked
    split
    · rfl
    rename_i hGone
    have hNone : (plan.reqs[key.1]?.getD []).findIdx? (fun req => req.subId = key.2) = none := by
      rw [List.findIdx?_eq_none_iff]
      simpa [RelayPlan.at] using hGone
    rw [Router.closeRequest, hNone]

section

variable [FilterHash] (rules : List MergeRule)

inductive BudgetCall where
  | compile (bag : SessionBag) (budget : CompileBudget)
  | admitCohort (o : Router.Ownership) (pending : List DemandKey) (bag : SessionBag) (budget : CompileBudget)
  | withdraw (o : Router.Ownership) (withdrawn : List DemandKey) (closing : List (RelaySessionKey × SubId))

def BudgetCall.run (b : BudgetRouter) : BudgetCall → Option BudgetRouter
  | .compile bag budget => (b.compile rules bag budget).map Prod.fst
  | .admitCohort o pending bag budget => (b.admitCohort rules o pending bag budget).map Prod.fst
  | .withdraw o withdrawn closing => some (b.withdraw o withdrawn closing).1

/-- A call that panics leads nowhere. -/
def BudgetRuns : BudgetRouter → BudgetRouter → Prop :=
  Relation.ReflTransGen fun b b' => ∃ call : BudgetCall, call.run rules b = some b'

variable {rules} {b b' : BudgetRouter}

theorem BudgetCall.wired {call : BudgetCall} (h : Wired b.plan.reqs b.nextToken) (hRun : call.run rules b = some b') :
    Wired b'.plan.reqs b'.nextToken := by
  cases call with
  | compile bag budget =>
    obtain ⟨done, hDone, rfl⟩ := Option.map_eq_some_iff.mp hRun
    obtain ⟨refusals, -, hEq⟩ := bind_eq_some_iff.mp hDone
    cases hEq
    exact (Router.compile_turns h bag budget).wired
  | admitCohort o pending bag budget =>
    have hReqs := removeRefusalOwners_reqs pending (b.plan, b.refusals)
    obtain ⟨done, hDone, rfl⟩ := Option.map_eq_some_iff.mp hRun
    unfold BudgetRouter.admitCohort at hDone
    simp only at hDone
    generalize pending.foldl removeRefusalOwners (b.plan, b.refusals) = state at hReqs hDone
    obtain ⟨⟨refusals, limited⟩, -, hEq⟩ := bind_eq_some_iff.mp hDone
    cases hEq
    rw [markRefused_reqs]
    exact (Router.admitCohort_turns (r := { b.toRouter with plan := state.1 }) (hReqs ▸ h) o bag budget).wired
  | withdraw o withdrawn closing =>
    have hReqs := removeRefusalOwners_reqs withdrawn (b.plan, b.refusals)
    cases hRun
    unfold BudgetRouter.withdraw
    generalize withdrawn.foldl removeRefusalOwners (b.plan, b.refusals) = state at hReqs
    simp only [closeBooked_reqs]
    exact (Router.withdraw_turns (r := { b.toRouter with plan := state.1 }) (hReqs ▸ h) o closing).wired

theorem BudgetRuns.wired (h : BudgetRuns rules {} b) : Wired b.plan.reqs b.nextToken := by
  induction h with
  | refl => exact ⟨nodup_nil, fun s hs => absurd hs not_mem_nil⟩
  | tail _ hCall ih =>
    obtain ⟨call, hRun⟩ := hCall
    exact call.wired ih hRun

/-- If the books are built for a compilation, they are for the next one of the same demand. -/
theorem BudgetRouter.compile_returns (hWired : Wired b.plan.reqs b.nextToken)
    (h : b.compile rules bag budget = some (again, first)) : ∃ refusals, again.compile rules bag budget =
      some ({ toRouter := (again.toRouter.compile rules bag budget).1, refusals },
        (again.toRouter.compile rules bag budget).2) := by
  obtain ⟨refusals, hBooks, hEq⟩ := bind_eq_some_iff.mp h
  cases hEq
  have hTurns : Turns b.toRouter (b.toRouter.compile rules bag budget).1 := Router.compile_turns hWired bag budget
  obtain ⟨-, -, hOwners⟩ := compileDemand_again rules budget bag hWired hTurns.wired
    (sent_compile rules b.toRouter bag budget)
  have hNodup := rebuildRefusalIndexes_isSome.mp (Option.isSome_of_eq_some hBooks)
  have hSlots := hOwners.flatMap_right fun part => part.2.ownerDemands.toList.map (·, part.1)
  have hAgain : (rebuildRefusalIndexes (capRefusedDemands bag budget.relayCap) _).isSome :=
    rebuildRefusalIndexes_isSome.mpr (((List.Perm.refl _).append hSlots).nodup_iff.mpr hNodup)
  obtain ⟨books, hSome⟩ := Option.isSome_iff_exists.mp hAgain
  exact ⟨books, bind_eq_some_iff.mpr ⟨books, hSome, rfl⟩⟩

/-- From every state a run reaches: after a compilation that returns, compiling the same demand a second time, within the
same budget, returns too, tells the relays nothing, replaces nothing, reports no new owners and leaves the plan as it is. -/
theorem recompile_quiet (h : BudgetRuns rules {} b) (bag : SessionBag) (budget : CompileBudget)
    (hFirst : b.compile rules bag budget = some (again, first)) :
    ∃ later outcome, again.compile rules bag budget = some (later, outcome) ∧
      (outcome.wire = [] ∧ outcome.replacements = [] ∧ outcome.updates = []) ∧ later.plan = again.plan := by
  have hWired := h.wired
  obtain ⟨books, hLater⟩ := BudgetRouter.compile_returns hWired hFirst
  obtain ⟨refusals, -, hEq⟩ := bind_eq_some_iff.mp hFirst
  cases hEq
  exact ⟨_, _, hLater, compile_again hWired bag budget⟩

end

def bookedStep (b : BudgetRouter) (filters : List ConcreteFilter) (subscriptions : Nat) :
    Option (BudgetRouter × CompileOutcome) :=
  @BudgetRouter.compile flatHash [structuralUnion] b (pinnedBag filters) (accepting subscriptions)

/-- The relay refuses one of the two requests, both times. -/
theorem recompile_quiet_refused : ∃ b again first later outcome,
    bookedStep b [newest 1 20, newest 7 5] 1 = some (again, first) ∧ again.plan.subscriptionShortfalls.isEmpty = false ∧
      bookedStep again [newest 1 20, newest 7 5] 1 = some (later, outcome) ∧ outcome.wire = [] ∧ later.plan = again.plan := by
  let _ := flatHash
  have hRefused : ((bookedStep {} [newest 1 10, newest 7 5] 2).bind fun two =>
      bookedStep two.1 [newest 1 20, newest 7 5] 1).any (fun one => !one.1.plan.subscriptionShortfalls.isEmpty) = true := by
    decide +kernel
  obtain ⟨⟨again, first⟩, hTwo, hShort⟩ := (Option.any_eq_true _ _).mp hRefused
  obtain ⟨⟨b, start⟩, hStart, hFirst⟩ := bind_eq_some_iff.mp hTwo
  have hRuns : BudgetRuns [structuralUnion] {} b :=
    .single ⟨.compile (pinnedBag [newest 1 10, newest 7 5]) (accepting 2), by
      rw [BudgetCall.run]
      exact Option.map_eq_some_iff.mpr ⟨(b, start), hStart, rfl⟩⟩
  obtain ⟨later, outcome, hLater, hQuiet, hPlan⟩ :=
    recompile_quiet hRuns (pinnedBag [newest 1 20, newest 7 5]) (accepting 1) hFirst
  exact ⟨b, again, first, later, outcome, hFirst, by simpa using hShort, hLater, hQuiet.1, hPlan⟩

end NmpStore.Routing

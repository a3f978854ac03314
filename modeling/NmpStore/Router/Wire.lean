import Mathlib.Data.List.Sort
import NmpStore.Coverage.Interval
import NmpStore.Resolver.Grammar

/-! # Wire requests and their tokens

A wire request is named by a token of the router's mint counter, never by its filter.
-/

namespace NmpStore.Routing

open Resolver (ConcreteFilter ContextualAtom IndexedTagName ReadRouting lawfulEqCmp_compareOn)

abbrev CoverageKey := ContextualAtom

abbrev DemandKey := CoverageKey × Option Nat × Option Nat × Option Nat

instance : TransOrd DemandKey := inferInstance
instance : TransOrd (DemandKey × PublicKey) := inferInstance

inductive Lane where
  | authorOutbound
  | hint
  | provenance
  | operatorApp
  | operatorFallback
  | exact
  deriving DecidableEq

inductive RouteKind where
  | coverage
  | supplemental
  | exact
  deriving DecidableEq

structure RouteProvenance where
  relay : RelayUrl
  lane : Lane
  coversAuthors : ExtTreeSet PublicKey
  routeKind : RouteKind
  deriving DecidableEq

namespace RouteProvenance

def key (p : RouteProvenance) : RelayUrl × Nat × List PublicKey × Nat :=
  (p.relay, p.lane.ctorIdx, p.coversAuthors.toList, p.routeKind.ctorIdx)

theorem key_injective : Function.Injective key := by
  rintro ⟨r, lane, authors, kn⟩ ⟨r', lane', authors', kn'⟩ h
  simp only [key, Prod.mk.injEq] at h
  obtain ⟨rfl, hL, hA, hK⟩ := h
  obtain rfl := Std.ExtTreeSet.toList_inj.mp hA
  have hL : lane = lane' := by revert hL; cases lane <;> cases lane' <;> decide
  have hK : kn = kn' := by revert hK; cases kn <;> cases kn' <;> decide
  rw [hL, hK]

instance : Ord RouteProvenance := ⟨compareOn key⟩

instance : TransOrd RouteProvenance := inferInstanceAs (TransCmp (compareOn key))

instance : LawfulEqOrd RouteProvenance := lawfulEqCmp_compareOn key_injective

end RouteProvenance

instance : Ord ReadRouting := ⟨compareOn fun routing : ReadRouting => match routing with
  | .auto => none
  | .explicit relays => some relays⟩

instance : TransOrd ReadRouting := inferInstanceAs (TransCmp (compareOn _))

instance : LawfulEqOrd ReadRouting := lawfulEqCmp_compareOn fun a b h => by
  cases a <;> cases b <;> simp_all

abbrev SubId := RelayUrl × Nat × Option PublicKey

def SubId.mint (id : SubId) : Nat := id.2.1

def SubId.allocate (session : RelaySessionKey) (counter : Nat) : SubId := (session.1, counter, session.2)

structure EntryOwnership where
  coverageClaims : ExtTreeSet CoverageKey := ∅
  ownerDemands : ExtTreeSet DemandKey := ∅
  coverageAssignments : ExtTreeSet (DemandKey × PublicKey) := ∅
  deriving DecidableEq

def EntryOwnership.extend (o other : EntryOwnership) : EntryOwnership where
  coverageClaims := o.coverageClaims ∪ other.coverageClaims
  ownerDemands := o.ownerDemands ∪ other.ownerDemands
  coverageAssignments := o.coverageAssignments ∪ other.coverageAssignments

structure WireReq where
  subId : SubId
  filter : ConcreteFilter
  routing : ReadRouting
  provenance : ExtTreeSet RouteProvenance := ∅
  ownership : EntryOwnership := {}
  deriving DecidableEq

abbrev WireReqs := Table RelaySessionKey (List WireReq)

structure BudgetShortfall where
  budget : Nat
  planned : Nat
  refused : Nat
  deriving DecidableEq

structure RelayPlan where
  reqs : WireReqs := ∅
  limitedDemands : ExtTreeSet DemandKey := ∅
  refusedSessions : ExtTreeSet RelaySessionKey := ∅
  subscriptionShortfalls : Table RelaySessionKey BudgetShortfall := ∅
  deriving DecidableEq

def RelayPlan.at (plan : RelayPlan) (session : RelaySessionKey) : List WireReq := plan.reqs[session]?.getD []

inductive Component where
  | since
  | until
  | kinds
  | authors
  | ids
  | limit
  | tag (name : IndexedTagName)
  deriving DecidableEq

def soleDifference (a b : ConcreteFilter) : Option Component :=
  let names := a.tags.keys ++ b.tags.keys.filter fun name => !a.tags.contains name
  let fields : List (Component × Bool) :=
    [(.since, a.since ≠ b.since), (.until, a.until ≠ b.until), (.kinds, a.kinds ≠ b.kinds),
      (.authors, a.authors ≠ b.authors), (.ids, a.ids ≠ b.ids), (.limit, a.limit ≠ b.limit)]
  let tags : List (Component × Bool) := names.map fun name => (.tag name, decide (a.tags[name]? ≠ b.tags[name]?))
  match (fields ++ tags).filter Prod.snd with
  | [(component, _)] => some component
  | _ => none

def affinity (component : Component) (a b : ConcreteFilter) : Nat × Nat :=
  match component with
  | .kinds => overlap a.kinds b.kinds
  | .authors => overlap a.authors b.authors
  | .ids => overlap a.ids b.ids
  | .tag name => overlap a.tags[name]? b.tags[name]?
  | .since => nearest a.since b.since
  | .until => nearest a.until b.until
  | .limit => nearest a.limit b.limit
where
  overlap {α : Type} [Ord α] [Std.TransOrd α] (a b : Option (ExtTreeSet α compare)) : Nat × Nat :=
    match a, b with
    | some a, some b => ((a.filter (· ∈ b)).size, 0)
    | _, _ => (0, 0)
  nearest (a b : Option Nat) : Nat × Nat :=
    match a, b with
    | some a, some b => (0, max a b - min a b)
    | _, _ => (0, 2 ^ 64 - 1)

structure Assignment where
  subId : SubId
  predecessor : Option SubId
  deriving DecidableEq

/-- The earlier requests already claimed, by position, and what the filters have been given, by position. -/
structure Matching where
  taken : List Nat := []
  out : Table Nat Assignment := ∅
  counter : Nat

def pickBest {α : Type} (better : α → α → Bool) (candidates : List α) : Option α :=
  candidates.foldl (fun best candidate => match best with
    | none => some candidate
    | some best => if better candidate best then some candidate else some best) none

section

variable (session : RelaySessionKey) (priors : List (ConcreteFilter × SubId)) (next : List ConcreteFilter)

def keepStep (m : Matching) (i : Nat) : Matching :=
  let candidates := priors.zipIdx.filter fun prior => prior.2 ∉ m.taken ∧ next[i]? = some prior.1.1
  match pickBest (fun p q => (compare p.1.2 q.1.2).isLT) candidates with
  | some prior => { m with taken := prior.2 :: m.taken, out := m.out.insert i ⟨prior.1.2, none⟩ }
  | none => m

/-- The strength of a one-component continuation: more overlap, less distance, then the prior itself. -/
def tieBreak (filter : ConcreteFilter) (prior : (ConcreteFilter × SubId) × Nat) : Option ((Nat × Nat) × ConcreteFilter × SubId) :=
  (soleDifference prior.1.1 filter).map fun component => (affinity component prior.1.1 filter, prior.1)

def stronger (a b : (Nat × Nat) × ConcreteFilter × SubId) : Bool :=
  ((compare b.1.1 a.1.1).then ((compare a.1.2 b.1.2).then ((compare a.2.1 b.2.1).then (compare a.2.2 b.2.2)))).isLT

/-- A filter that differs from an unclaimed one in a single component replaces it, under a fresh token. -/
def replaceStep (m : Matching) (i : Nat) : Matching :=
  if m.out.contains i then m
  else
    let candidates := (priors.zipIdx.filter fun prior => prior.2 ∉ m.taken).filterMap fun prior =>
      (next[i]?.bind fun filter => tieBreak filter prior).map (·, prior)
    match pickBest (fun p q => stronger p.1 q.1) candidates with
    | some (_, prior) =>
      { taken := prior.2 :: m.taken
        out := m.out.insert i ⟨.allocate session m.counter, some prior.1.2⟩
        counter := m.counter + 1 }
    | none => m

def mintStep (m : Matching) (i : Nat) : Matching :=
  if m.out.contains i then m
  else { m with out := m.out.insert i ⟨.allocate session m.counter, none⟩, counter := m.counter + 1 }

def canonicalOrder : List Nat :=
  (List.range next.length).insertionSort fun i j => (compare (next[i]?, i) (next[j]?, j)).isLE

def matching (counter : Nat) : Matching :=
  let order := canonicalOrder next
  let m := order.foldl (keepStep priors next) { counter }
  let m := order.foldl (replaceStep session priors next) m
  order.foldl (mintStep session) m

/-- A token for every filter, in the order of the filters, and the counter after the fresh ones. -/
def assign (counter : Nat) : List Assignment × Nat :=
  let m := matching session priors next counter
  ((List.range next.length).filterMap (m.out[·]?), m.counter)

end

inductive WireOp where
  | req (subId : SubId) (filter : ConcreteFilter)
  | close (subId : SubId)
  deriving DecidableEq

abbrev WireDelta := List (RelaySessionKey × List WireOp)

def bySub (requests : List WireReq) : Table SubId ConcreteFilter :=
  requests.foldl (fun table req => table.insert req.subId req.filter) ∅

def sessionOps (prev next : List WireReq) : List WireOp :=
  let prev := bySub prev
  let next := bySub next
  ((prev.keys.filter fun id => !next.contains id).map .close) ++
    ((next.toList.filter fun entry => prev[entry.1]? ≠ some entry.2).map fun entry => .req entry.1 entry.2)

def diffPlans (prev next : RelayPlan) : WireDelta :=
  let sessions : ExtTreeSet RelaySessionKey := .ofList (prev.reqs.keys ++ next.reqs.keys) compare
  (sessions.toList.map fun session => (session, sessionOps (prev.at session) (next.at session))).filter
    fun entry => !entry.2.isEmpty

end NmpStore.Routing

import NmpStore.Coverage.Eose
import NmpStore.Postings.Flush
import NmpStore.Store.Maintenance

/-! # Coverage over whole runs

A completed request is credited from the latest lower bound of the outstanding revisions to the earliest of their upper
bounds and the time of the answer.
-/

namespace NmpStore.Coverage

def WindowsMeet (fifo : List AttributionSnapshot) (eoseTime : Nat) : Prop :=
  ∀ lower ∈ fifo, ∀ floor ∈ lower.floor,
    floor ≤ eoseTime ∧ ∀ upper ∈ fifo, ∀ time ∈ upper.untilTime, floor ≤ time

namespace Fifo

theorem interval_wellFormed_iff : (interval fifo et).WellFormed ↔ WindowsMeet fifo et := by
  have hM : min et (minUntil fifo et) = minUntil fifo et :=
    min_eq_right (le_minUntil_iff.mp le_rfl).1
  simp only [CoverageInterval.WellFormed, interval, hM, maxFloor_le_iff, le_minUntil_iff, WindowsMeet]
  constructor
  · rintro ⟨hEose, hu⟩ lw hL fl hF
    exact ⟨hEose lw hL fl hF, fun up hU tm hT => hu up hU tm hT lw hL fl hF⟩
  · intro h
    exact ⟨fun lw hL fl hF => (h lw hL fl hF).1,
      fun up hU tm hT lw hL fl hF => (h lw hL fl hF).2 up hU tm hT⟩

theorem claims_wellFormed_iff (hs : claims fifo et ≠ []) :
    (∀ cl ∈ claims fifo et, cl.2.WellFormed) ↔ WindowsMeet fifo et := by
  rw [← interval_wellFormed_iff]
  have hS : ∀ cl ∈ claims fifo et, cl.2 = interval fifo et := by
    intro cl hC
    obtain ⟨k, -, rfl⟩ := mem_map.mp hC
    rfl
  constructor
  · intro h
    obtain ⟨cl, hC⟩ := exists_mem_of_ne_nil _ hs
    exact hS cl hC ▸ h cl hC
  · intro h cl hC
    exact (hS cl hC).symm ▸ h

end Fifo

structure Engine where
  attribution : AttributionState := {}
  store : Store := {}

def persistAttributedCompletion (s : Store) (completed : CompletedAttribution) : Store :=
  match completed.intoEligibleClaims with
  | none => s
  | some [] => s
  | some claims => s.recordCoverage (claims.map fun claim => (claim.1, completed.subId.session, claim.2))

def EoseSound (state : AttributionState) (session : RelaySessionKey) (wire : WireToken) (eoseTime : Nat) : Prop :=
  ∀ sub ∈ state.subIdByWire[(session, wire)]?, ∀ fifo ∈ state.inflight[sub]?,
    Fifo.authority fifo = .eligible → Fifo.claims fifo eoseTime ≠ [] → WindowsMeet fifo eoseTime

namespace Engine

variable [ShardHash]

inductive Step : Engine → Engine → Prop
  | send {e : Engine} (session : RelaySessionKey) (sub : SubId) (filter : ConcreteFilter) (claims : Finset CoverageKey) :
      Step e { e with attribution := (e.attribution.recordSend session sub filter claims).2 }
  | extend {e : Engine} (sub : SubId) (hash : DescriptorHash) (added : Finset CoverageKey) :
      Step e { e with attribution := (e.attribution.extendCurrentSendClaims sub hash added).2 }
  | remove {e : Engine} (sub : SubId) (hash : DescriptorHash) (removed : Finset CoverageKey) :
      Step e { e with attribution := (e.attribution.removeCurrentSendClaims sub hash removed).2 }
  | discardRevision {e : Engine} (sub : SubId) (revision : Nat) :
      Step e { e with attribution := e.attribution.discardSendRevision sub revision }
  | discardSub {e : Engine} (sub : SubId) : Step e { e with attribution := e.attribution.discardSub sub }
  | clearSession {e : Engine} (session : RelaySessionKey) :
      Step e { e with attribution := e.attribution.clearSession session }
  | commitFailed {e : Engine} (session : RelaySessionKey) (wire : WireToken) :
      Step e { e with attribution := e.attribution.poisonEventCommitFailure session wire }
  | eose {e : Engine} (session : RelaySessionKey) (wire : WireToken) (eoseTime : Nat)
      {completed : Option CompletedAttribution} {attribution : AttributionState}
      (hSound : EoseSound e.attribution session wire eoseTime)
      (hEose : e.attribution.attributeEose session wire eoseTime = .ok (completed, attribution)) :
      Step e ⟨attribution, completed.elim e.store (persistAttributedCompletion e.store)⟩
  | recordCoverage {e : Engine} (claims : List (CoverageKey × RelaySessionKey × CoverageInterval))
      (hClaims : ∀ claim ∈ claims, claim.2.2.WellFormed) : Step e { e with store := e.store.recordCoverage claims }
  | gc {e : Engine} (claimed : Event → Bool) {report : Store.GcReport} {store : Store}
      (hGc : e.store.gc claimed = .ok (report, store)) : Step e { e with store }
  /-- Every other operation of the store leaves the coverage rows alone. -/
  | elsewhere {e : Engine} {store : Store} (hCoverage : store.coverage = e.store.coverage) : Step e { e with store }

inductive Reachable : Engine → Prop
  | start : Reachable {}
  | next {e e' : Engine} (before : Reachable e) (step : Step e e') : Reachable e'

variable {s : Store} {e : Engine}

section
omit [ShardHash]

theorem attributeEose_some {st st' : AttributionState}
    (hEose : st.attributeEose k wire et = .ok (some completed, st')) :
    ∃ s ff, st.subIdByWire[(k, wire)]? = some s ∧ st.inflight[s]? = some ff ∧
      completed.coverageAuthority = Fifo.authority ff ∧ completed.claims = Fifo.claims ff et := by
  unfold AttributionState.attributeEose at hEose
  split at hEose
  · cases hEose
  next s hW =>
  split at hEose
  · cases hEose
  · cases hEose
  next head rs hF =>
  cases hEose
  exact ⟨s, head :: rs, hW, hF, rfl, rfl⟩

theorem persist_wellFormed (ho : s.coverage.WellFormed)
    (h : completed.coverageAuthority = .eligible → ∀ cl ∈ completed.claims, cl.2.WellFormed) :
    (persistAttributedCompletion s completed).coverage.WellFormed := by
  unfold persistAttributedCompletion CompletedAttribution.intoEligibleClaims
  split_ifs with hE
  · split
    · exact ho
    · exact ho
    next cla _ hClaims =>
    cases hClaims
    refine ho.record ?_
    intro cl hC
    obtain ⟨cr, hc, rfl⟩ := mem_map.mp hC
    exact h hE cr hc
  · exact ho

end

theorem gc_wellFormed {cl : Event → Bool}
    (ho : s.coverage.WellFormed) (hGc : s.gc cl = .ok (report, s')) : s'.coverage.WellFormed := by
  simp only [Store.gc, Store.commit, bind_ok, mapError_ok,
    pure_ok, Prod.mk.injEq] at hGc
  obtain ⟨ev, -, updates, hU, -, ⟨fl, -, rfl⟩, -, rfl⟩ := hGc
  exact ho.applyUpdates (CoverageTable.collectUpdates_wellFormed hU)

theorem gc_ne_panicked (ho : s.coverage.WellFormed) (cl : Event → Bool) (pn : SlicePanic) :
    s.gc cl ≠ .error (.panicked pn) := by
  obtain ⟨up, hU⟩ := ho.collectUpdates
    (.new ((s.events.rows.toList.filter (s.isVictim cl)).map (·.2)))
  unfold Store.gc
  simp only [hU]
  cases (s.events.rows.toList.filter (s.isVictim cl)).foldlM Store.evict s.events with
  | error e => simp [Except.mapError, bind, Except.bind]
  | ok events =>
    cases hC : Store.commit { s with events, coverage := s.coverage.applyUpdates up } with
    | error e => simp [Except.mapError, bind, Except.bind, hC]
    | ok s' => simp [Except.mapError, bind, Except.bind, pure, Except.pure, hC]

theorem Step.wellFormed {e' : Engine} (st : Step e e') (ho : e.store.coverage.WellFormed) :
    e'.store.coverage.WellFormed := by
  cases st with
  | send | extend | remove | discardRevision | discardSub | clearSession | commitFailed => exact ho
  | eose k wr et hSound hEose =>
    rename_i cm att
    cases cm with
    | none => exact ho
    | some cm =>
      obtain ⟨s, fifo, hB, hF, hA, hClaims⟩ := attributeEose_some hEose
      refine persist_wellFormed ho fun hE => ?_
      rw [hClaims]
      by_cases hZ : Fifo.claims fifo et = []
      · simp [hZ]
      · exact (Fifo.claims_wellFormed_iff hZ).mpr
          (hSound s hB fifo hF (hA.symm.trans hE) hZ)
  | recordCoverage cla hClaims => exact ho.record hClaims
  | gc cl hGc => exact gc_wellFormed ho hGc
  | elsewhere hCoverage => exact hCoverage ▸ ho

theorem Reachable.wellFormed (h : Reachable e) : e.store.coverage.WellFormed := by
  induction h with
  | start => exact .empty
  | next _ st ih => exact st.wellFormed ih

/-- As long as every credited answer finds windows that meet, every row is an interval and the collector
never panics; and an answer credits intervals exactly if it finds windows that meet. -/
theorem coverage_wellFormed {e : Engine} (h : Reachable e) : e.store.coverage.WellFormed ∧
      (∀ (claimed : Event → Bool) (panic : SlicePanic), e.store.gc claimed ≠ .error (.panicked panic)) ∧
      ∀ (session : RelaySessionKey) (wire : WireToken) (eoseTime : Nat) (completed : CompletedAttribution)
        (attribution : AttributionState),
        e.attribution.attributeEose session wire eoseTime = .ok (some completed, attribution) →
        ((∀ claims ∈ completed.intoEligibleClaims, ∀ claim ∈ claims, claim.2.WellFormed) ↔
          EoseSound e.attribution session wire eoseTime) := by
  refine ⟨h.wellFormed, gc_ne_panicked h.wellFormed, ?_⟩
  intro session wire eoseTime completed attribution hEose
  obtain ⟨sub, fifo, hS, hF, hA, hClaims⟩ := attributeEose_some hEose
  simp only [EoseSound, CompletedAttribution.intoEligibleClaims, hS, hF, Option.mem_def, Option.some.injEq,
    hA, hClaims, forall_eq']
  by_cases hE : Fifo.authority fifo = .eligible
  · by_cases hN : Fifo.claims fifo eoseTime = []
    · simp [hE, hN]
    · simpa [hE, hN] using Fifo.claims_wellFormed_iff hN
  · simp [hE]

def afterSend (since : Nat) : AttributionState :=
  (({} : AttributionState).recordSend ("wss://relay", none) ("wss://relay", 1, none) ⟨0, some since, none, none⟩ {7}).2

section
omit [ShardHash]

/-- A request from time 5 on, answered at time 50, leaves an interval. -/
theorem coverage_wellFormed_one_request : ∃ (completed : CompletedAttribution) (attribution : AttributionState),
      (afterSend 5).attributeEose ("wss://relay", none) 1 50 = .ok (some completed, attribution) ∧
      (persistAttributedCompletion {} completed).coverage.WellFormed := by
  let _ := oneShard
  have hS : ((afterSend 5).attributeEose ("wss://relay", none) 1 50).toOption.any (·.1.isSome) := by decide +kernel
  simp only [any_eq_true, toOption_some, isSome_iff_exists] at hS
  obtain ⟨⟨_, attribution⟩, hEose, completed, rfl⟩ := hS
  have hSound : EoseSound (afterSend 5) ("wss://relay", none) 1 50 := by
    intro sub hs fif hF _ _
    obtain rfl : ("wss://relay", 1, none) = sub := by
      simpa [afterSend, AttributionState.recordSend, SubId.wireSubIdString] using hs
    obtain rfl : [.ofSend 0 ⟨0, some 5, none, none⟩ {7}] = fif := by
      simpa [afterSend, AttributionState.recordSend, AttributionState.fifo] using hF
    simp [WindowsMeet, AttributionSnapshot.ofSend]
  have hR : Reachable ⟨attribution, persistAttributedCompletion {} completed⟩ :=
    .next (.next .start (.send _ _ _ _)) (.eose (e := ⟨afterSend 5, {}⟩) _ _ _ hSound hEose)
  exact ⟨completed, attribution, hEose, (coverage_wellFormed hR).1⟩

/-- A note of time 75 is stored, and a request for the times from 100 on is answered at time 50. -/
def futureWindow : Option Store :=
  let _ := oneShard
  match Store.insert {} { id := 1, pubkey := 2, createdAt := 75, kind := 1, sig := 3 } ⟨"wss://relay", 40⟩,
      (afterSend 100).attributeEose ("wss://relay", none) 1 50 with
  | .ok (_, s), .ok (some completed, _) => some (persistAttributedCompletion s completed)
  | _, _ => none

def panicOf {α : Type} : Except Store.GcFailure α → Option SlicePanic
  | .error (.panicked panic) => some panic
  | _ => none

/-- The answer files the times from 100 to 50, and the next collection slices from 1 to 0. -/
theorem futureWindow_gc_panics :
    (futureWindow.bind fun s => s.coverage[((7 : CoverageKey), (("wss://relay", none) : RelaySessionKey))]?) =
        some ⟨100, 50⟩ ∧
      (futureWindow.bind fun s => panicOf (@Store.gc oneShard s fun _ => false)) = some ⟨1, 0⟩ := by
  decide +kernel

end

end Engine

end NmpStore.Coverage

import NmpStore.Router.Run

/-! # Wire deltas

A delta closes what has left the plan and opens what has entered it. Every opened name is new.
-/

namespace NmpStore.Routing

open Resolver (ConcreteFilter ReadRouting)

def Tells (delta : WireDelta) (session : RelaySessionKey) (op : WireOp) : Prop := ∃ ops, (session, ops) ∈ delta ∧ op ∈ ops

variable {id : SubId} {filter : ConcreteFilter} {next : RelayPlan}

theorem get_bySub (hN : (rq.map WireReq.subId).Nodup) :
    (bySub rq)[id]? = some filter ↔ ∃ r ∈ rq, r.subId = id ∧ r.filter = filter := by
  have hF : ∀ (l : List WireReq) (tb : Table SubId ConcreteFilter), (l.map WireReq.subId).Nodup →
      ((l.foldl (fun tb r => tb.insert r.subId r.filter) tb)[id]? = some filter ↔
        (∃ r ∈ l, r.subId = id ∧ r.filter = filter) ∨ id ∉ l.map WireReq.subId ∧ tb[id]? = some filter) := by
    intro l
    induction l with
    | nil => simp
    | cons r l ih =>
      intro tb hN
      obtain ⟨hU, hN⟩ := nodup_cons.mp hN
      rw [foldl_cons, ih _ hN, get_insert]
      by_cases hE : r.subId = id
      · subst hE
        have hX : ∀ o ∈ l, o.subId ≠ r.subId := fun o hX hS =>
          hU (hS ▸ mem_map_of_mem hX)
        constructor
        · rintro (⟨o, hI, hS, -⟩ | ⟨-, hH⟩)
          · exact absurd hS (hX o hI)
          · exact .inl ⟨r, mem_cons_self, rfl, by simpa using hH⟩
        · rintro (⟨o, hI, hS, hf⟩ | ⟨hY, -⟩)
          · rcases mem_cons.mp hI with rfl | hI
            · exact .inr ⟨hU, by simp [hf]⟩
            · exact absurd hS (hX o hI)
          · exact absurd (.head _) hY
      · simp [hE, Ne.symm hE]
  rw [bySub, hF rq ∅ hN]
  simp

theorem contains_bySub (hN : (rq.map WireReq.subId).Nodup) :
    (bySub rq).contains id ↔ ∃ r ∈ rq, r.subId = id := by
  rw [contains_eq_isSome_getElem?, isSome_iff_exists]
  constructor
  · rintro ⟨filter, hG⟩
    obtain ⟨r, hQ, hn, -⟩ := (get_bySub hN).mp hG
    exact ⟨r, hQ, hn⟩
  · rintro ⟨r, hQ, hn⟩
    exact ⟨r.filter, (get_bySub hN).mpr ⟨r, hQ, hn, rfl⟩⟩

theorem tells_diffPlans :
    Tells (diffPlans pv next) k op ↔ op ∈ sessionOps (pv.at k) (next.at k) := by
  constructor
  · rintro ⟨os, hI, ho⟩
    obtain ⟨hM, -⟩ := mem_filter.mp hI
    obtain ⟨o, -, hE⟩ := mem_map.mp hM
    cases hE
    exact ho
  · intro ho
    refine ⟨_, mem_filter.mpr ⟨mem_map.mpr ⟨k, ?_, rfl⟩, ?_⟩, ho⟩
    · rw [Std.ExtTreeSet.mem_toList, mem_ofList, contains_iff_mem]
      by_contra hN
      rw [mem_append, not_or, mem_keys, mem_keys,
        mem_iff_isSome_getElem?, mem_iff_isSome_getElem?] at hN
      simp only [not_eq_true, Option.isSome_eq_false_iff, isNone_iff_eq_none] at hN
      rw [RelayPlan.at, RelayPlan.at, hN.1, hN.2] at ho
      exact absurd ho not_mem_nil
    · cases hs : sessionOps (pv.at k) (next.at k) with
      | nil => simp [hs] at ho
      | cons _ _ => rfl

theorem tells_req (hP : ((pv.at k).map WireReq.subId).Nodup)
    (hN : ((next.at k).map WireReq.subId).Nodup) : Tells (diffPlans pv next) k (.req id filter) ↔
      (∃ r ∈ next.at k, r.subId = id ∧ r.filter = filter) ∧
        ¬∃ r ∈ pv.at k, r.subId = id ∧ r.filter = filter := by
  rw [tells_diffPlans, ← get_bySub hP, ← get_bySub hN, sessionOps]
  simp

theorem tells_close (hP : ((pv.at k).map WireReq.subId).Nodup)
    (hN : ((next.at k).map WireReq.subId).Nodup) : Tells (diffPlans pv next) k (.close id) ↔
      (∃ r ∈ pv.at k, r.subId = id) ∧ ¬∃ r ∈ next.at k, r.subId = id := by
  rw [tells_diffPlans, ← contains_bySub hP, ← contains_bySub hN, sessionOps]
  simp
  intro _
  rw [← not_eq_true, Std.ExtTreeMap.contains_iff_mem]

theorem Wired.names {pl : RelayPlan} {ct : Nat} (h : Wired pl.reqs ct) (k : RelaySessionKey) :
    ((pl.at k).map WireReq.subId).Nodup := by
  have hM := (h.session k).1
  refine List.Nodup.of_map SubId.mint ?_
  rw [map_map]
  exact hM

section

variable [FilterHash]

theorem Step.opens_new (h : Step rules r r' delta) (hW : Wired r.plan.reqs r.nextToken) (ho : Tells delta ses (.req id filter)) :
    r.nextToken ≤ id.mint := by
  cases h with
  | compile b c =>
    obtain ⟨-, he, hn⟩ := compileDemand_wired rules hW c b
    obtain ⟨⟨re, hQ, rfl, rfl⟩, hY⟩ := (tells_req (hW.names ses) (hn.names ses)).mp ho
    rcases he (re.sent ses) (mem_sent.mpr ⟨re, hQ, rfl⟩) with hO | hN
    · obtain ⟨ol, hO, hS⟩ := mem_sent.mp hO
      have hA : ol.subId = re.subId := congrArg Sent.subId hS
      have hF : ol.filter = re.filter := congrArg Sent.filter hS
      exact absurd ⟨ol, hO, hA, hF⟩ hY
    · exact hN
  | admitCohort o b c =>
    obtain ⟨-, hN, -⟩ := Router.admitted_new rules r o b c
    obtain ⟨op, hI, hp⟩ := ho
    obtain ⟨⟨ot, rq⟩, hP, hE⟩ := mem_map.mp hI
    cases hE
    obtain ⟨re, hQ, hR⟩ := mem_map.mp hp
    obtain ⟨rfl, rfl⟩ := WireOp.req.inj hR
    exact hN (re.sent ot) (mem_flatMap.mpr ⟨_, hP, mem_map_of_mem hQ⟩)
  | withdraw o sh =>
    have hf : ∀ (sh : List (RelaySessionKey × SubId)) (tb : Table RelaySessionKey (List WireOp)),
        (∀ (s : RelaySessionKey) op, tb[s]? = some op → .req id filter ∉ op) → ∀ (s : RelaySessionKey) op,
        (sh.foldl (fun op k => op.insert k.1 (op[k.1]?.getD [] ++ [.close k.2])) tb)[s]? = some op →
          .req id filter ∉ op := by
      intro sh
      induction sh with
      | nil => exact fun _ h => h
      | cons k sh ih =>
        intro tb hT
        refine ih _ fun s op hG => ?_
        rcases insert_some.mp hG with ⟨-, rfl⟩ | ⟨-, hG⟩
        · cases hH : tb[k.1]? with
          | none => simp
          | some ol =>
            have := hT k.1 ol hH
            simpa using this
        · exact hT s op hG
    obtain ⟨op, hI, hp⟩ := ho
    exact absurd hp (hf sh ∅ (fun s op hG => by simp at hG) ses op (mem_toList.mp hI))

/-- In every run: live names are distinct, a name that has left does not return, a live name keeps its session, routing and
filter, and what a delta opens has not been live in any state before. -/
theorem wire_identity {r₁ r₂ r₃ : Router} (h₁ : Runs rules {} r₁) (h₂ : Runs rules r₁ r₂) (h₃ : Runs rules r₂ r₃) :
    ((sent r₁.plan.reqs).map Sent.subId).Nodup ∧
      (∀ id, id ∈ (sent r₁.plan.reqs).map Sent.subId → id ∉ (sent r₂.plan.reqs).map Sent.subId →
        id ∉ (sent r₃.plan.reqs).map Sent.subId) ∧
      (∀ a ∈ sent r₁.plan.reqs, ∀ b ∈ sent r₂.plan.reqs, a.subId = b.subId → a = b) ∧
      ∀ r' delta, Step rules r₂ r' delta → ∀ session id filter, Tells delta session (.req id filter) →
        id ∉ (sent r₁.plan.reqs).map Sent.subId := by
  have hW := h₁.wired
  have hT := h₂.turns hW
  have ht := h₃.turns hT.wired
  have hL : ∀ id ∈ (sent r₁.plan.reqs).map Sent.subId, id.mint < r₁.nextToken := by
    intro id hI
    obtain ⟨s, hs, rfl⟩ := mem_map.mp hI
    exact hW.below s hs
  refine ⟨?_, fun id hI hG hB => ?_, fun a ha b hb hE => ?_, fun r' delta hS session id filter hp hI => ?_⟩
  · refine List.Nodup.of_map SubId.mint ?_
    rw [map_map]
    exact hW.nodup
  · obtain ⟨s, hs, rfl⟩ := mem_map.mp hB
    rcases ht.each s hs with ho | hN
    · exact hG (mem_map_of_mem ho)
    · exact lt_irrefl _ ((hL _ hI).trans_le (hT.le.trans hN))
  · rcases hT.each b hb with ho | hN
    · exact inj_on_of_nodup_map hW.nodup ha ho (congrArg SubId.mint hE)
    · have hM : a.mint = b.mint := congrArg SubId.mint hE
      exact absurd (hW.below a ha) (Nat.not_lt_of_le (hM ▸ hN))
  · have hN := hS.opens_new hT.wired hp
    exact lt_irrefl _ ((hL id hI).trans_le (hT.le.trans hN))

end

@[reducible] def flatHash : FilterHash := ⟨fun _ => 0⟩

def pinnedSession : RelaySessionKey := ("wss://r", none)

def newest (kind limit : Nat) : ConcreteFilter := { kinds := some (.ofList [kind]), limit := some limit }

def pinnedEntry (filter : ConcreteFilter) : Entry where
  filter
  provenance := [⟨"wss://r", .exact, ∅, .exact⟩]
  ownership := {
    coverageClaims := .ofList [⟨{ filter with limit := none }, .explicit ["wss://r"], none, ∅⟩] compare
    ownerDemands := .ofList [(⟨{ filter with limit := none }, .explicit ["wss://r"], none, ∅⟩, none, none, filter.limit)] compare }

def pinnedBag (filters : List ConcreteFilter) : SessionBag :=
  (∅ : SessionBag).insert pinnedSession
    ((∅ : Table ReadRouting (List Entry)).insert (.explicit ["wss://r"]) (filters.map pinnedEntry))

def accepting (subscriptions : Nat) : CompileBudget :=
  { relayCap := 10, maxSubscriptions := (∅ : Table RelayUrl Nat).insert "wss://r" subscriptions }

def pinnedStep (r : Router) (filters : List ConcreteFilter) (subscriptions : Nat) : Router × CompileOutcome :=
  @Router.compile flatHash [structuralUnion] r (pinnedBag filters) (accepting subscriptions)

def twoPinned : Router := (pinnedStep {} [newest 1 10, newest 7 5] 2).1

theorem twoPinned_runs : @Runs flatHash [structuralUnion] {} twoPinned :=
  .single ⟨_, @Step.compile flatHash [structuralUnion] {} (pinnedBag [newest 1 10, newest 7 5]) (accepting 2)⟩

/-- The name of the replaced request does not come back with its filter. -/
theorem wire_identity_pinned :
    ("wss://r", 0, none) ∉ (sent (pinnedStep (pinnedStep twoPinned [newest 1 20, newest 7 5] 2).1
      [newest 1 10, newest 7 5] 2).1.plan.reqs).map Sent.subId :=
  (@wire_identity flatHash [structuralUnion] _ _ _ twoPinned_runs
    (.single ⟨_, @Step.compile flatHash [structuralUnion] twoPinned (pinnedBag [newest 1 20, newest 7 5]) (accepting 2)⟩)
    (.single ⟨_, @Step.compile flatHash [structuralUnion] _ (pinnedBag [newest 1 10, newest 7 5]) (accepting 2)⟩)).2.1
    ("wss://r", 0, none) (by decide +kernel) (by decide +kernel)

end NmpStore.Routing

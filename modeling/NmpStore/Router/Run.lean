import NmpStore.Router.Plan

/-! # Wire identity over whole runs

Whatever a router is told to compile, admit or withdraw, a request that is live was live before as it is, or its token
is new.
-/

namespace NmpStore.Routing

open Resolver (ConcreteFilter ReadRouting)

theorem sent_map {f : RelaySessionKey → WireReq → WireReq}
    (hf : ∀ k r, (f k r).sent k = r.sent k) :
    sent (rq.map fun k rs => rs.map (f k)) = sent rq := by
  rw [sent, sent, Std.ExtTreeMap.toList_map, List.flatMap_map]
  congr 1
  funext part
  rw [map_map]
  exact List.map_congr_left fun r _ => hf part.1 r

theorem nodup_sent
    (hL : ∀ k : RelaySessionKey, ((rq[k]?.getD []).map fun r => r.subId.mint).Nodup)
    (hp : ∀ a ∈ sent rq, ∀ b ∈ sent rq, a.mint = b.mint → a.session = b.session) :
    ((sent rq).map Sent.mint).Nodup := by
  rw [sent, List.map_flatMap, List.nodup_flatMap]
  refine ⟨fun pr hP => ?_, ?_⟩
  · have hG : rq[pr.1]? = some pr.2 := mem_toList.mp hP
    have hH := hL pr.1
    rw [hG] at hH
    rw [map_map]
    exact hH
  have hK : rq.toList.Pairwise fun a b => a.1 ≠ b.1 := pairwise_map.mp (keys_nodup rq)
  refine hK.imp_of_mem fun {a b} ha hb hN => ?_
  intro mn hA hB
  have hM : ∀ pr ∈ rq.toList, mn ∈ (pr.2.map (WireReq.sent pr.1)).map Sent.mint →
      ∃ s ∈ sent rq, s.session = pr.1 ∧ s.mint = mn := by
    intro pr hP hI
    obtain ⟨s, hs, hm⟩ := mem_map.mp hI
    obtain ⟨r, hQ, rfl⟩ := mem_map.mp hs
    exact ⟨_, mem_flatMap.mpr ⟨pr, hP, hs⟩, rfl, hm⟩
  obtain ⟨s, hs, hSess, hm⟩ := hM a ha hA
  obtain ⟨s', hs', hSess', hm'⟩ := hM b hb hB
  exact hN (hSess ▸ hSess' ▸ hp s hs s' hs' (hm.trans hm'.symm))

theorem subperm_map {α β : Type} {l l' : List α} (h : l.Subperm l') (f : α → β) : (l.map f).Subperm (l'.map f) := by
  obtain ⟨m, hP, hB⟩ := h
  exact ⟨m.map f, hP.map f, hB.map f⟩

/-- One call: what is live was live before as it is, or has a token that was not given out before. -/
structure Turns (r r' : Router) : Prop where
  le : r.nextToken ≤ r'.nextToken
  each : ∀ s ∈ sent r'.plan.reqs, s ∈ sent r.plan.reqs ∨ r.nextToken ≤ s.mint
  wired : Wired r'.plan.reqs r'.nextToken

variable {r r' : Router}

theorem Turns.of_subperm (h : Wired r.plan.reqs r.nextToken) (hT : r'.nextToken = r.nextToken)
    (hB : ∀ k : RelaySessionKey, ((r'.plan.reqs[k]?.getD []).map (WireReq.sent k)).Subperm
      ((r.plan.reqs[k]?.getD []).map (WireReq.sent k))) : Turns r r' := by
  have hM : ∀ s ∈ sent r'.plan.reqs, s ∈ sent r.plan.reqs := by
    intro s hs
    obtain ⟨rq, hQ, hE⟩ := mem_sent.mp hs
    obtain ⟨o, hO, hS⟩ := mem_map.mp ((hB s.session).subset (mem_map_of_mem hQ))
    exact mem_sent.mpr ⟨o, hO, hS.trans hE⟩
  refine ⟨hT ▸ le_rfl, fun s hs => .inl (hM s hs), nodup_sent (fun k => ?_) fun a ha b hb hE => ?_,
    fun s hs => hT ▸ h.below s (hM s hs)⟩
  · obtain ⟨l, hP, h1⟩ := (hB k)
    have hn := (h.session k).1
    have hO : (((r.plan.reqs[k]?.getD []).map (WireReq.sent k)).map Sent.mint).Nodup := by
      rw [map_map]
      exact hn
    have hN := (hP.map Sent.mint).nodup_iff.mp (hO.sublist (h1.map _))
    rw [map_map] at hN
    exact hN
  · exact congrArg Sent.session (inj_on_of_nodup_map h.nodup (hM a ha) (hM b hb) hE)

theorem retain_sent (k : RelaySessionKey) (pv : List WireReq) (r : WireReq) :
    (retain pv r).sent k = r.sent k := by
  unfold retain
  split
  · rename_i o hO
    obtain ⟨hF, hS⟩ := filter_eq_some_iff.mp hO
    have hN : o.subId = r.subId := by simpa using find?_some hF
    obtain ⟨hR, hf⟩ : o.routing = r.routing ∧ o.filter = r.filter := by simpa using hS
    simp [WireReq.sent, hN, hR, hf]
  · rfl

theorem Planned.nodup (h : Planned start stop o all) :
    ((all.map Prod.fst).map Sent.mint).Nodup := by
  rw [map_map]
  exact pairwise_map.mpr (h.apart.imp fun hA => hA.1)

theorem compileDemand_wired [FilterHash] (rules : List MergeRule)
    (h : Wired incs.reqs start) (c : CompileBudget) (b : SessionBag) :
    start ≤ (compileDemand rules incs c start b).counter ∧
      (∀ s ∈ sent (compileDemand rules incs c start b).plan.reqs, s ∈ sent incs.reqs ∨ start ≤ s.mint) ∧
      Wired (compileDemand rules incs c start b).plan.reqs
        (compileDemand rules incs c start b).counter := by
  obtain ⟨done, all, hP, -, hp, -⟩ := compileDemand_compiles rules h c b
  generalize compileDemand rules incs c start b = o at hP hp
  have hM : ∀ s ∈ sent o.plan.reqs, ∃ x ∈ all, x.1 = s := fun s hs =>
    mem_map.mp (hp.subset (mem_append_left _ hs))
  have hE : ∀ s ∈ sent o.plan.reqs, s ∈ sent incs.reqs ∨ start ≤ s.mint ∧ s.mint < o.counter := by
    intro s hs
    obtain ⟨x, hx, rfl⟩ := hM s hs
    exact (hP.given x hx).imp (fun hK => (mem_filter.mp hK.2).1) fun hN => ⟨hN.1, hN.2.1⟩
  refine ⟨hP.le, fun s hs => (hE s hs).imp_right And.left, ?_, fun s hs => ?_⟩
  · have hA := (hp.map Sent.mint).nodup_iff.mpr hP.nodup
    rw [map_append] at hA
    exact (nodup_append.mp hA).1
  · rcases hE s hs with hO | hN
    · exact (h.below s hO).trans_le hP.le
    · exact hN.2

namespace Router

section

variable [FilterHash] {r : Router}

theorem compile_sent (b : SessionBag) (c : CompileBudget) :
    sent (r.compile rules b c).1.plan.reqs = sent (compileDemand rules r.plan c r.nextToken b).plan.reqs :=
  sent_map fun k rq => retain_sent k (r.plan.at k) rq

theorem compile_turns (h : Wired r.plan.reqs r.nextToken) (b : SessionBag) (c : CompileBudget) :
    Turns r (r.compile rules b c).1 := by
  obtain ⟨hL, hE, hW⟩ := compileDemand_wired rules h c b
  refine ⟨hL, ?_, ?_, ?_⟩
  · rw [compile_sent]
    exact hE
  · rw [compile_sent]
    exact hW.nodup
  · rw [compile_sent]
    exact hW.below

section
omit [FilterHash]

theorem own_sent (o : Ownership) (k : RelaySessionKey) (r : WireReq) :
    (own o k r).sent k = r.sent k :=
  rfl

theorem getElem?_appendRequests (rq mr : WireReqs) (k : RelaySessionKey) :
    (appendRequests rq mr)[k]? =
      (mr[k]?.map fun rs => some (rq[k]?.getD [] ++ rs)).getD rq[k]? := by
  refine Table.get_foldl_toList mr (fun _ rs ol => some (ol.getD [] ++ rs)) (fun w pr o => ?_) rq k
  rw [get_insert]
  split
  · rename_i hE
    rw [hE]
  · rfl

theorem get_appendRequests (rq mr : WireReqs) (k : RelaySessionKey) :
    (appendRequests rq mr)[k]?.getD [] = rq[k]?.getD [] ++ mr[k]?.getD [] := by
  rw [getElem?_appendRequests]
  cases mr[k]? with
  | none => simp
  | some rs => rfl

theorem filter_getD_subperm {α : Type} (l : Option (List α)) (p : List α → Bool) : ((l.filter p).getD []).Subperm
    (l.getD []) := by
  cases l with
  | none => exact .refl _
  | some l =>
    rw [Option.filter_some]
    split
    · exact .refl _
    · exact List.nil_subperm

theorem pruned_subperm (o : Ownership) (k : RelaySessionKey) (rq : List WireReq) :
    ((((rq.filter fun r => !o.attaches k r).map (prune o k)).filter
      fun r => !r.ownership.ownerDemands.isEmpty).map (WireReq.sent k)).Subperm
        (rq.map (WireReq.sent k)) := by
  have hP : ((rq.filter fun r => !o.attaches k r).map (prune o k)).map (WireReq.sent k) =
      (rq.filter fun r => !o.attaches k r).map (WireReq.sent k) := by
    rw [map_map]
    rfl
  refine ((List.filter_sublist.map _).trans ?_).subperm
  rw [hP]
  exact List.filter_sublist.map _

end

theorem admitted_subperm (o : Ownership) (cd : WireReqs) (c : CompileBudget)
    (k : RelaySessionKey) : (((r.admitted o cd c)[k]?.getD []).map (WireReq.sent k)).Subperm
      ((cd[k]?.getD []).map (WireReq.sent k)) := by
  unfold admitted applyResidualBudget
  simp only [get_filter, getElem?_map]
  refine (subperm_map (filter_getD_subperm _ _) _).trans ?_
  generalize ho : Option.filter _ (Option.filter _ _) = offered
  have hF : ((offered.getD []).map (WireReq.sent k)).Subperm ((cd[k]?.getD []).map (WireReq.sent k)) := by
    rw [← ho]
    refine (subperm_map ((filter_getD_subperm _ _).trans (filter_getD_subperm _ _)) _).trans ?_
    cases cd[k]? with
    | none => exact .refl _
    | some rq => exact pruned_subperm o k rq
  refine List.Subperm.trans ?_ hF
  cases offered with
  | none => exact .refl _
  | some rq =>
    refine subperm_map ?_ _
    rw [map_some, getD_some, getD_some]
    split
    · exact .refl _
    split
    · exact .refl _
    · refine (sortBySub_perm _).subperm.trans ?_
      exact (List.take_sublist _ _).subperm.trans (perm_insertionSort _ _).subperm

theorem admitted_new (rules : List MergeRule) (r : Router) (o : Ownership) (b : SessionBag) (c : CompileBudget) :
    let cm := compileDemand rules {} { relayCap := b.size } r.nextToken b
    let mr := r.admitted o cm.plan.reqs c
    r.nextToken ≤ cm.counter ∧ (∀ s ∈ sent mr, r.nextToken ≤ s.mint) ∧ Wired mr cm.counter := by
  have hZ : Wired ({} : RelayPlan).reqs r.nextToken := ⟨nodup_nil, fun s hs => absurd hs not_mem_nil⟩
  obtain ⟨hL, he, hW⟩ := compileDemand_wired rules hZ { relayCap := b.size } b
  intro cm mr
  have hB := fun k => admitted_subperm (r := r) o cm.plan.reqs c k
  have hT : Turns { plan := cm.plan, nextToken := cm.counter }
      { plan := { cm.plan with reqs := mr }, nextToken := cm.counter } := .of_subperm hW rfl hB
  refine ⟨hL, fun s hs => ?_, hT.wired⟩
  obtain ⟨rq, hQ, hE⟩ := mem_sent.mp hs
  obtain ⟨ol, hO, hS⟩ := mem_map.mp ((hB s.session).subset (mem_map_of_mem hQ))
  exact (he s (mem_sent.mpr ⟨ol, hO, hS.trans hE⟩)).resolve_left not_mem_nil

theorem admitCohort_turns (h : Wired r.plan.reqs r.nextToken) (o : Ownership) (bg : SessionBag) (c : CompileBudget) :
    Turns r (r.admitCohort rules o bg c).1 := by
  obtain ⟨hL, hN, hm⟩ := admitted_new rules r o bg c
  unfold admitCohort
  simp only
  generalize compileDemand rules {} { relayCap := bg.size } r.nextToken bg = compiled at hL hN hm
  generalize r.admitted o compiled.plan.reqs c = more at hN hm
  generalize ho : (r.plan.reqs.map fun k rq => rq.map (own o k)) = owned
  have hS : sent owned = sent r.plan.reqs := by
    rw [← ho]
    exact sent_map fun k re => own_sent o k re
  have hO : Wired owned r.nextToken := ⟨hS ▸ h.nodup, fun s hs => h.below s (hS ▸ hs)⟩
  have hM : ∀ s, s ∈ sent (appendRequests owned more) ↔ s ∈ sent r.plan.reqs ∨ s ∈ sent more := by
    intro s
    rw [← hS, mem_sent, mem_sent, mem_sent, get_appendRequests]
    simp only [mem_append, or_and_right, exists_or]
  refine ⟨hL, fun s hs => ?_, nodup_sent (fun k => ?_) fun a ha b hb hE => ?_, fun s hs => ?_⟩
  · exact ((hM s).mp hs).imp_right (hN s)
  · rw [get_appendRequests, map_append]
    refine nodup_append.mpr ⟨(hO.session k).1, (hm.session k).1, ?_⟩
    rintro mn hA _ hB rfl
    obtain ⟨re, hQ, rfl⟩ := mem_map.mp hA
    obtain ⟨re', hQ', hE⟩ := mem_map.mp hB
    have hl := (hO.session k).2 re hQ
    have hH := hN (re'.sent k) (mem_sent.mpr ⟨re', hQ', rfl⟩)
    change r.nextToken ≤ re'.subId.mint at hH
    omega
  · rcases (hM a).mp ha with ha | ha <;> rcases (hM b).mp hb with hb | hb
    · exact congrArg Sent.session (inj_on_of_nodup_map h.nodup ha hb hE)
    · exact absurd (h.below a ha) (Nat.not_lt_of_le (hE ▸ hN b hb))
    · exact absurd (h.below b hb) (Nat.not_lt_of_le (hE ▸ hN a ha))
    · exact congrArg Sent.session (inj_on_of_nodup_map hm.nodup ha hb hE)
  · rcases (hM s).mp hs with hs | hs
    · exact (h.below s hs).trans_le hL
    · exact hm.below s hs

end

theorem swapRemove_subperm (rq : List WireReq) (hi : i < rq.length) :
    (swapRemove rq i).Subperm rq := by
  unfold swapRemove
  split
  · rename_i last hL
    have hS : rq = rq.dropLast ++ [last] := (List.dropLast_append_getLast? last hL).symm
    split
    · exact (List.dropLast_sublist _).subperm
    have hI : i < rq.dropLast.length := by
      rw [List.length_dropLast]
      omega
    have hT : (rq.dropLast.set i last).Perm (last :: rq.dropLast.eraseIdx i) := by
      rw [List.set_eq_take_append_cons_drop, if_pos hI, List.eraseIdx_eq_take_drop_succ]
      exact List.perm_middle
    have hF : (last :: rq.dropLast.eraseIdx i).Sublist (last :: rq.dropLast) :=
      (List.eraseIdx_sublist _ _).cons_cons last
    have hB : (last :: rq.dropLast).Perm rq := by
      conv_rhs => rw [hS]
      exact (List.perm_append_singleton last _).symm
    exact (hT.subperm.trans hF.subperm).trans hB.subperm
  · exact .refl _

theorem closeRequest_subperm (rq : WireReqs) (k : RelaySessionKey × SubId)
    (ss : RelaySessionKey) : ((closeRequest rq k)[ss]?.getD []).Subperm (rq[ss]?.getD []) := by
  unfold closeRequest
  simp only
  split
  · rename_i i hF
    obtain ⟨hi, -⟩ := List.findIdx?_eq_some_iff_getElem.mp hF
    have hG := swapRemove_subperm _ hi
    split
    · rw [get_erase]
      split
      · exact List.nil_subperm
      · exact .refl _
    rw [get_insert]
    split
    · rename_i hE
      rw [← hE]
      exact hG
    · exact .refl _
  · exact .refl _

theorem withdraw_turns {r : Router} (h : Wired r.plan.reqs r.nextToken) (o : Ownership)
    (sh : List (RelaySessionKey × SubId)) : Turns r (r.withdraw o sh).1 := by
  have hF : ∀ (sh : List (RelaySessionKey × SubId)) (rq : WireReqs)
      (ss : RelaySessionKey), ((sh.foldl closeRequest rq)[ss]?.getD []).Subperm (rq[ss]?.getD []) := by
    intro sh
    induction sh with
    | nil => exact fun _ _ => .refl _
    | cons k sh ih => exact fun rq ss => (ih _ ss).trans (closeRequest_subperm rq k ss)
  refine .of_subperm h rfl fun ss => ?_
  refine (subperm_map (hF sh _ ss) _).trans ?_
  rw [getElem?_map]
  cases r.plan.reqs[ss]? with
  | none => exact .refl _
  | some rs =>
    rw [map_some, getD_some, getD_some, map_map]
    exact .refl _

end Router

section

variable [FilterHash] (rules : List MergeRule)

/-- A call and the wire delta it returns. Calls that only change local owners are withdrawals of nothing. -/
inductive Step (r : Router) : Router → WireDelta → Prop where
  | compile (bag : SessionBag) (budget : CompileBudget) :
      Step r (r.compile rules bag budget).1 (r.compile rules bag budget).2.wire
  | admitCohort (o : Router.Ownership) (bag : SessionBag) (budget : CompileBudget) :
      Step r (r.admitCohort rules o bag budget).1 (r.admitCohort rules o bag budget).2
  | withdraw (o : Router.Ownership) (closing : List (RelaySessionKey × SubId)) :
      Step r (r.withdraw o closing).1 (r.withdraw o closing).2

def Runs : Router → Router → Prop := Relation.ReflTransGen fun r r' => ∃ delta, Step rules r r' delta

variable {rules}

theorem Step.turns (h : Step rules r r' delta) (hW : Wired r.plan.reqs r.nextToken) :
    Turns r r' := by
  cases h with
  | compile b c => exact Router.compile_turns hW b c
  | admitCohort o b c => exact Router.admitCohort_turns hW o b c
  | withdraw o sh => exact Router.withdraw_turns hW o sh

theorem Runs.turns (h : Runs rules r r') (hW : Wired r.plan.reqs r.nextToken) : Turns r r' := by
  induction h with
  | refl => exact ⟨le_rfl, fun s hs => .inl hs, hW⟩
  | tail _ hS ih =>
    obtain ⟨dl, hS⟩ := hS
    have hn := hS.turns ih.wired
    refine ⟨ih.le.trans hn.le, fun s hs => ?_, hn.wired⟩
    rcases hn.each s hs with hO | hN
    · exact ih.each s hO
    · exact .inr (ih.le.trans hN)

theorem Runs.wired (h : Runs rules {} r) : Wired r.plan.reqs r.nextToken :=
  (h.turns ⟨nodup_nil, fun _ hs => absurd hs not_mem_nil⟩).wired

end

end NmpStore.Routing

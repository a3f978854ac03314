import NmpStore.Router.Compile

/-! # What compiling does to the wire

A request is kept as it was sent, or it is new under a token that was never given out before.
-/

namespace NmpStore.Routing

open Resolver (ConcreteFilter ReadRouting)

structure Sent where
  session : RelaySessionKey
  subId : SubId
  filter : ConcreteFilter
  routing : ReadRouting
  deriving DecidableEq

def Sent.mint (s : Sent) : Nat := s.subId.mint

def WireReq.sent (session : RelaySessionKey) (req : WireReq) : Sent := ⟨session, req.subId, req.filter, req.routing⟩

def sent (reqs : WireReqs) : List Sent :=
  reqs.toList.flatMap fun part => part.2.map (WireReq.sent part.1)

theorem mem_sent :
    s ∈ sent rq ↔ ∃ r ∈ rq[s.session]?.getD [], r.sent s.session = s := by
  rw [sent, mem_flatMap]
  constructor
  · rintro ⟨⟨k, rs⟩, hP, hI⟩
    obtain ⟨r, hQ, rfl⟩ := mem_map.mp hI
    have hG : rq[k]? = some rs := mem_toList.mp hP
    exact ⟨r, by simpa [WireReq.sent, hG] using hQ, rfl⟩
  · rintro ⟨r, hQ, hE⟩
    cases hG : rq[s.session]? with
    | none => simp [hG] at hQ
    | some rs =>
      refine ⟨(s.session, rs), mem_toList.mpr hG, mem_map.mpr ⟨r, ?_, hE⟩⟩
      simpa [hG] using hQ

theorem sent_insert_perm (hN : rq[ses]? = none) (rs : List WireReq) :
    (sent (rq.insert ses rs)).Perm (rs.map (WireReq.sent ses) ++ sent rq) := by
  have hP := Table.toList_insert_perm (t := rq) (k := ses) (v := rs) hN
  exact hP.flatMap_right _

theorem keys_nodup {K V : Type} [Ord K] [TransOrd K] [LawfulEqOrd K] (t : Table K V) : (t.toList.map Prod.fst).Nodup := by
  rw [map_fst_toList_eq_keys]
  exact nodup_keys

/-- Two planned requests do not share a token, and what one replaces the other neither keeps nor replaces. -/
def Unrelated (x y : Sent × Option SubId) : Prop :=
  x.1.mint ≠ y.1.mint ∧ (∀ s, x.2 = some s → y.2 ≠ some s ∧ y.1.mint ≠ s.mint) ∧ ∀ s, y.2 = some s → x.1.mint ≠ s.mint

theorem Unrelated.symm (h : Unrelated x y) : Unrelated y x :=
  ⟨h.1.symm, fun s hs => ⟨fun hs' => (h.2.1 s hs').1 hs, h.2.2 s hs⟩, fun s hs => (h.2.1 s hs).2⟩

instance : Std.Symm Unrelated := ⟨fun _ _ => Unrelated.symm⟩

/-- Requests that got their names from one counter: each is as an old one was, or is new and may replace an old one. -/
structure Planned (start stop : Nat) (old : List Sent) (out : List (Sent × Option SubId)) : Prop where
  le : start ≤ stop
  given : ∀ x ∈ out, (x.2 = none ∧ x.1 ∈ old) ∨
    (start ≤ x.1.mint ∧ x.1.mint < stop ∧ ∀ s, x.2 = some s → ∃ o ∈ old, o.session = x.1.session ∧ o.subId = s)
  apart : out.Pairwise Unrelated

theorem Planned.nil (st : Nat) (o : List Sent) : Planned st st o [] :=
  ⟨le_rfl, fun x hx => by simp at hx, List.Pairwise.nil⟩

theorem Planned.mono
    (h : Planned start stop old out) (hM : ∀ o ∈ old, o ∈ old') : Planned start stop old' out := by
  refine ⟨h.le, fun x hx => ?_, h.apart⟩
  rcases h.given x hx with ⟨hN, hO⟩ | ⟨hS, hT, hP⟩
  · exact .inl ⟨hN, hM _ hO⟩
  refine .inr ⟨hS, hT, fun s hs => ?_⟩
  obtain ⟨o, ho, hE⟩ := hP s hs
  exact ⟨o, hM o ho, hE⟩

theorem Planned.append
    (h : Planned start m old out) (h' : Planned m stop old' out') (hB : ∀ o ∈ old, o.mint < start)
    (hB' : ∀ o ∈ old', o.mint < start) (hA : ∀ o ∈ old, ∀ o' ∈ old', o.mint ≠ o'.mint) :
    Planned start stop (old ++ old') (out ++ out') := by
  have hL := h.le
  have hL' := h'.le
  -- the mint of a request, and of what it replaces, on either side
  have hS : ∀ x ∈ out, (∃ o ∈ old, o.mint = x.1.mint) ∨ start ≤ x.1.mint ∧ x.1.mint < m := fun x hx =>
    (h.given x hx).imp (fun hK => ⟨x.1, hK.2, rfl⟩) fun hN => ⟨hN.1, hN.2.1⟩
  have hS' : ∀ x ∈ out', (∃ o ∈ old', o.mint = x.1.mint) ∨ m ≤ x.1.mint := fun x hx =>
    (h'.given x hx).imp (fun hK => ⟨x.1, hK.2, rfl⟩) fun hN => hN.1
  have hP : ∀ x ∈ out, ∀ s, x.2 = some s → ∃ o ∈ old, o.subId = s := by
    intro x hx s hs
    rcases h.given x hx with ⟨hn, -⟩ | ⟨-, -, hP⟩
    · simp [hn] at hs
    · obtain ⟨o, ho, -, hE⟩ := hP s hs
      exact ⟨o, ho, hE⟩
  have hP' : ∀ x ∈ out', ∀ s, x.2 = some s → ∃ o ∈ old', o.subId = s := by
    intro x hx s hs
    rcases h'.given x hx with ⟨hn, -⟩ | ⟨-, -, hP⟩
    · simp [hn] at hs
    · obtain ⟨o, ho, -, hE⟩ := hP s hs
      exact ⟨o, ho, hE⟩
  refine ⟨hL.trans hL', fun x hx => ?_, pairwise_append.mpr ⟨h.apart, h'.apart, fun x hx y hy => ⟨?_, ?_, ?_⟩⟩⟩
  · rcases mem_append.mp hx with hx | hx
    · rcases h.given x hx with ⟨hn, hO⟩ | ⟨ht, hT, hF⟩
      · exact .inl ⟨hn, mem_append_left _ hO⟩
      refine .inr ⟨ht, hT.trans_le hL', fun s hs => ?_⟩
      obtain ⟨o, ho, hE⟩ := hF s hs
      exact ⟨o, mem_append_left _ ho, hE⟩
    · rcases h'.given x hx with ⟨hn, hO⟩ | ⟨ht, hT, hF⟩
      · exact .inl ⟨hn, mem_append_right _ hO⟩
      refine .inr ⟨hL.trans ht, hT, fun s hs => ?_⟩
      obtain ⟨o, ho, hE⟩ := hF s hs
      exact ⟨o, mem_append_right _ ho, hE⟩
  · rcases hS x hx with ⟨o, ho, hE⟩ | ⟨ht, hT⟩ <;> rcases hS' y hy with ⟨o', ho', hE'⟩ | hD
    · rw [← hE, ← hE']
      exact hA o ho o' ho'
    · have := hB o ho
      omega
    · have := hB' o' ho'
      omega
    · omega
  · intro s hs
    obtain ⟨o, ho, rfl⟩ := hP x hx s hs
    refine ⟨fun hs' => ?_, ?_⟩
    · obtain ⟨o', ho', hE⟩ := hP' y hy _ hs'
      exact hA o ho o' ho' (by rw [Sent.mint, Sent.mint, hE])
    have hl := hB o ho
    rcases hS' y hy with ⟨o', ho', hE⟩ | hD
    · rw [← hE]
      exact (hA o ho o' ho').symm
    · rw [Sent.mint] at hl
      omega
  · intro s hs
    obtain ⟨o', ho', rfl⟩ := hP' y hy s hs
    have hl := hB' o' ho'
    rcases hS x hx with ⟨o, ho, hE⟩ | ⟨ht, -⟩
    · rw [← hE]
      exact hA o ho o' ho'
    · rw [Sent.mint] at hl
      omega

def partOf (session : RelaySessionKey) (incumbents : List WireReq) (source : ReadRouting) : List Sent :=
  (incumbents.filter fun req => req.routing = source).map (WireReq.sent session)

def tagged (session : RelaySessionKey) (planned : List (WireReq × Option SubId)) : List (Sent × Option SubId) :=
  planned.map fun x => (x.1.sent session, x.2)

variable (rules : List MergeRule)

theorem planPart_planned (k : RelaySessionKey) (ic : List WireReq)
    (sr : ReadRouting) (en : List Entry)
    (hN : (ic.map fun r => r.subId.mint).Nodup) (hl : ∀ r ∈ ic, r.subId.mint < ct) :
    Planned ct (planPart rules k ic sr en ct).2 (partOf k ic sr)
      (tagged k (planPart rules k ic sr en ct).1) := by
  let ol := ic.filter fun r => r.routing = sr
  let prr := ol.map fun r => (r.filter, r.subId)
  have hd : (prr.map fun pr => pr.2.mint).Nodup := by
    rw [map_map]
    exact hN.sublist (List.filter_sublist.map _)
  have ho : ∀ pr ∈ prr, pr.2.mint < ct := by
    intro pr hPri
    obtain ⟨r, hQ, rfl⟩ := mem_map.mp hPri
    exact hl r (mem_filter.mp hQ).1
  have h1 : ∀ s ∈ prr.map Prod.snd, ∃ o ∈ partOf k ic sr, o.session = k ∧ o.subId = s := by
    intro s hs
    obtain ⟨pr, hPri, rfl⟩ := mem_map.mp hs
    obtain ⟨r, hQ, rfl⟩ := mem_map.mp hPri
    exact ⟨r.sent k, mem_map.mpr ⟨r, hQ, rfl⟩, rfl, rfl⟩
  have hM := matching_matches k ((coalesceWith rules en).map Entry.filter) hd ho
  obtain ⟨hL, hG⟩ := assign_get k prr ((coalesceWith rules en).map Entry.filter) ct
  have hC : (assign k prr ((coalesceWith rules en).map Entry.filter) ct).2 =
      (matching k prr ((coalesceWith rules en).map Entry.filter) ct).counter := rfl
  generalize matching k prr ((coalesceWith rules en).map Entry.filter) ct = m at hM hG hC
  have hb : ∀ s ∈ prr.map Prod.snd, ∀ s' ∈ prr.map Prod.snd, s.mint = s'.mint → s = s' := by
    intro s hs s' hs' he
    refine inj_on_of_nodup_map (f := SubId.mint) ?_ hs hs' he
    rw [map_map]
    exact hd
  generalize hm : coalesceWith rules en = mrg at hM hC hL hG
  have hU : planPart rules k ic sr en ct =
      ((mrg.zip (assign k prr (mrg.map Entry.filter) ct).1).map fun x =>
        ({ subId := x.2.subId, filter := x.1.filter, routing := sr,
           provenance := .ofList x.1.provenance compare, ownership := x.1.ownership }, x.2.predecessor),
        (assign k prr (mrg.map Entry.filter) ct).2) := by
    rw [← hm]
    rfl
  rw [hU]
  generalize assign k prr (mrg.map Entry.filter) ct = given at hC hL hG
  have hT : tagged k ((mrg.zip given.1).map fun x =>
      (({ subId := x.2.subId, filter := x.1.filter, routing := sr,
          provenance := .ofList x.1.provenance compare, ownership := x.1.ownership } : WireReq), x.2.predecessor)) =
      (mrg.zip given.1).map fun x => (⟨k, x.2.subId, x.1.filter, sr⟩, x.2.predecessor) := by
    rw [tagged, map_map]
    rfl
  rw [hT]
  rw [length_map] at hL hG
  refine ⟨hC ▸ hM.counter, fun x hx => ?_, ?_⟩
  · obtain ⟨⟨e, a⟩, hIn, rfl⟩ := mem_map.mp hx
    obtain ⟨i, hi, ha⟩ := getElem_of_mem hIn
    rw [List.getElem_zip] at ha
    rw [List.length_zip] at hi
    have hiMerged : i < mrg.length := by omega
    have hE : mrg[i]? = some e := by
      rw [getElem?_eq_getElem hiMerged, (Prod.mk.inj ha).1]
    have hA : m.out[i]? = some a := by
      rw [← hG i hiMerged, getElem?_eq_getElem (by omega), (Prod.mk.inj ha).2]
    obtain ⟨filter, hf, hI⟩ := hM.given i a hA
    rw [List.getElem?_map, hE] at hf
    cases hf
    rcases hI with ⟨h2, hK⟩ | ⟨ht, hO, hPri⟩
    · refine .inl ⟨h2, ?_⟩
      obtain ⟨r, hQ, he⟩ := mem_map.mp hK
      obtain ⟨hF, hu⟩ := Prod.mk.inj he
      refine mem_map.mpr ⟨r, hQ, ?_⟩
      have hR : r.routing = sr := by simpa using (mem_filter.mp hQ).2
      simp [WireReq.sent, hF, hu, hR]
    · exact .inr ⟨ht, hC ▸ hO, fun s hs => h1 s (hPri s hs)⟩
  · rw [pairwise_map, List.pairwise_iff_getElem]
    intro i j hi hj h4
    rw [List.length_zip] at hi hj
    rw [List.getElem_zip, List.getElem_zip]
    have hA : m.out[i]? = some (given.1[i]) := by
      rw [← hG i (by omega), getElem?_eq_getElem]
    have hB : m.out[j]? = some (given.1[j]) := by
      rw [← hG j (by omega), getElem?_eq_getElem]
    obtain ⟨h3, hc⟩ := hM.apart i j _ _ (by omega) hA hB
    obtain ⟨_, _, hg⟩ := hM.given i _ hA
    obtain ⟨_, _, hn⟩ := hM.given j _ hB
    have hPri := hg.prior_mem
    have hPri' := hn.prior_mem
    refine ⟨h3, fun s hs => ⟨fun hs' => ?_, fun he => ?_⟩, fun s hs he => ?_⟩
    · exact hc s (hPri s hs) (.inr hs) (.inr hs')
    · have hS := hn.subId_eq hb ho (hPri s hs) he
      exact hc s (hPri s hs) (.inr hs) (.inl hS)
    · have hS := hg.subId_eq hb ho (hPri' s hs) he
      exact hc s (hPri' s hs) (.inl hS) (.inr hs)

theorem planParts_planned (k : RelaySessionKey) (ic : List WireReq)
    (hN : (ic.map fun r => r.subId.mint).Nodup) (pt : List (ReadRouting × List Entry))
    (hK : (pt.map Prod.fst).Nodup) (hL : ∀ r ∈ ic, r.subId.mint < ct) :
    Planned ct (planParts rules k ic pt ct).2
      ((ic.filter fun r => r.routing ∈ pt.map Prod.fst).map (WireReq.sent k))
      (tagged k (planParts rules k ic pt ct).1) := by
  induction pt generalizing ct with
  | nil => exact .nil _ _
  | cons pr pt ih =>
    obtain ⟨s, en⟩ := pr
    obtain ⟨hU, hK⟩ := nodup_cons.mp hK
    have hH := planPart_planned rules k ic s en hN hL
    rw [planParts]
    generalize planPart rules k ic s en ct = head at hH
    have hT := ih hK fun r hQ => (hL r hQ).trans_le hH.le
    dsimp only
    generalize planParts rules k ic pt head.2 = tail at hT
    have hM : ∀ (p : ReadRouting → Prop) [DecidablePred p] (o : Sent),
        o ∈ (ic.filter fun r => p r.routing).map (WireReq.sent k) →
        ∃ r ∈ ic, p r.routing ∧ r.sent k = o := by
      intro p _ o ho
      obtain ⟨r, hQ, hE⟩ := mem_map.mp ho
      obtain ⟨hI, hRt⟩ := mem_filter.mp hQ
      exact ⟨r, hI, by simpa using hRt, hE⟩
    have hB := hH.append hT (fun o ho => ?_) (fun o ho => ?_) (fun o ho o' ho' hE => ?_)
    · have ht : tagged k (head.1 ++ tail.1) = tagged k head.1 ++ tagged k tail.1 := map_append
      rw [ht]
      refine hB.mono fun o ho => ?_
      rcases mem_append.mp ho with ho | ho
      · obtain ⟨r, hQ, hRt, rfl⟩ := hM (· = s) o ho
        exact mem_map.mpr ⟨r, mem_filter.mpr ⟨hQ, by simp [hRt]⟩, rfl⟩
      obtain ⟨r, hQ, hRt, rfl⟩ := hM (· ∈ pt.map Prod.fst) o ho
      exact mem_map.mpr ⟨r, mem_filter.mpr ⟨hQ, by
        simpa using Or.inr (mem_map.mp hRt)⟩, rfl⟩
    · obtain ⟨r, hQ, -, rfl⟩ := hM (· = s) o ho
      exact hL r hQ
    · obtain ⟨r, hQ, -, rfl⟩ := hM (· ∈ pt.map Prod.fst) o ho
      exact hL r hQ
    · obtain ⟨r, hQ, hRt, rfl⟩ := hM (· = s) o ho
      obtain ⟨r', hQ', hRt', rfl⟩ := hM (· ∈ pt.map Prod.fst) o' ho'
      have hS : r = r' := inj_on_of_nodup_map hN hQ hQ' hE
      exact hU (hRt ▸ hS ▸ hRt')

section

variable [FilterHash]

omit [FilterHash] in
theorem sortBySub_perm (rq : List WireReq) : (sortBySub rq).Perm rq := perm_insertionSort _ _

theorem refuseOverBudget_perm (rq : List WireReq) (al : Nat) (ic : List WireReq) :
    ((refuseOverBudget rq al ic).1 ++ (refuseOverBudget rq al ic).2).Perm rq := by
  unfold refuseOverBudget
  refine ((sortBySub_perm _).append_right _).trans ?_
  rw [List.take_append_drop]
  exact perm_insertionSort _ _

theorem planSession_spec (rules : List MergeRule) (ic : RelayPlan) (c : CompileBudget) (o : CompiledDemand)
    (k : RelaySessionKey) (p : Table ReadRouting (List Entry)) :
    ∃ kp rf, (kp ++ rf).Perm ((planParts rules k (ic.at k) p.toList o.counter).1.map
        Prod.fst) ∧ (planSession rules ic c o (k, p)).counter =
        (planParts rules k (ic.at k) p.toList o.counter).2 ∧
      (planSession rules ic c o (k, p)).replacements = o.replacements ++
        noteReplacements k (planParts rules k (ic.at k) p.toList o.counter).1 ∧
      (planSession rules ic c o (k, p)).budgetRefused =
        o.budgetRefused ++ rf.map (k, ·) ∧
      (kp = [] ∧ (planSession rules ic c o (k, p)).plan.reqs = o.plan.reqs ∨
        (planSession rules ic c o (k, p)).plan.reqs = o.plan.reqs.insert k kp) := by
  unfold planSession
  simp only
  generalize planParts rules k (ic.at k) p.toList o.counter = pln
  have hP := sortBySub_perm (pln.1.map Prod.fst)
  split
  · exact ⟨_, [], by simpa using hP, rfl, rfl, by simp, .inr rfl⟩
  split
  · exact ⟨_, [], by simpa using hP, rfl, rfl, by simp, .inr rfl⟩
  rename_i al _ _
  have hB := (refuseOverBudget_perm (sortBySub (pln.1.map Prod.fst)) al (ic.at k)).trans hP
  refine ⟨_, _, hB, rfl, rfl, rfl, ?_⟩
  by_cases hZ : (refuseOverBudget (sortBySub (pln.1.map Prod.fst)) al (ic.at k)).1.isEmpty
  · exact .inl ⟨List.isEmpty_iff.mp hZ, by simp [hZ]⟩
  · exact .inr (by simp [hZ])

end

structure Wired (reqs : WireReqs) (counter : Nat) : Prop where
  nodup : ((sent reqs).map Sent.mint).Nodup
  below : ∀ s ∈ sent reqs, s.mint < counter

theorem Wired.session (h : Wired rq ct)
    (k : RelaySessionKey) : ((rq[k]?.getD []).map fun r => r.subId.mint).Nodup ∧
      ∀ r ∈ rq[k]?.getD [], r.subId.mint < ct := by
  refine ⟨?_, fun r hQ => h.below (r.sent k) (mem_sent.mpr ⟨r, hQ, rfl⟩)⟩
  cases hG : rq[k]? with
  | none => exact nodup_nil
  | some rs =>
    have hP : (rs.map (WireReq.sent k)).Sublist (sent rq) :=
      List.sublist_flatten_of_mem (mem_map.mpr ⟨(k, rs), mem_toList.mpr hG, rfl⟩)
    have hM := h.nodup.sublist (hP.map Sent.mint)
    rw [map_map] at hM
    exact hM

def Compiles (incumbents : RelayPlan) (start : Nat) (done : List RelaySessionKey) (out : CompiledDemand) : Prop :=
  ∃ all, Planned start out.counter ((sent incumbents.reqs).filter fun s => s.session ∈ done) all ∧
    out.replacements = all.filterMap (fun x => x.2.map fun prior => ⟨x.1.session, prior, x.1.subId⟩) ∧
    (sent out.plan.reqs ++ out.budgetRefused.map fun x => x.2.sent x.1).Perm (all.map Prod.fst) ∧
    ∀ session : RelaySessionKey, (out.plan.reqs[session]?).isSome → session ∈ done

theorem planSession_compiles [FilterHash] (hW : Wired incs.reqs start) (rules : List MergeRule)
    (c : CompileBudget) (h : Compiles incs start done out) (hN : k ∉ done)
    (p : Table ReadRouting (List Entry)) :
    Compiles incs start (k :: done) (planSession rules incs c out (k, p)) := by
  obtain ⟨all, hp, hr, hPm, hD⟩ := h
  obtain ⟨kp, refused, hP, hC, hm, hF, hR⟩ :=
    planSession_spec rules incs c out k p
  obtain ⟨hd, hL⟩ := hW.session k
  have hK : (p.toList.map Prod.fst).Nodup := keys_nodup p
  have hH := (planParts_planned rules k (incs.at k) hd p.toList hK
    fun r hQ => (hL r hQ).trans_le hp.le)
  rw [← hC] at hH
  generalize planParts rules k (incs.at k) p.toList out.counter = pln at hH hm hP
  -- the new part draws on requests of its own session only
  have hw : ∀ o ∈ (((incs.at k).filter fun r => r.routing ∈ p.toList.map Prod.fst).map
      (WireReq.sent k)), o ∈ sent incs.reqs ∧ o.session = k := by
    intro o ho
    obtain ⟨r, hQ, rfl⟩ := mem_map.mp ho
    exact ⟨mem_sent.mpr ⟨r, (mem_filter.mp hQ).1, rfl⟩, rfl⟩
  have hO : ∀ o ∈ (sent incs.reqs).filter (fun s => s.session ∈ done), o ∈ sent incs.reqs ∧ o.session ∈ done := by
    intro o ho
    simpa using mem_filter.mp ho
  have hB := hp.append hH (fun o ho => hW.below o (hO o ho).1) (fun o ho => hW.below o (hw o ho).1)
    fun o ho o' ho' hE => by
      have hS := inj_on_of_nodup_map hW.nodup (hO o ho).1 (hw o' ho').1 hE
      exact hN ((hw o' ho').2 ▸ hS ▸ (hO o ho).2)
  refine ⟨_, hB.mono fun o ho => ?_, ?_, ?_, fun ot hX => ?_⟩
  · rcases mem_append.mp ho with ho | ho
    · exact mem_filter.mpr ⟨(hO o ho).1, by simp [(hO o ho).2]⟩
    · exact mem_filter.mpr ⟨(hw o ho).1, by simp [(hw o ho).2]⟩
  · rw [hm, hr, List.filterMap_append, noteReplacements, tagged, List.filterMap_map]
    rfl
  · have hk : (sent (planSession rules incs c out (k, p)).plan.reqs).Perm
        (kp.map (WireReq.sent k) ++ sent out.plan.reqs) := by
      rcases hR with ⟨rfl, hS⟩ | hI
      · rw [hS]
        exact .refl _
      rw [hI]
      refine sent_insert_perm ?_ kp
      by_contra hs
      exact hN (hD k (isSome_iff_ne_none.mpr hs))
    have hT : (tagged k pln.1).map Prod.fst = (pln.1.map Prod.fst).map (WireReq.sent k) := by
      rw [tagged, map_map, map_map]
      rfl
    rw [hF, map_append, map_map, map_append, hT]
    have hn := (hP.map (WireReq.sent k)).symm
    rw [map_append] at hn
    -- the session's own requests move past those refused before
    have hM : ((kp.map (WireReq.sent k) ++ sent out.plan.reqs) ++
        ((out.budgetRefused.map fun x => x.2.sent x.1) ++ refused.map (WireReq.sent k))).Perm
        ((sent out.plan.reqs ++ out.budgetRefused.map fun x => x.2.sent x.1) ++
          (kp.map (WireReq.sent k) ++ refused.map (WireReq.sent k))) := by
      simp only [append_assoc]
      exact (List.perm_append_comm_assoc _ _ _).trans (List.Perm.append_left _ (List.perm_append_comm_assoc _ _ _))
    exact ((hk.append_right _).trans hM).trans (hPm.append hn.symm)
  · rcases hR with ⟨-, hS⟩ | hI
    · rw [hS] at hX
      exact mem_cons_of_mem _ (hD ot hX)
    rw [hI, get_insert] at hX
    split at hX
    · rename_i hE
      exact hE ▸ mem_cons_self
    · exact mem_cons_of_mem _ (hD ot hX)

theorem compileDemand_compiles [FilterHash] (rules : List MergeRule)
    (hW : Wired incs.reqs start) (c : CompileBudget) (b : SessionBag) :
    ∃ done, Compiles incs start done (compileDemand rules incs c start b) := by
  unfold compileDemand
  generalize applyGlobalRelayCap b c.relayCap = capped
  obtain ⟨b, limited, rf⟩ := capped
  have hf : ∀ (p : List (RelaySessionKey × Table ReadRouting (List Entry))) (done : List RelaySessionKey)
      (ot : CompiledDemand), (p.map Prod.fst).Nodup → (∀ pr ∈ p, pr.1 ∉ done) →
      Compiles incs start done ot →
      ∃ done, Compiles incs start done (p.foldl (planSession rules incs c) ot) := by
    intro p
    induction p with
    | nil => exact fun done ot _ _ h => ⟨done, h⟩
    | cons pr p ih =>
      intro done ot hN hF h
      obtain ⟨hU, hN⟩ := nodup_cons.mp hN
      refine ih (pr.1 :: done) _ hN (fun o hX hI => ?_)
        (planSession_compiles hW rules c h (hF pr (.head _)) pr.2)
      rcases mem_cons.mp hI with hE | hI
      · exact hU (hE ▸ mem_map_of_mem hX)
      · exact hF o (.tail _ hX) hI
  refine hf b.toList [] _ (keys_nodup b) (fun _ _ => not_mem_nil) ⟨[], .nil _ _, rfl, ?_, fun k hS => ?_⟩
  · simp [sent]
  · simp at hS

end NmpStore.Routing

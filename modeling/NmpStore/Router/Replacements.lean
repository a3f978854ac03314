import NmpStore.Router.Recompile

/-! # Replaced requests

A request that differs in one component from a running one that nobody wants any more replaces it, under a new name. The
budget ranks it behind all that run.
-/

namespace NmpStore.Routing

open Resolver (ConcreteFilter ReadRouting)

/-- The filter does not run, and differs in one component from a running one of which more run than are wanted. -/
def MayReplace (running wanted : List ConcreteFilter) (filter : ConcreteFilter) : Prop :=
  filter ∉ running ∧ ∃ prior ∈ running, wanted.count prior < running.count prior ∧ (soleDifference prior filter).isSome

section

variable {priors : List (ConcreteFilter × SubId)} {next : List ConcreteFilter} {m keep : Matching}

/-- The first phase gives every filter that runs the name of a request that runs with it. -/
structure Keeps (priors : List (ConcreteFilter × SubId)) (next : List ConcreteFilter) (done : List Nat) (m : Matching) :
    Prop where
  names : ∀ (i : Nat) a, m.out[i]? = some a → a.predecessor = none
  taken : ∀ p ∈ m.taken, ∃ i ∈ done, ∃ prior, priors[p]? = some prior ∧ next[i]? = some prior.1
  kept : ∀ i ∈ done, ∀ filter, next[i]? = some filter → filter ∈ priors.map Prod.fst →
    (m.out[i]?).isSome ∧ ∃ p ∈ m.taken, ∃ prior, priors[p]? = some prior ∧ prior.1 = filter

theorem keepStep_keeps (hNext : next.Nodup) (h : Keeps priors next done m) (hi : i ∉ done) :
    Keeps priors next (i :: done) (keepStep priors next m i) := by
  unfold keepStep
  simp only
  split
  · rename_i found hBest
    obtain ⟨hIn, hFits⟩ := mem_filter.mp (pickBest_mem hBest)
    obtain ⟨-, hFilter⟩ : found.2 ∉ m.taken ∧ next[i]? = some found.1.1 := by simpa using hFits
    have hAt : priors[found.2]? = some found.1 := List.mem_zipIdx_iff_getElem?.mp hIn
    refine ⟨fun j a hj => ?_, fun p hp => ?_, fun j hj filter hf hRuns => ?_⟩
    · rcases insert_some.mp hj with ⟨-, rfl⟩ | ⟨-, hj⟩
      · rfl
      · exact h.names j a hj
    · rcases mem_cons.mp hp with rfl | hp
      · exact ⟨i, mem_cons_self, found.1, hAt, hFilter⟩
      · obtain ⟨j, hj, hPrior⟩ := h.taken p hp
        exact ⟨j, .tail _ hj, hPrior⟩
    · rw [get_insert]
      split
      · rename_i hSame
        subst hSame
        cases hFilter.symm.trans hf
        exact ⟨rfl, found.2, mem_cons_self, found.1, hAt, rfl⟩
      · rename_i hOther
        obtain ⟨hOut, p, hp, hPrior⟩ := h.kept j ((mem_cons.mp hj).resolve_left (Ne.symm hOther)) filter hf hRuns
        exact ⟨hOut, p, .tail _ hp, hPrior⟩
  · rename_i hNone
    refine ⟨h.names, fun p hp => ?_, fun j hj filter hf hRuns => ?_⟩
    · obtain ⟨j, hj, hPrior⟩ := h.taken p hp
      exact ⟨j, .tail _ hj, hPrior⟩
    rcases mem_cons.mp hj with rfl | hj
    · obtain ⟨prior, hPrior, rfl⟩ := mem_map.mp hRuns
      obtain ⟨p, hAt⟩ := List.mem_iff_getElem?.mp hPrior
      -- a request that is taken already was taken for an equal filter, and there is no other
      have hFree : p ∉ m.taken := by
        intro hTaken
        obtain ⟨k, hk, other, hOther, hSame⟩ := h.taken p hTaken
        cases hAt.symm.trans hOther
        have hEq := (List.getElem?_inj (getElem?_eq_some_iff.mp hf).1 hNext).mp (hf.trans hSame.symm)
        exact hi (hEq ▸ hk)
      have hSome := pickBest_isSome (fun p q : (ConcreteFilter × SubId) × Nat => (compare p.1.2 q.1.2).isLT)
        (List.ne_nil_of_mem (mem_filter.mpr ⟨List.mem_zipIdx_iff_getElem?.mpr hAt, by simp [hFree, hf]⟩ :
          (prior, p) ∈ priors.zipIdx.filter fun prior => prior.2 ∉ m.taken ∧ next[j]? = some prior.1.1))
      rw [hNone] at hSome
      cases hSome
    · exact h.kept j hj filter hf hRuns

/-- What the later phases add: who replaces a request was not given one that runs with its filter. -/
structure Replaces (priors : List (ConcreteFilter × SubId)) (next : List ConcreteFilter) (keep m : Matching) : Prop where
  taken : ∀ p ∈ keep.taken, p ∈ m.taken
  kept : ∀ i : Nat, (keep.out[i]?).isSome → (m.out[i]?).isSome
  each : ∀ (i : Nat) a s, m.out[i]? = some a → a.predecessor = some s → keep.out[i]? = none ∧
    ∃ p prior filter, priors[p]? = some prior ∧ p ∉ keep.taken ∧ next[i]? = some filter ∧
      (soleDifference prior.1 filter).isSome

theorem Replaces.put {claimed : List Nat} {i : Nat} {a : Assignment} (h : Replaces priors next keep m)
    (hi : ¬m.out.contains i = true) (hTaken : ∀ p ∈ m.taken, p ∈ claimed)
    (hEach : ∀ s, a.predecessor = some s → ∃ p prior filter, priors[p]? = some prior ∧ p ∉ m.taken ∧
      next[i]? = some filter ∧ (soleDifference prior.1 filter).isSome) :
    Replaces priors next keep { taken := claimed, out := m.out.insert i a, counter } := by
  refine ⟨fun p hp => hTaken p (h.taken p hp), fun j hj => ?_, fun j b s hb hs => ?_⟩
  · rw [get_insert]
    split
    · rfl
    · exact h.kept j hj
  rcases insert_some.mp hb with ⟨rfl, rfl⟩ | ⟨-, hb⟩
  · obtain ⟨p, prior, filter, hPrior, hFree, hRest⟩ := hEach s hs
    refine ⟨Option.not_isSome_iff_eq_none.mp fun hKept => hi ?_, p, prior, filter, hPrior, fun hp => hFree (h.taken p hp), hRest⟩
    rw [contains_eq_isSome_getElem?]
    exact h.kept i hKept
  · exact h.each j b s hb hs

theorem replaceStep_replaces (h : Replaces priors next keep m) (i : Nat) :
    Replaces priors next keep (replaceStep session priors next m i) := by
  unfold replaceStep
  split
  · exact h
  rename_i hFresh
  simp only
  split
  · rename_i prior hBest
    obtain ⟨found, hIn, hFits⟩ := mem_filterMap.mp (pickBest_mem hBest)
    obtain ⟨hZip, hFree⟩ := mem_filter.mp hIn
    refine h.put hFresh (fun p hp => .tail _ hp) fun s _ => ?_
    obtain ⟨strength, hTie, -⟩ := map_eq_some_iff.mp hFits
    obtain ⟨filter, hFilter, hTie⟩ := bind_eq_some_iff.mp hTie
    obtain ⟨component, hSole, -⟩ := map_eq_some_iff.mp hTie
    exact ⟨found.2, found.1, filter, List.mem_zipIdx_iff_getElem?.mp hZip, by simpa using hFree, hFilter,
      Option.isSome_of_eq_some hSole⟩
  · exact h

theorem mintStep_replaces (h : Replaces priors next keep m) (i : Nat) :
    Replaces priors next keep (mintStep session m i) := by
  unfold mintStep
  split
  · exact h
  · rename_i hFresh
    exact h.put hFresh (fun p hp => hp) fun s hs => nomatch hs

theorem two_le_count {α : Type} [DecidableEq α] {l : List α} {x : α} {p q : Nat} (hp : l[p]? = some x) (hq : l[q]? = some x)
    (hNe : p ≠ q) : 2 ≤ l.count x := by
  wlog hLt : p < q generalizing p q
  · exact this hq hp hNe.symm (by omega)
  have hBefore : x ∈ l.take q := mem_of_getElem? ((List.getElem?_take_of_lt hLt).trans hp)
  have hAfter : x ∈ l.drop q := mem_of_getElem? (i := 0) (by rw [List.getElem?_drop, Nat.add_zero, hq])
  rw [← List.take_append_drop q l, List.count_append]
  have := List.count_pos_iff.mpr hBefore
  have := List.count_pos_iff.mpr hAfter
  omega

theorem foldl_replaces {step : Matching → Nat → Matching}
    (hStep : ∀ m i, Replaces priors next keep m → Replaces priors next keep (step m i)) (l : List Nat)
    (h : Replaces priors next keep m) : Replaces priors next keep (l.foldl step m) := by
  induction l generalizing m with
  | nil => exact h
  | cons i l ih => exact ih (hStep m i h)

theorem foldl_keeps (hNext : next.Nodup) (l : List Nat) (hNodup : (l ++ done).Nodup) (h : Keeps priors next done m) :
    Keeps priors next (l.reverse ++ done) (l.foldl (keepStep priors next) m) := by
  induction l generalizing m done with
  | nil => exact h
  | cons i l ih =>
    have hi : i ∉ l ++ done := (nodup_cons.mp hNodup).1
    rw [List.reverse_cons, append_assoc]
    refine ih ?_ (keepStep_keeps hNext h fun hIn => hi (mem_append_right _ hIn))
    exact List.perm_middle.nodup_iff.mpr hNodup

/-- Only a filter that may replace a request is given a predecessor. -/
theorem matching_mayReplace {i : Nat} {a : Assignment} (hNext : next.Nodup)
    (ha : (matching session priors next start).out[i]? = some a) (hs : a.predecessor = some s) :
    ∃ filter, next[i]? = some filter ∧ MayReplace (priors.map Prod.fst) next filter := by
  have hNone : Keeps priors next [] { counter := start } :=
    ⟨fun i a h => by simp at h, fun p hp => by simp at hp, fun i hi => by simp at hi⟩
  have hKeeps := foldl_keeps hNext (canonicalOrder next) (by simpa using canonicalOrder_nodup) hNone
  rw [append_nil] at hKeeps
  unfold matching at ha
  simp only at ha
  generalize (canonicalOrder next).foldl (keepStep priors next) { counter := start } = keep at hKeeps ha
  have hStart : Replaces priors next keep keep :=
    ⟨fun p hp => hp, fun i hi => hi, fun i a s ha hs => by simp [hKeeps.names i a ha] at hs⟩
  have hAll : Replaces priors next keep ((canonicalOrder next).foldl (mintStep session)
      ((canonicalOrder next).foldl (replaceStep session priors next) keep)) :=
    foldl_replaces (fun m i h => mintStep_replaces h i) _ (foldl_replaces (fun m i h => replaceStep_replaces h i) _ hStart)
  obtain ⟨hFresh, p, prior, filter, hPrior, hFree, hFilter, hSole⟩ := hAll.each i a s ha hs
  have hDone : ∀ (j : Nat) f, next[j]? = some f → j ∈ (canonicalOrder next).reverse := fun j f hj =>
    List.mem_reverse.mpr (mem_canonicalOrder.mpr (getElem?_eq_some_iff.mp hj).1)
  have hAt : (priors.map Prod.fst)[p]? = some prior.1 := by rw [List.getElem?_map, hPrior]; rfl
  refine ⟨filter, hFilter, fun hRuns => ?_, prior.1, mem_of_getElem? hAt, ?_, hSole⟩
  · have hKept := (hKeeps.kept i (hDone i filter hFilter) filter hFilter hRuns).1
    simp [hFresh] at hKept
  by_cases hWanted : prior.1 ∈ next
  · -- the request that was kept for the filter is another one
    obtain ⟨j, hj⟩ := List.mem_iff_getElem?.mp hWanted
    obtain ⟨-, q, hq, other, hOther, hSame⟩ := hKeeps.kept j (hDone j _ hj) _ hj (mem_of_getElem? hAt)
    have hAt' : (priors.map Prod.fst)[q]? = some prior.1 := by rw [List.getElem?_map, hOther, ← hSame]; rfl
    have hOnce := List.nodup_iff_count_le_one.mp hNext prior.1
    have hTwice := two_le_count hAt hAt' fun hEq => hFree (hEq ▸ hq)
    omega
  · rw [List.count_eq_zero_of_not_mem hWanted]
    exact List.count_pos_iff.mpr (mem_of_getElem? hAt)

end

section

variable (rules : List MergeRule) (session : RelaySessionKey) (incumbents : List WireReq)

def runningFilters (source : ReadRouting) : List ConcreteFilter :=
  (incumbents.filter fun req => req.routing = source).map WireReq.filter

/-- The requests of a session as the bag wants them, before they are named. -/
def wantedRequests (parts : List (ReadRouting × List Entry)) : List WireReq :=
  parts.flatMap fun part => (coalesceWith rules part.2).map fun entry =>
    (named part.1 entry ⟨.allocate session 0, none⟩).1

/-- A request that runs comes before one that does not; else the one that covers more. -/
def comesFirst [FilterHash] (req other : WireReq) : Bool :=
  req.filter ∈ runningFilters incumbents req.routing || (coverageRank req other).isLE

end

/-- Whatever may replace a request fits into the advertised number of subscriptions, with all that come before it. -/
def HasRoom [FilterHash] (rules : List MergeRule) (incumbents : RelayPlan) (bag : SessionBag) (budget : CompileBudget) : Prop :=
  ∀ part ∈ (applyGlobalRelayCap bag budget.relayCap).1.toList, ∀ allowed ∈ budget.maxSubscriptions[part.1.1]?,
    ∀ req ∈ wantedRequests rules part.1 part.2.toList,
      MayReplace (runningFilters (incumbents.at part.1) req.routing)
        ((coalesceWith rules (part.2[req.routing]?.getD [])).map Entry.filter) req.filter →
      (wantedRequests rules part.1 part.2.toList).countP (comesFirst (incumbents.at part.1) · req) ≤ allowed

theorem planParts_wanted (rules : List MergeRule) (session : RelaySessionKey) (incumbents : List WireReq)
    (parts : List (ReadRouting × List Entry)) (counter : Nat) :
    ((planParts rules session incumbents parts counter).1.map fun x => { x.1 with subId := .allocate session 0 }) =
      wantedRequests rules session parts := by
  induction parts generalizing counter with
  | nil => rfl
  | cons part parts ih =>
    obtain ⟨source, entries⟩ := part
    rw [planParts, wantedRequests, List.flatMap_cons, ← wantedRequests]
    simp only [map_append, ih]
    congr 1
    obtain ⟨hLength, -⟩ := assign_get session (priorsOf incumbents source) ((coalesceWith rules entries).map Entry.filter) counter
    rw [length_map] at hLength
    have hPart : (planPart rules session incumbents source entries counter).1 = ((coalesceWith rules entries).zip
      (assign session (priorsOf incumbents source) ((coalesceWith rules entries).map Entry.filter) counter).1).map
        fun x => named source x.1 x.2 := rfl
    have hEntries : ((coalesceWith rules entries).zip (assign session (priorsOf incumbents source)
      ((coalesceWith rules entries).map Entry.filter) counter).1).map Prod.fst = coalesceWith rules entries :=
        List.map_fst_zip hLength.ge
    rw [hPart, map_map]
    conv_rhs => rw [← hEntries, map_map]
    rfl

theorem planParts_mayReplace
    (hx : x ∈ (planParts rules session incumbents parts counter).1) (hPrior : x.2 = some prior) :
    ∃ entries, (x.1.routing, entries) ∈ parts ∧
      MayReplace (runningFilters incumbents x.1.routing) ((coalesceWith rules entries).map Entry.filter) x.1.filter := by
  induction parts generalizing counter with
  | nil => simp [planParts] at hx
  | cons part parts ih =>
    obtain ⟨source, entries⟩ := part
    rcases mem_append.mp hx with hx | hx
    · change x ∈ (planPart rules session incumbents source entries counter).1 at hx
      have hSource := planPart_routing hx
      obtain ⟨i, hi, rfl⟩ := getElem_of_mem hx
      obtain ⟨entry, a, hEntry, hAssigned, hNamed⟩ := (planPart_get rules session incumbents source entries counter).2 i hi
      have hLt : i < ((coalesceWith rules entries).map Entry.filter).length := by
        rw [length_map]
        exact (getElem?_eq_some_iff.mp hEntry).1
      rw [(assign_get session _ _ counter).2 i hLt] at hAssigned
      rw [hNamed] at hPrior hSource ⊢
      obtain ⟨filter, hFilter, hMay⟩ := matching_mayReplace (coalesceWith_nodup rules entries) hAssigned hPrior
      rw [List.getElem?_map, hEntry] at hFilter
      cases hFilter
      refine ⟨entries, mem_cons_self, ?_⟩
      rw [priorsOf, map_map] at hMay
      exact hMay
    · obtain ⟨entries, hIn, hMay⟩ := ih hx
      exact ⟨entries, .tail _ hIn, hMay⟩

theorem transCmp_swap {α : Type} (cmp : α → α → Ordering) [TransCmp cmp] : TransCmp fun a b => cmp b a where
  eq_swap := Std.OrientedCmp.eq_swap
  isLE_trans hab hbc := Std.TransCmp.isLE_trans hbc hab

section

variable [FilterHash] (incumbents : List WireReq)

instance : TransCmp coverageRank :=
  have := transCmp_swap (compareOn fun req : WireReq => req.ownership.coverageAssignments.size)
  have := transCmp_swap (compareOn fun req : WireReq => req.ownership.coverageClaims.size)
  have := transCmp_swap (compareOn fun req : WireReq => req.provenance.size)
  inferInstanceAs (TransCmp (compareLex (fun a b => compareOn (fun req : WireReq => req.ownership.coverageAssignments.size) b a)
    (compareLex (fun a b => compareOn (fun req : WireReq => req.ownership.coverageClaims.size) b a)
      (compareLex (fun a b => compareOn (fun req : WireReq => req.provenance.size) b a)
        (compareOn fun req : WireReq => FilterHash.hash req.filter)))))

theorem ranksBefore_pairwise (requests : List WireReq) :
    (requests.insertionSort fun a b => ranksBefore incumbents a b).Pairwise fun a b => ranksBefore incumbents a b = true := by
  have := transCmp_swap (compareOn fun req : WireReq => decide (req.subId ∈ incumbents.map WireReq.subId))
  exact Grouping.insertionSort_pairwise (compareLex
    (fun a b => compareOn (fun req : WireReq => decide (req.subId ∈ incumbents.map WireReq.subId)) b a) coverageRank) requests

/-- More requests than are allowed come no later than a refused one, itself among them. -/
theorem refused_count (h : req ∈ (refuseOverBudget requests allowed incumbents).2) :
    allowed < requests.countP (ranksBefore incumbents · req) := by
  have hSorted := ranksBefore_pairwise incumbents requests
  rw [← (perm_insertionSort (fun a b => ranksBefore incumbents a b = true) requests).countP_eq]
  change req ∈ (requests.insertionSort fun a b => ranksBefore incumbents a b).drop allowed at h
  generalize (requests.insertionSort fun a b => ranksBefore incumbents a b) = ranked at hSorted h ⊢
  have hLong : allowed < ranked.length := by
    by_contra hShort
    rw [List.drop_eq_nil_of_le (by omega)] at h
    exact not_mem_nil h
  rw [← List.take_append_drop allowed ranked] at hSorted ⊢
  have hBefore : (ranked.take allowed).countP (ranksBefore incumbents · req) = allowed := by
    rw [List.countP_eq_length.mpr fun a ha => (pairwise_append.mp hSorted).2.2 a ha req h, List.length_take]
    omega
  have hSelf : 0 < (ranked.drop allowed).countP (ranksBefore incumbents · req) :=
    List.countP_pos_iff.mpr ⟨req, h, by simp [ranksBefore, coverageRank]⟩
  rw [List.countP_append, hBefore]
  omega

theorem planned_kept (hNodup : (incumbents.map fun req => req.subId.mint).Nodup)
    (hBelow : ∀ req ∈ incumbents, req.subId.mint < counter) (hKeys : (parts.map Prod.fst).Nodup)
    (hx : x ∈ (planParts rules session incumbents parts counter).1) (hPrior : x.2 = some prior)
    (hRoom : (wantedRequests rules session parts).countP (comesFirst incumbents · x.1) ≤ allowed) :
    x.1 ∉ (refuseOverBudget (sortBySub ((planParts rules session incumbents parts counter).1.map Prod.fst)) allowed
      incumbents).2 := by
  have hPlanned := planParts_planned rules session incumbents hNodup parts hKeys hBelow
  have hOld : ∀ y ∈ (planParts rules session incumbents parts counter).1, y.1.subId ∈ incumbents.map WireReq.subId →
      y.2 = none ∧ y.1.filter ∈ runningFilters incumbents y.1.routing := by
    intro y hy hRuns
    obtain ⟨old, hOld, hName⟩ := mem_map.mp hRuns
    rcases hPlanned.given _ (mem_map_of_mem hy) with ⟨hNone, hSent⟩ | ⟨hFresh, -⟩
    · obtain ⟨req, hReq, hSame⟩ := mem_map.mp hSent
      refine ⟨hNone, mem_map.mpr ⟨req, mem_filter.mpr ⟨(mem_filter.mp hReq).1, ?_⟩, congrArg Sent.filter hSame⟩⟩
      exact decide_eq_true (congrArg Sent.routing hSame)
    · have hLt := hBelow old hOld
      rw [hName] at hLt
      exact absurd hFresh (Nat.not_le_of_lt hLt)
  have hNew : x.1.subId ∉ incumbents.map WireReq.subId := fun hRuns => by
    simp [(hOld x hx hRuns).1] at hPrior
  intro hRefused
  have hCount := refused_count incumbents hRefused
  rw [(sortBySub_perm _).countP_eq, List.countP_map] at hCount
  rw [← planParts_wanted rules session incumbents parts counter, List.countP_map] at hRoom
  refine absurd (hCount.trans_le (List.countP_mono_left fun y hy hFirst => ?_)) (Nat.not_lt_of_le hRoom)
  simp only [Function.comp_apply, comesFirst, Bool.or_eq_true, decide_eq_true_eq]
  by_cases hRuns : y.1.subId ∈ incumbents.map WireReq.subId
  · exact .inl (hOld y hy hRuns).2
  · simp only [Function.comp_apply, ranksBefore, hRuns, hNew, decide_false] at hFirst
    exact .inr hFirst

variable {incumbents : RelayPlan} {budget : CompileBudget} {out : CompiledDemand}

structure Unrefused (done : List RelaySessionKey) (out : CompiledDemand) : Prop where
  replaced : ∀ rep ∈ out.replacements, rep.session ∈ done
  refused : ∀ part ∈ out.budgetRefused, part.1 ∈ done
  apart : ∀ rep ∈ out.replacements, ∀ part ∈ out.budgetRefused, part.1 = rep.session → part.2.subId ≠ rep.nextSubId

theorem refused_planSession {session : RelaySessionKey} {parts : Table ReadRouting (List Entry)}
    (h : part ∈ (planSession rules incumbents budget out (session, parts)).budgetRefused) :
    part ∈ out.budgetRefused ∨ part.1 = session ∧ ∃ allowed, budget.maxSubscriptions[session.1]? = some allowed ∧
      part.2 ∈ (refuseOverBudget (sortBySub ((planParts rules session (incumbents.at session) parts.toList
        out.counter).1.map Prod.fst)) allowed (incumbents.at session)).2 := by
  unfold planSession at h
  simp only at h
  split at h
  · exact .inl h
  rename_i allowed hAllowed
  split at h
  · exact .inl h
  rcases mem_append.mp h with h | h
  · exact .inl h
  · obtain ⟨req, hReq, rfl⟩ := mem_map.mp h
    exact .inr ⟨rfl, allowed, hAllowed, hReq⟩

theorem planSession_unrefused (hWired : Wired incumbents.reqs start) (hLe : start ≤ out.counter) (h : Unrefused done out)
    {session : RelaySessionKey} {parts : Table ReadRouting (List Entry)} (hNew : session ∉ done)
    (hRoom : ∀ allowed ∈ budget.maxSubscriptions[session.1]?, ∀ req ∈ wantedRequests rules session parts.toList,
      MayReplace (runningFilters (incumbents.at session) req.routing)
        ((coalesceWith rules (parts[req.routing]?.getD [])).map Entry.filter) req.filter →
      (wantedRequests rules session parts.toList).countP (comesFirst (incumbents.at session) · req) ≤ allowed) :
    Unrefused (session :: done) (planSession rules incumbents budget out (session, parts)) := by
  obtain ⟨-, -, -, -, hReplaced, -⟩ := planSession_spec rules incumbents budget out session parts
  obtain ⟨hNodup, hBelow⟩ := hWired.session session
  have hLt : ∀ req ∈ incumbents.at session, req.subId.mint < out.counter := fun req hReq => (hBelow req hReq).trans_le hLe
  have hKeys := keys_nodup parts
  have hNames := (planParts_planned rules session (incumbents.at session) hNodup parts.toList hKeys hLt).names_nodup
  have hEach : ∀ rep ∈ (planSession rules incumbents budget out (session, parts)).replacements,
      rep ∈ out.replacements ∨ rep.session = session ∧ ∃ x ∈ (planParts rules session (incumbents.at session) parts.toList
        out.counter).1, x.2 = some rep.priorSubId ∧ x.1.subId = rep.nextSubId := by
    intro rep hRep
    rw [hReplaced] at hRep
    refine (mem_append.mp hRep).imp_right fun hRep => ?_
    obtain ⟨x, hx, hNote⟩ := mem_filterMap.mp hRep
    obtain ⟨prior, hPrior, rfl⟩ := map_eq_some_iff.mp hNote
    exact ⟨rfl, x, hx, hPrior, rfl⟩
  refine ⟨fun rep hRep => ?_, fun part hPart => ?_, fun rep hRep part hPart hSession hName => ?_⟩
  · rcases hEach rep hRep with hOld | ⟨rfl, -⟩
    · exact .tail _ (h.replaced rep hOld)
    · exact mem_cons_self
  · rcases refused_planSession hPart with hOld | ⟨rfl, -⟩
    · exact .tail _ (h.refused part hOld)
    · exact mem_cons_self
  rcases hEach rep hRep with hOld | ⟨hHere, x, hx, hPrior, hNext⟩ <;>
    rcases refused_planSession hPart with hOldPart | ⟨hHerePart, allowed, hAllowed, hRefused⟩
  · exact h.apart rep hOld part hOldPart hSession hName
  · exact hNew (hHerePart ▸ hSession ▸ h.replaced rep hOld)
  · exact hNew (hHere ▸ hSession ▸ h.refused part hOldPart)
  -- the refused request of this name is the successor itself
  have hIn : part.2 ∈ (planParts rules session (incumbents.at session) parts.toList out.counter).1.map Prod.fst :=
    ((refuseOverBudget_perm _ allowed _).trans (sortBySub_perm _)).subset (mem_append_right _ hRefused)
  obtain ⟨y, hy, hPart⟩ := mem_map.mp hIn
  have hSame : y = x := inj_on_of_nodup_map hNames hy hx (congrArg SubId.mint (hPart ▸ hName.trans hNext.symm))
  rw [← hPart, hSame] at hRefused
  obtain ⟨entries, hEntries, hMay⟩ := planParts_mayReplace hx hPrior
  have hWanted : { x.1 with subId := .allocate session 0 } ∈ wantedRequests rules session parts.toList :=
    planParts_wanted rules session (incumbents.at session) parts.toList out.counter ▸ mem_map_of_mem hx
  have hParts : parts[x.1.routing]? = some entries := mem_toList.mp hEntries
  have hCount := hRoom allowed hAllowed _ hWanted (by simpa only [hParts, Option.getD_some] using hMay)
  exact planned_kept (incumbents.at session) hNodup hLt hKeys hx hPrior hCount hRefused

theorem compileDemand_unrefused (hWired : Wired incumbents.reqs start) (bag : SessionBag)
    (hRoom : HasRoom rules incumbents bag budget) :
    ∃ done, Unrefused done (compileDemand rules incumbents budget start bag) := by
  have hAll : ∀ (l : List (RelaySessionKey × Table ReadRouting (List Entry))) (done : List RelaySessionKey)
      (out : CompiledDemand), (∀ part ∈ l, part ∈ (applyGlobalRelayCap bag budget.relayCap).1.toList) →
      (l.map Prod.fst).Nodup → (∀ part ∈ l, part.1 ∉ done) → start ≤ out.counter → Unrefused done out →
      ∃ done, Unrefused done (l.foldl (planSession rules incumbents budget) out) := by
    intro l
    induction l with
    | nil => exact fun done _ _ _ _ _ h => ⟨done, h⟩
    | cons part l ih =>
      intro done out hIn hNodup hFresh hLe h
      obtain ⟨hHead, hNodup⟩ := nodup_cons.mp hNodup
      refine ih (part.1 :: done) _ (fun other hOther => hIn other (.tail _ hOther)) hNodup (fun other hOther => ?_)
        (planSession_counter rules budget hWired hLe part)
        (planSession_unrefused hWired hLe h (hFresh part mem_cons_self) (hRoom part (hIn part mem_cons_self)))
      rw [mem_cons, not_or]
      exact ⟨fun hSame => hHead (hSame ▸ mem_map_of_mem hOther), hFresh other (.tail _ hOther)⟩
  unfold compileDemand
  exact hAll _ [] _ (fun part hPart => hPart) (keys_nodup _) (fun part _ => not_mem_nil) le_rfl
    ⟨fun rep hRep => (not_mem_nil hRep).elim, fun part hPart => (not_mem_nil hPart).elim,
      fun rep hRep => (not_mem_nil hRep).elim⟩

end

end NmpStore.Routing

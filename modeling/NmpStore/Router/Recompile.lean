import NmpStore.Lib.Grouping
import NmpStore.Router.Delta

/-! # Compiling the same demand again

The requests that a compilation has put on the wire are found again, each under its own filter, and come before all
others when the budget binds.
-/

namespace NmpStore.Routing

open Resolver (ConcreteFilter ReadRouting)

variable {α : Type} {incumbents : List WireReq} {x : WireReq × Option SubId}

theorem pickBest_isSome (bt : α → α → Bool) (h : candidates ≠ []) :
    (pickBest bt candidates).isSome := by
  have hF : ∀ f : Option α → α → Option α, (∀ b c, (f b c).isSome) →
      ∀ (l : List α) (b : Option α), b.isSome → (l.foldl f b).isSome := by
    intro f hf l
    induction l with
    | nil => exact fun b hb => hb
    | cons c l ih => exact fun b _ => ih _ (hf b c)
  cases candidates with
  | nil => exact absurd rfl h
  | cons c l =>
    rw [pickBest, foldl_cons]
    refine hF _ (fun b c => ?_) l _ rfl
    cases b with
    | none => rfl
    | some b =>
      dsimp only
      split <;> rfl

section

variable {priors : List (ConcreteFilter × SubId)} {next : List ConcreteFilter}

/-- The first phase, when every filter occurs once: each one that runs is matched with itself. -/
structure Kept (priors : List (ConcreteFilter × SubId)) (next : List ConcreteFilter) (m : Matching) (done : List Nat) : Prop where
  out : ∀ (i : Nat) a, m.out[i]? = some a ↔
    i ∈ done ∧ a.predecessor = none ∧ ∃ filter, next[i]? = some filter ∧ (filter, a.subId) ∈ priors
  taken : ∀ p prior, priors[p]? = some prior → (p ∈ m.taken ↔ ∃ i ∈ done, next[i]? = some prior.1)

section

variable (hFilters : (priors.map Prod.fst).Nodup) (hNext : next.Nodup)

include hFilters hNext

theorem keepStep_kept (h : Kept priors next m done) (hi : i ∉ done) :
    Kept priors next (keepStep priors next m i) (i :: done) := by
  have hs : ∀ (j : Nat) filter, next[i]? = some filter → next[j]? = some filter → i = j := fun j filter hAt hAt' =>
    (List.getElem?_inj (getElem?_eq_some_iff.mp hAt).1 hNext).mp (hAt.trans hAt'.symm)
  have hr : ∀ pr ∈ priors, ∀ pr' ∈ priors, pr.1 = pr'.1 → pr = pr' := fun pr hI pr' hI' hE =>
    inj_on_of_nodup_map hFilters hI hI' hE
  unfold keepStep
  simp only
  split
  · rename_i fd hc
    obtain ⟨hI, hF⟩ := mem_filter.mp (pickBest_mem hc)
    obtain ⟨-, hFlt⟩ : fd.2 ∉ m.taken ∧ next[i]? = some fd.1.1 := by simpa using hF
    have hAt : priors[fd.2]? = some fd.1 := List.mem_zipIdx_iff_getElem?.mp hI
    have hM := mem_of_getElem? hAt
    refine ⟨fun j a => ?_, fun p pr hp => ?_⟩
    · rw [get_insert]
      split
      · rename_i hE
        subst hE
        constructor
        · intro hE
          cases hE
          exact ⟨mem_cons_self, rfl, fd.1.1, hFlt, hM⟩
        · rintro ⟨-, hn, filter, hFlt', hK⟩
          cases hFlt.symm.trans hFlt'
          have hB : fd.1.2 = a.subId := congrArg Prod.snd (hr _ hM _ hK rfl)
          obtain ⟨subId, pd⟩ := a
          subst hn
          rw [hB]
      · rename_i hN
        rw [h.out j a]
        simp [Ne.symm hN]
    · simp only [mem_cons, exists_eq_or_imp]
      rw [h.taken p pr hp]
      refine or_congr ⟨fun hE => ?_, fun hH => ?_⟩ .rfl
      · subst hE
        cases hp.symm.trans hAt
        exact hFlt
      have hE : pr.1 = fd.1.1 := Option.some.inj (hH.symm.trans hFlt)
      have hP : (priors.map Prod.fst)[p]? = (priors.map Prod.fst)[fd.2]? := by
        rw [List.getElem?_map, List.getElem?_map, hp, hAt, map_some, map_some, hE]
      have hL : p < (priors.map Prod.fst).length := by
        rw [length_map]
        exact (getElem?_eq_some_iff.mp hp).1
      exact (List.getElem?_inj hL hFilters).mp hP
  · rename_i hc
    -- no earlier request with this filter is left, and none of those taken had it
    have hn : ∀ pr ∈ priors, next[i]? ≠ some pr.1 := by
      intro pr hI hH
      obtain ⟨p, hAt⟩ := List.mem_iff_getElem?.mp hI
      have hf : p ∉ m.taken := by
        intro hT
        obtain ⟨j, hj, ht⟩ := (h.taken p pr hAt).mp hT
        exact hi (hs j pr.1 hH ht ▸ hj)
      have hS := pickBest_isSome (fun p q : (ConcreteFilter × SubId) × Nat => (compare p.1.2 q.1.2).isLT)
        (List.ne_nil_of_mem (mem_filter.mpr ⟨List.mem_zipIdx_iff_getElem?.mpr hAt, by simp [hf, hH]⟩ : (pr, p) ∈ priors.zipIdx.filter fun pr => pr.2 ∉ m.taken ∧ next[i]? = some pr.1.1))
      rw [hc] at hS
      cases hS
    refine ⟨fun j a => ?_, fun p pr hp => ?_⟩
    · rw [h.out j a, mem_cons]
      refine ⟨fun ⟨hI, hR⟩ => ⟨.inr hI, hR⟩, ?_⟩
      rintro ⟨rfl | hI, he, filter, hFlt, hK⟩
      · exact absurd hFlt (hn _ hK)
      · exact ⟨hI, he, filter, hFlt, hK⟩
    · simp only [mem_cons, exists_eq_or_imp]
      rw [h.taken p pr hp]
      exact ⟨.inr, fun ho => ho.resolve_left (hn pr (mem_of_getElem? hp))⟩

end

structure Minted (start : Nat) (priors : List (ConcreteFilter × SubId)) (next : List ConcreteFilter) (m : Matching) : Prop where
  counter : start ≤ m.counter
  each : ∀ (i : Nat) a, m.out[i]? = some a → a.predecessor = none ∧
    ((∃ filter, next[i]? = some filter ∧ (filter, a.subId) ∈ priors) ∨ start ≤ a.subId.mint)
  kept : ∀ (i : Nat) filter s, next[i]? = some filter → (filter, s) ∈ priors → m.out[i]? = some ⟨s, none⟩

theorem mintStep_minted (h : Minted start priors next m) (i : Nat) :
    Minted start priors next (mintStep k m i) := by
  unfold mintStep
  split
  · exact h
  rename_i hU
  have hN : m.out[i]? = none := by simpa using hU
  refine ⟨h.counter.trans (Nat.le_succ _), fun j a hA => ?_, fun j fl s hF hK => ?_⟩
  · rcases insert_some.mp hA with ⟨-, rfl⟩ | ⟨-, hA⟩
    · exact ⟨rfl, .inr h.counter⟩
    · exact h.each j a hA
  · have hH := h.kept j fl s hF hK
    rw [get_insert, if_neg fun hE => by simp [hE ▸ hN] at hH]
    exact hH

theorem assign_again (k : RelaySessionKey) (st : Nat) (hFilters : (priors.map Prod.fst).Nodup) (hNext : next.Nodup)
    (hc : ∀ pr ∈ priors, pr.1 ∈ next) {i : Nat} {filter : ConcreteFilter}
    (ht : next[i]? = some filter) (hA : (assign k priors next st).1[i]? = some a) :
    a.predecessor = none ∧ (∀ s, (filter, s) ∈ priors → a.subId = s) ∧
      ((∀ s, (filter, s) ∉ priors) → st ≤ a.subId.mint) := by
  have hK : ∀ (l done : List Nat) (m : Matching), l.Nodup → (∀ i ∈ l, i ∉ done) → Kept priors next m done →
      ∃ done', (∀ i, i ∈ done' ↔ i ∈ l ∨ i ∈ done) ∧ Kept priors next (l.foldl (keepStep priors next) m) done' ∧
        (l.foldl (keepStep priors next) m).counter = m.counter := by
    intro l
    induction l with
    | nil => exact fun done m _ _ h => ⟨done, by simp, h, rfl⟩
    | cons i l ih =>
      intro done m hNodup hf h
      obtain ⟨hU, hNodup⟩ := nodup_cons.mp hNodup
      have hl : ∀ j ∈ l, j ∉ i :: done := by
        intro j hj hI
        rcases mem_cons.mp hI with rfl | hI
        · exact hU hj
        · exact hf j (.tail _ hj) hI
      have hC : (keepStep priors next m i).counter = m.counter := by
        unfold keepStep
        simp only
        split <;> rfl
      obtain ⟨done', hD, hk, hR⟩ := ih (i :: done) _ hNodup hl
        (keepStep_kept hFilters hNext h (hf i (.head _)))
      refine ⟨done', fun j => ?_, hk, hR.trans hC⟩
      rw [hD]
      simp only [mem_cons]
      tauto
  have hS : Kept priors next { counter := st } [] := ⟨fun i a => by simp, fun p pr _ => by simp⟩
  obtain ⟨done, hD, hk, hC⟩ := hK (canonicalOrder next) [] _ canonicalOrder_nodup (by simp) hS
  have ha : ∀ i : Nat, i < next.length → i ∈ done := fun i hi => (hD i).mpr (.inl (mem_canonicalOrder.mpr hi))
  generalize h1 : (canonicalOrder next).foldl (keepStep priors next) { counter := st } = first at hk hC
  have hT : ∀ p pr, priors[p]? = some pr → p ∈ first.taken := by
    intro p pr hp
    obtain ⟨j, hj⟩ := List.mem_iff_getElem?.mp (hc pr (mem_of_getElem? hp))
    exact (hk.taken p pr hp).mpr ⟨j, ha j (getElem?_eq_some_iff.mp hj).1, hj⟩
  -- every earlier request is taken, so the second phase finds nothing to replace
  have hr : ∀ l : List Nat, l.foldl (replaceStep k priors next) first = first := by
    intro l
    induction l with
    | nil => rfl
    | cons i l ih =>
      have hZ : priors.zipIdx.filter (fun pr => pr.2 ∉ first.taken) = [] := by
        refine filter_eq_nil_iff.mpr fun pr hI => ?_
        simpa using hT pr.2 pr.1 (List.mem_zipIdx_iff_getElem?.mp hI)
      have hSt : replaceStep k priors next first i = first := by
        unfold replaceStep
        split
        · rfl
        · simp only [hZ]
          rfl
      rw [foldl_cons, hSt, ih]
  have hM : Minted st priors next first := by
    refine ⟨Nat.le_of_eq hC.symm, fun i a hU => ?_, fun i filter s ht hI => ?_⟩
    · obtain ⟨-, hP, hF⟩ := (hk.out i a).mp hU
      exact ⟨hP, .inl hF⟩
    · exact (hk.out i _).mpr ⟨ha i (getElem?_eq_some_iff.mp ht).1, rfl, filter, ht, hI⟩
  have hm : ∀ (l : List Nat) (m : Matching), Minted st priors next m →
      Minted st priors next (l.foldl (mintStep k) m) := by
    intro l
    induction l with
    | nil => exact fun _ h => h
    | cons i l ih => exact fun m h => ih _ (mintStep_minted h i)
  have hL : Minted st priors next (matching k priors next st) := by
    unfold matching
    simp only
    rw [h1, hr]
    exact hm (canonicalOrder next) first hM
  have hi := (getElem?_eq_some_iff.mp ht).1
  rw [(assign_get k priors next st).2 i hi] at hA
  obtain ⟨hP, hF⟩ := hL.each i a hA
  refine ⟨hP, fun s hs => ?_, fun hN => hF.resolve_left ?_⟩
  · exact congrArg Assignment.subId (Option.some.inj (hA.symm.trans (hL.kept i filter s ht hs)))
  rintro ⟨o, hX, hI⟩
  cases ht.symm.trans hX
  exact hN _ hI

end

def Again (ids : List SubId) (x y : WireReq × Option SubId) : Prop :=
  y.2 = none ∧ y.1 = { x.1 with subId := y.1.subId } ∧ (x.1.subId ∈ ids → y.1.subId = x.1.subId) ∧
    (x.1.subId ∉ ids → y.1.subId ∉ ids)

def named (source : ReadRouting) (entry : Entry) (a : Assignment) : WireReq × Option SubId :=
  ({ subId := a.subId, filter := entry.filter, routing := source
     provenance := .ofList entry.provenance compare, ownership := entry.ownership }, a.predecessor)

def priorsOf (incumbents : List WireReq) (source : ReadRouting) : List (ConcreteFilter × SubId) :=
  (incumbents.filter fun req => req.routing = source).map fun req => (req.filter, req.subId)

theorem planPart_get (rules : List MergeRule) (k : RelaySessionKey) (incumbents : List WireReq) (sr : ReadRouting)
    (en : List Entry) (cn : Nat) :
    (planPart rules k incumbents sr en cn).1.length = (coalesceWith rules en).length ∧
      ∀ i (hi : i < (planPart rules k incumbents sr en cn).1.length), ∃ et a,
        (coalesceWith rules en)[i]? = some et ∧
        (assign k (priorsOf incumbents sr) ((coalesceWith rules en).map Entry.filter) cn).1[i]? = some a ∧
        (planPart rules k incumbents sr en cn).1[i] = named sr et a := by
  have hU : (planPart rules k incumbents sr en cn).1 = ((coalesceWith rules en).zip
      (assign k (priorsOf incumbents sr) ((coalesceWith rules en).map Entry.filter) cn).1).map
        fun x => named sr x.1 x.2 := rfl
  obtain ⟨hL, -⟩ := assign_get k (priorsOf incumbents sr) ((coalesceWith rules en).map Entry.filter) cn
  rw [length_map] at hL
  rw [hU]
  refine ⟨by rw [length_map, List.length_zip, hL, Nat.min_self], fun i hi => ?_⟩
  rw [length_map, List.length_zip] at hi
  refine ⟨_, _, getElem?_eq_getElem (by omega), getElem?_eq_getElem (by omega), ?_⟩
  rw [List.getElem_map, List.getElem_zip]

theorem planPart_routing
    (hx : x ∈ (planPart rules k incumbents src ents counter).1) : x.1.routing = src := by
  obtain ⟨i, hi, rfl⟩ := getElem_of_mem hx
  obtain ⟨en, a, -, -, hE⟩ := (planPart_get rules k incumbents src ents counter).2 i hi
  rw [hE]
  rfl

theorem planParts_routing
    (hx : x ∈ (planParts rules k incumbents pt counter).1) : x.1.routing ∈ pt.map Prod.fst := by
  induction pt generalizing counter with
  | nil => simp [planParts] at hx
  | cons pr pt ih =>
    obtain ⟨sr, en⟩ := pr
    rcases mem_append.mp hx with hx | hx
    · exact planPart_routing hx ▸ mem_cons_self
    · exact mem_cons_of_mem _ (ih hx)

theorem Planned.names_nodup
    {pl : List (WireReq × Option SubId)} (h : Planned start stop old (tagged k pl)) :
    (pl.map fun x => x.1.subId.mint).Nodup := by
  have hM := h.nodup
  rw [tagged, map_map, map_map] at hM
  exact hM

section

variable {incumbents rn : List WireReq} (hNodup : (incumbents.map fun req => req.subId.mint).Nodup)
  (hRunning : (rn.map fun req => req.subId.mint).Nodup)

include hNodup hRunning

theorem planPart_again
    (hb : ∀ req ∈ incumbents, req.subId.mint < counter) (hb' : ∀ req ∈ rn, req.subId.mint < counter')
    (hF : ∀ req ∈ rn, req.routing = src → ∃ x ∈ (planPart rules k incumbents src ents counter).1,
      x.1.subId = req.subId ∧ x.1.filter = req.filter)
    (hc : ∀ x ∈ (planPart rules k incumbents src ents counter).1, x.1.subId ∈ rn.map WireReq.subId →
      ∃ req ∈ rn, req.subId = x.1.subId ∧ req.filter = x.1.filter ∧ req.routing = src) :
    List.Forall₂ (Again (rn.map WireReq.subId)) (planPart rules k incumbents src ents counter).1
      (planPart rules k rn src ents counter').1 := by
  have hm := (planPart_planned rules k incumbents src ents hNodup hb).names_nodup
  have hD := coalesceWith_nodup rules ents
  obtain ⟨hL, hG⟩ := planPart_get rules k incumbents src ents counter
  obtain ⟨hL', hG'⟩ := planPart_get rules k rn src ents counter'
  -- a planned request is found by its filter, and by its token
  have hY : ∀ x ∈ (planPart rules k incumbents src ents counter).1,
      ∀ y ∈ (planPart rules k incumbents src ents counter).1, x.1.filter = y.1.filter → x = y := by
    intro x hx y hy he
    obtain ⟨i, hi, rfl⟩ := getElem_of_mem hx
    obtain ⟨j, hj, rfl⟩ := getElem_of_mem hy
    obtain ⟨en, a, hE, -, hn⟩ := hG i hi
    obtain ⟨en', a', hE', -, hn'⟩ := hG j hj
    rw [hn, hn'] at he
    have hP : ((coalesceWith rules ents).map Entry.filter)[i]? = ((coalesceWith rules ents).map Entry.filter)[j]? := by
      rw [List.getElem?_map, List.getElem?_map, hE, hE']
      exact congrArg some he
    have hij : i = j := (List.getElem?_inj (by rw [length_map]; omega) hD).mp hP
    subst hij
    rfl
  have hp : ∀ pr ∈ priorsOf rn src, ∃ x ∈ (planPart rules k incumbents src ents counter).1,
      x.1.filter = pr.1 ∧ x.1.subId = pr.2 ∧ pr.2 ∈ rn.map WireReq.subId := by
    intro pr h1
    obtain ⟨req, hQ, rfl⟩ := mem_map.mp h1
    obtain ⟨hI, hR⟩ := mem_filter.mp hQ
    obtain ⟨x, hx, hName, hFlt⟩ := hF req hI (by simpa using hR)
    exact ⟨x, hx, hFlt, hName, mem_map_of_mem hI⟩
  have hFilters : ((priorsOf rn src).map Prod.fst).Nodup := by
    have hr : (rn.filter fun req => req.routing = src).Nodup := (List.Nodup.of_map _ hRunning).filter _
    rw [priorsOf, map_map]
    refine hr.map_on fun req hQ req' hQ' he => ?_
    obtain ⟨x, hx, hFlt, hName, -⟩ := hp (req.filter, req.subId) (mem_map_of_mem hQ)
    obtain ⟨y, hy, hFlt', hName', -⟩ := hp (req'.filter, req'.subId) (mem_map_of_mem hQ')
    have hS := hY x hx y hy (hFlt.trans (he.trans hFlt'.symm))
    have hB : req.subId = req'.subId := hName.symm.trans (hS ▸ hName')
    exact inj_on_of_nodup_map hRunning (mem_filter.mp hQ).1 (mem_filter.mp hQ').1 (congrArg SubId.mint hB)
  have hC : ∀ pr ∈ priorsOf rn src, pr.1 ∈ (coalesceWith rules ents).map Entry.filter := by
    intro pr h1
    obtain ⟨x, hx, hFlt, -, -⟩ := hp pr h1
    obtain ⟨i, hi, rfl⟩ := getElem_of_mem hx
    obtain ⟨en, a, hE, -, hn⟩ := hG i hi
    rw [← hFlt, hn]
    exact mem_map_of_mem (mem_of_getElem? hE)
  rw [List.forall₂_iff_get]
  refine ⟨hL.trans hL'.symm, fun i hi hi' => ?_⟩
  obtain ⟨en, a, hE, -, hn⟩ := hG i hi
  obtain ⟨en', a', hE', hA, hn'⟩ := hG' i hi'
  cases hE.symm.trans hE'
  have hx : named src en a ∈ (planPart rules k incumbents src ents counter).1 := hn ▸ List.getElem_mem hi
  obtain ⟨hd, hK, hf⟩ := assign_again k counter' hFilters hD hC
    (by rw [List.getElem?_map, hE]; rfl : ((coalesceWith rules ents).map Entry.filter)[i]? = some en.filter) hA
  simp only [List.get_eq_getElem]
  rw [hn, hn']
  refine ⟨hd, rfl, fun hI => ?_, fun hU hI => ?_⟩
  · obtain ⟨req, hQ, hName, hFlt, hR⟩ := hc _ hx hI
    refine hK _ (mem_map.mpr ⟨req, mem_filter.mpr ⟨hQ, by simp [hR]⟩, ?_⟩)
    rw [hName, hFlt]
    rfl
  have hN := hf fun s hs => by
    obtain ⟨x, hx', hFlt, hName, hM⟩ := hp _ hs
    have hS := hY x hx' _ hx hFlt
    rw [hS] at hName
    exact hU (hName ▸ hM)
  obtain ⟨req, hQ, he⟩ := mem_map.mp hI
  have hl := hb' req hQ
  rw [he] at hl
  exact lt_irrefl _ (hl.trans_le hN)

theorem planParts_again (hK : (pt.map Prod.fst).Nodup)
    (hL : ∀ req ∈ incumbents, req.subId.mint < counter) (hL' : ∀ req ∈ rn, req.subId.mint < counter')
    (hF : ∀ req ∈ rn, req.routing ∈ pt.map Prod.fst → ∃ x ∈ (planParts rules k incumbents pt counter).1,
      x.1.subId = req.subId ∧ x.1.filter = req.filter ∧ x.1.routing = req.routing)
    (hB : ∀ x ∈ (planParts rules k incumbents pt counter).1, x.1.subId ∈ rn.map WireReq.subId →
      ∃ req ∈ rn, req.subId = x.1.subId ∧ req.filter = x.1.filter ∧ req.routing = x.1.routing) :
    List.Forall₂ (Again (rn.map WireReq.subId)) (planParts rules k incumbents pt counter).1
      (planParts rules k rn pt counter').1 := by
  induction pt generalizing counter counter' with
  | nil => exact .nil
  | cons pr pt ih =>
    obtain ⟨sr, en⟩ := pr
    obtain ⟨hU, hK⟩ := nodup_cons.mp hK
    have hl := (planPart_planned rules k incumbents sr en hNodup hL).le
    have hl' := (planPart_planned rules k rn sr en hRunning hL').le
    rw [planParts]
    refine List.rel_append ?_ ?_
    · refine planPart_again hNodup hRunning hL hL' (fun req hQ hR => ?_) fun x hx hI => ?_
      · obtain ⟨x, hx, hN, hf, hS⟩ := hF req hQ (hR ▸ mem_cons_self)
        rcases mem_append.mp hx with hx | hx
        · exact ⟨x, hx, hN, hf⟩
        · exact absurd (hR ▸ hS ▸ planParts_routing hx) hU
      · obtain ⟨req, hQ, hN, hf, hR⟩ := hB x (mem_append_left _ hx) hI
        exact ⟨req, hQ, hN, hf, hR.trans (planPart_routing hx)⟩
    · refine ih hK (fun req hQ => (hL req hQ).trans_le hl) (fun req hQ => (hL' req hQ).trans_le hl')
        (fun req hQ hR => ?_) fun x hx hI => hB x (mem_append_right _ hx) hI
      obtain ⟨x, hx, hN, hf, hS⟩ := hF req hQ (.tail _ hR)
      rcases mem_append.mp hx with hx | hx
      · exact absurd ((planPart_routing hx).symm.trans hS ▸ hR) hU
      · exact ⟨x, hx, hN, hf, hS⟩

end

theorem sortBySub_pairwise (l : List WireReq) : (sortBySub l).Pairwise fun a b => (compare a.subId b.subId).isLE = true := by
  exact Grouping.insertionSort_pairwise (compareOn WireReq.subId) l

theorem sortBySub_eq_of_perm (hP : l.Perm l') (hNodup : (l.map WireReq.subId).Nodup) :
    sortBySub l = sortBySub l' := by
  have hB := ((sortBySub_perm l).trans hP).trans (sortBySub_perm l').symm
  refine List.Perm.eq_of_pairwise (fun a b ha hb hab hba => ?_) (sortBySub_pairwise l) (sortBySub_pairwise l') hB
  have hE : a.subId = b.subId := Std.LawfulEqOrd.eq_of_compare (Std.OrientedCmp.isLE_antisymm hab hba)
  have hb' := hB.symm.subset hb
  exact inj_on_of_nodup_map hNodup ((sortBySub_perm l).subset ha) ((sortBySub_perm l).subset hb') hE

theorem insertionSort_chosen (ch : α → Bool) (r : α → α → Prop) [DecidableRel r]
    (hF : ∀ a b, ch a → ¬ch b → r a b) (hL : ∀ a b, ¬ch a → ch b → ¬r a b) (l : List α) :
    (l.insertionSort r).Pairwise fun a b => ch b → ch a := by
  have hI : ∀ (a : α) (l : List α), (l.Pairwise fun a b => ch b → ch a) →
      (l.orderedInsert r a).Pairwise fun a b => ch b → ch a := by
    intro a l
    induction l with
    | nil => simp
    | cons b l ih =>
      intro hS
      obtain ⟨hH, hT⟩ := pairwise_cons.mp hS
      rw [List.orderedInsert]
      split
      · rename_i hB
        refine pairwise_cons.mpr ⟨fun c hc hC => ?_, hS⟩
        have hb : ch b := by
          rcases mem_cons.mp hc with rfl | hc
          · exact hC
          · exact hH c hc hC
        by_contra hY
        exact hL a b hY hb hB
      · rename_i hA
        refine pairwise_cons.mpr ⟨fun c hc hC => ?_, ih hT⟩
        rcases (List.mem_orderedInsert r).mp hc with rfl | hc
        · by_contra hY
          exact hA (hF c b hC hY)
        · exact hH c hc hC
  induction l with
  | nil => exact List.Pairwise.nil
  | cons a l ih => exact hI a _ ih

theorem chosen_first {ch : α → Bool} {l : List α} (h : l.Pairwise fun a b => ch b → ch a) :
    l = l.filter ch ++ l.filter fun a => !ch a := by
  induction l with
  | nil => rfl
  | cons a l ih =>
    obtain ⟨hH, hT⟩ := pairwise_cons.mp h
    by_cases hC : ch a
    · rw [List.filter_cons_of_pos hC, List.filter_cons_of_neg (by simp [hC]), List.cons_append, ← ih hT]
    have hN : l.filter ch = [] := filter_eq_nil_iff.mpr fun b hb hI => hC (hH b hb hI)
    have hA : (l.filter fun a => !ch a) = l := List.filter_eq_self.mpr fun b hb => by
      simpa using fun hI => hC (hH b hb hI)
    rw [List.filter_cons_of_neg hC, List.filter_cons_of_pos (by simp [hC]), hN, hA]
    rfl

section

variable [FilterHash]

variable {l : List WireReq} {α : Type}

theorem refuseOverBudget_running {rq : List WireReq}
    (hC : (rq.filter fun req => req.subId ∈ incumbents.map WireReq.subId).length = alw) :
    (refuseOverBudget rq alw incumbents).1.Perm
        (rq.filter fun req => req.subId ∈ incumbents.map WireReq.subId) ∧
      (refuseOverBudget rq alw incumbents).2.Perm
        (rq.filter fun req => !decide (req.subId ∈ incumbents.map WireReq.subId)) := by
  unfold refuseOverBudget
  simp only
  generalize hR : (rq.insertionSort fun a b => ranksBefore incumbents a b) = ranked
  have hP : ranked.Perm rq := hR ▸ perm_insertionSort _ _
  have hS : ranked = (ranked.filter fun req => req.subId ∈ incumbents.map WireReq.subId) ++
      ranked.filter fun req => !decide (req.subId ∈ incumbents.map WireReq.subId) := by
    refine chosen_first ?_
    rw [← hR]
    refine insertionSort_chosen _ _ (fun a b ha hb => ?_) (fun a b ha hb => ?_) rq
    · simp only [ranksBefore, ha, hb]
      rfl
    rw [decide_eq_true_eq] at ha hb
    simp only [ranksBefore, ha, hb, decide_true, decide_false]
    exact Bool.noConfusion
  have hL : (ranked.filter fun req => req.subId ∈ incumbents.map WireReq.subId).length = alw := by
    rw [← hC]
    exact (hP.filter _).length_eq
  constructor
  · refine (sortBySub_perm _).trans ?_
    rw [hS, List.take_left' hL]
    exact hP.filter _
  · rw [hS, List.drop_left' hL]
    exact hP.filter _

section
omit [FilterHash]

theorem sortBySub_idem (hNodup : (l.map WireReq.subId).Nodup) : sortBySub (sortBySub l) = sortBySub l :=
  (sortBySub_eq_of_perm (sortBySub_perm l).symm hNodup).symm

theorem again_filter (h : List.Forall₂ (Again ids) pln pln') :
    ((pln'.map Prod.fst).filter fun req => req.subId ∈ ids) = ((pln.map Prod.fst).filter fun req => req.subId ∈ ids) ∧
      (((pln'.map Prod.fst).filter fun req => !decide (req.subId ∈ ids)).map WireReq.ownership) =
        (((pln.map Prod.fst).filter fun req => !decide (req.subId ∈ ids)).map WireReq.ownership) := by
  induction h with
  | nil => exact ⟨rfl, rfl⟩
  | @cons x y _ _ hH _ ih =>
    obtain ⟨-, hE, hK, hF⟩ := hH
    rw [map_cons, map_cons]
    by_cases hI : x.1.subId ∈ ids
    · have hS : y.1 = x.1 := by rw [hE, hK hI]
      rw [hS]
      simp only [List.filter_cons, hI, decide_true, ↓reduceIte, Bool.not_true, false_eq_true]
      exact ⟨by rw [ih.1], ih.2⟩
    have hU := hF hI
    have ho : y.1.ownership = x.1.ownership := by rw [hE]
    simp only [List.filter_cons, hI, hU, decide_false, ↓reduceIte, Bool.not_false, false_eq_true, map_cons,
      ho]
    exact ⟨ih.1, by rw [ih.2]⟩

theorem again_replacements (k : RelaySessionKey)
    (h : List.Forall₂ (Again ids) pln pln') : noteReplacements k pln' = [] := by
  induction h with
  | nil => rfl
  | @cons x y _ _ hH _ ih =>
    rw [noteReplacements, List.filterMap_cons]
    obtain ⟨req, pr⟩ := y
    obtain rfl : pr = none := hH.1
    exact ih

theorem again_all (h : List.Forall₂ (Again ids) pln pln') (hA : ∀ x ∈ pln, x.1.subId ∈ ids) :
    pln'.map Prod.fst = pln.map Prod.fst := by
  induction h with
  | nil => rfl
  | @cons x y _ _ hH _ ih =>
    obtain ⟨-, hE, hK, -⟩ := hH
    have hS : y.1 = x.1 := by rw [hE, hK (hA x (.head _))]
    rw [map_cons, map_cons, hS, ih fun z hz => hA z (.tail _ hz)]

def refusedOwners (refused : List (RelaySessionKey × WireReq)) : List (RelaySessionKey × EntryOwnership) :=
  refused.map fun part => (part.1, part.2.ownership)

theorem limited_eq {rf rf' : List WireReq} (h : (rf'.map WireReq.ownership).Perm (rf.map WireReq.ownership)) :
    (Std.ExtTreeSet.ofList (rf'.flatMap fun req => req.ownership.ownerDemands.toList) compare) =
      Std.ExtTreeSet.ofList (rf.flatMap fun req => req.ownership.ownerDemands.toList) compare := by
  refine ext_mem fun dm => ?_
  rw [mem_ofList, mem_ofList, contains_iff_mem, contains_iff_mem]
  have hF : ∀ l : List WireReq, (l.flatMap fun req => req.ownership.ownerDemands.toList) =
      (l.map WireReq.ownership).flatMap fun o => o.ownerDemands.toList := fun l => by rw [List.flatMap_map]
  rw [hF, hF]
  exact (h.flatMap_right _).mem_iff

end

theorem refuseOverBudget_again (hN : ((pln.map Prod.fst).map WireReq.subId).Nodup)
    (hI : rn.map WireReq.subId = kept.map WireReq.subId)
    (hn : List.Forall₂ (Again (rn.map WireReq.subId)) pln pln')
    (hF : (refuseOverBudget (sortBySub (pln.map Prod.fst)) alw incumbents).1 = kept) (hw : kept.length = alw) :
    (refuseOverBudget (sortBySub (pln'.map Prod.fst)) alw rn).1 = kept ∧
      ((refuseOverBudget (sortBySub (pln'.map Prod.fst)) alw rn).2.map WireReq.ownership).Perm
        ((refuseOverBudget (sortBySub (pln.map Prod.fst)) alw incumbents).2.map WireReq.ownership) := by
  have hS := (refuseOverBudget_perm (sortBySub (pln.map Prod.fst)) alw incumbents).trans (sortBySub_perm _)
  have hs : sortBySub (refuseOverBudget (sortBySub (pln.map Prod.fst)) alw incumbents).1 =
      (refuseOverBudget (sortBySub (pln.map Prod.fst)) alw incumbents).1 := by
    have hA := (hS.map WireReq.subId).nodup_iff.mpr hN
    rw [map_append] at hA
    have hH := (nodup_append.mp hA).1
    exact sortBySub_idem (((sortBySub_perm _).map _).nodup_iff.mp hH)
  rw [hF] at hS hs
  generalize (refuseOverBudget (sortBySub (pln.map Prod.fst)) alw incumbents).2 = ref at hS
  have hA := (hS.map WireReq.subId).nodup_iff.mpr hN
  rw [map_append] at hA
  obtain ⟨hK, -, hD⟩ := nodup_append.mp hA
  have hi : (kept.filter fun req => req.subId ∈ rn.map WireReq.subId) = kept :=
    List.filter_eq_self.mpr fun req hQ => by
      rw [hI]
      simpa using ⟨req, hQ, rfl⟩
  have hU : (ref.filter fun req => !decide (req.subId ∈ rn.map WireReq.subId)) = ref :=
    List.filter_eq_self.mpr fun req hQ => by
      rw [hI, not_eq_true', decide_eq_false_iff_not]
      exact fun hM => hD _ hM _ (mem_map_of_mem hQ) rfl
  have ho : (ref.filter fun req => req.subId ∈ rn.map WireReq.subId) = [] := by
    refine filter_eq_nil_iff.mpr fun req hQ => ?_
    rw [hI, decide_eq_true_eq]
    exact fun hM => hD _ hM _ (mem_map_of_mem hQ) rfl
  have hO : (kept.filter fun req => !decide (req.subId ∈ rn.map WireReq.subId)) = [] := by
    refine filter_eq_nil_iff.mpr fun req hQ => ?_
    rw [hI]
    simpa using ⟨req, hQ, rfl⟩
  obtain ⟨hR, he⟩ := again_filter hn
  have hr : ((sortBySub (pln'.map Prod.fst)).filter fun req => req.subId ∈ rn.map WireReq.subId).Perm kept := by
    refine ((sortBySub_perm _).filter _).trans ?_
    rw [hR]
    refine (hS.symm.filter _).trans ?_
    rw [List.filter_append, hi, ho, append_nil]
  obtain ⟨hk, hf⟩ := refuseOverBudget_running (hr.length_eq.trans hw)
  constructor
  · have hP := hk.trans hr
    have ha := (hP.map WireReq.subId).nodup_iff.mpr hK
    rw [← hs, ← sortBySub_eq_of_perm hP ha]
    exact (sortBySub_idem (((sortBySub_perm _).map _).nodup_iff.mp ha)).symm
  · refine (hf.map _).trans ((((sortBySub_perm _).filter _).map _).trans ?_)
    rw [he]
    refine ((hS.symm.filter _).map _).trans ?_
    rw [List.filter_append, hO, hU, nil_append]

variable {incumbents rn : RelayPlan} (rules : List MergeRule) (budget : CompileBudget)

theorem planSession_again {out' : CompiledDemand} (pt : Table ReadRouting (List Entry))
    (hNodup : ((incumbents.at ses).map fun req => req.subId.mint).Nodup)
    (hRunning : ((running.at ses).map fun req => req.subId.mint).Nodup)
    (hl : ∀ req ∈ incumbents.at ses, req.subId.mint < out.counter)
    (hl' : ∀ req ∈ running.at ses, req.subId.mint < out'.counter) (hP : out'.plan = out.plan)
    (hOwners : (refusedOwners out'.budgetRefused).Perm (refusedOwners out.budgetRefused))
    (hN : out.plan.reqs[ses]? = none) (hS : (running.at ses).map (WireReq.sent ses) =
      ((planSession rules incumbents budget out (ses, pt)).plan.at ses).map (WireReq.sent ses)) :
    (planSession rules running budget out' (ses, pt)).plan =
        (planSession rules incumbents budget out (ses, pt)).plan ∧
      (planSession rules running budget out' (ses, pt)).replacements = out'.replacements ∧
      (refusedOwners (planSession rules running budget out' (ses, pt)).budgetRefused).Perm
        (refusedOwners (planSession rules incumbents budget out (ses, pt)).budgetRefused) := by
  obtain ⟨kp, refused, hs, -, -, -, hR⟩ := planSession_spec rules incumbents budget out ses pt
  have hK : (planSession rules incumbents budget out (ses, pt)).plan.at ses = kp := by
    rcases hR with ⟨rfl, hSm⟩ | hIns
    · rw [RelayPlan.at, hSm, hN]
      rfl
    · rw [RelayPlan.at, hIns, get_insert]
      simp
  rw [hK] at hS
  have hp := planParts_planned rules ses (incumbents.at ses) hNodup pt.toList (keys_nodup pt) hl
  have hM := hp.names_nodup
  have hI : (running.at ses).map WireReq.subId = kp.map WireReq.subId := by
    have := congrArg (List.map Sent.subId) hS
    rwa [map_map, map_map] at this
  have hA : List.Forall₂ (Again ((running.at ses).map WireReq.subId))
      (planParts rules ses (incumbents.at ses) pt.toList out.counter).1
      (planParts rules ses (running.at ses) pt.toList out'.counter).1 := by
    have hT : ∀ req ∈ running.at ses, ∃ x ∈ (planParts rules ses (incumbents.at ses) pt.toList out.counter).1,
        x.1.subId = req.subId ∧ x.1.filter = req.filter ∧ x.1.routing = req.routing := by
      intro req hQ
      obtain ⟨k, hk, hE⟩ := mem_map.mp (hS ▸ mem_map_of_mem hQ : req.sent ses ∈ kp.map (WireReq.sent ses))
      obtain ⟨x, hx, rfl⟩ := mem_map.mp (hs.subset (mem_append_left _ hk))
      exact ⟨x, hx, congrArg Sent.subId hE, congrArg Sent.filter hE, congrArg Sent.routing hE⟩
    refine planParts_again hNodup hRunning (keys_nodup pt) hl hl' (fun req hQ _ => hT req hQ) fun x hx hi => ?_
    obtain ⟨req, hQ, hName⟩ := mem_map.mp hi
    obtain ⟨y, hy, hName', ht, hr⟩ := hT req hQ
    have hSm : y = x := inj_on_of_nodup_map hM hy hx (congrArg SubId.mint (hName'.trans hName))
    exact ⟨req, hQ, hName, by rw [← hSm, ht], by rw [← hSm, hr]⟩
  unfold planSession at hK ⊢
  simp only at hK ⊢
  generalize planParts rules ses (incumbents.at ses) pt.toList out.counter = pln at hK hs hM hA ⊢
  generalize planParts rules ses (running.at ses) pt.toList out'.counter = pln' at hA ⊢
  have hL : (sortBySub (pln'.1.map Prod.fst)).length = (sortBySub (pln.1.map Prod.fst)).length := by
    rw [(sortBySub_perm _).length_eq, (sortBySub_perm _).length_eq, length_map, length_map, hA.length_eq]
  have hO := again_replacements ses hA
  have hn : ((pln.1.map Prod.fst).map WireReq.subId).Nodup := by
    refine List.Nodup.of_map SubId.mint ?_
    rw [map_map, map_map]
    exact hM
  -- without a refusal every request runs
  have hW : kp = sortBySub (pln.1.map Prod.fst) →
      sortBySub (pln'.1.map Prod.fst) = sortBySub (pln.1.map Prod.fst) := by
    intro hE
    refine congrArg sortBySub (again_all hA fun x hx => ?_)
    rw [hI, hE]
    exact mem_map_of_mem ((sortBySub_perm _).symm.subset (mem_map_of_mem hx))
  rw [hP, hO, append_nil]
  cases hm : budget.maxSubscriptions[ses.1]? with
  | none =>
    rw [hm] at hK
    have hE : kp = sortBySub (pln.1.map Prod.fst) := by
      rw [← hK, RelayPlan.at]
      simp
    exact ⟨by simp only [hW hE], rfl, hOwners⟩
  | some al =>
    rw [hm] at hK
    simp only [hL] at hK ⊢
    split
    · rename_i hf
      rw [if_pos hf] at hK
      have hE : kp = sortBySub (pln.1.map Prod.fst) := by
        rw [← hK, RelayPlan.at]
        simp
      exact ⟨by simp only [hW hE], rfl, hOwners⟩
    rename_i ho
    rw [if_neg ho] at hK
    have hF : (refuseOverBudget (sortBySub (pln.1.map Prod.fst)) al (incumbents.at ses)).1 = kp := by
      refine Eq.trans ?_ hK
      generalize (refuseOverBudget (sortBySub (pln.1.map Prod.fst)) al (incumbents.at ses)).1 = first
      change first = ((if first.isEmpty = true then out.plan.reqs else out.plan.reqs.insert ses first)[ses]?).getD []
      by_cases hZ : first.isEmpty
      · rw [if_pos hZ, hN]
        exact List.isEmpty_iff.mp hZ
      · rw [if_neg hZ, get_insert, if_pos rfl]
        rfl
    have ha : kp.length = al := by
      rw [← hF, refuseOverBudget]
      simp only [(sortBySub_perm _).length_eq, List.length_take, List.length_insertionSort]
      rw [(sortBySub_perm _).length_eq] at ho
      omega
    obtain ⟨hSm, hX⟩ := refuseOverBudget_again hn hI hA hF ha
    simp only [hF, hSm, limited_eq hX]
    have hC : (refuseOverBudget (sortBySub (pln'.1.map Prod.fst)) al (running.at ses)).2.length =
        (refuseOverBudget (sortBySub (pln.1.map Prod.fst)) al (incumbents.at ses)).2.length := by
      simpa using hX.length_eq
    rw [hC]
    refine ⟨rfl, trivial, ?_⟩
    unfold refusedOwners at hOwners ⊢
    rw [map_append, map_append, map_map, map_map]
    have hPairs := hX.map fun ownership => (ses, ownership)
    rw [map_map, map_map] at hPairs
    exact hOwners.append hPairs

theorem get_planSession_other (incumbents : RelayPlan) (budget : CompileBudget) (ot : CompiledDemand)
    (pt : Table ReadRouting (List Entry)) (hN : k ≠ o) :
    (planSession rules incumbents budget ot (k, pt)).plan.reqs[o]? = ot.plan.reqs[o]? := by
  obtain ⟨kp, -, -, -, -, -, hR⟩ := planSession_spec rules incumbents budget ot k pt
  rcases hR with ⟨-, hS⟩ | hI
  · rw [hS]
  · rw [hI, get_insert, if_neg hN]

theorem get_sessions_other (incumbents : RelayPlan) (budget : CompileBudget)
    (pt : List (RelaySessionKey × Table ReadRouting (List Entry))) (ot : CompiledDemand)
    (hU : k ∉ pt.map Prod.fst) :
    (pt.foldl (planSession rules incumbents budget) ot).plan.reqs[k]? = ot.plan.reqs[k]? := by
  induction pt generalizing ot with
  | nil => rfl
  | cons pr pt ih =>
    rw [map_cons, mem_cons, not_or] at hU
    rw [foldl_cons, ih _ hU.2]
    exact get_planSession_other rules incumbents budget ot pr.2 (Ne.symm hU.1)

theorem planSession_counter (hW : Wired incumbents.reqs start) (hL : start ≤ out.counter)
    (pr : RelaySessionKey × Table ReadRouting (List Entry)) :
    start ≤ (planSession rules incumbents budget out pr).counter := by
  obtain ⟨hNodup, hl⟩ := hW.session pr.1
  obtain ⟨-, -, -, hC, -⟩ := planSession_spec rules incumbents budget out pr.1 pr.2
  refine hL.trans (hC ▸ ?_)
  exact (planParts_planned rules pr.1 (incumbents.at pr.1) hNodup pr.2.toList (keys_nodup pr.2)
    fun req hQ => (hl req hQ).trans_le hL).le

theorem compileDemand_again (bg : SessionBag)
    (hW : Wired incumbents.reqs start) (hRunning : Wired rn.reqs start')
    (hS : ∀ k, (rn.at k).map (WireReq.sent k) =
      ((compileDemand rules incumbents budget start bg).plan.at k).map (WireReq.sent k)) :
    (compileDemand rules rn budget start' bg).plan = (compileDemand rules incumbents budget start bg).plan ∧
      (compileDemand rules rn budget start' bg).replacements = [] ∧
      (refusedOwners (compileDemand rules rn budget start' bg).budgetRefused).Perm
        (refusedOwners (compileDemand rules incumbents budget start bg).budgetRefused) := by
  have hf : ∀ (pt : List (RelaySessionKey × Table ReadRouting (List Entry))) (ot ot' : CompiledDemand),
      (pt.map Prod.fst).Nodup → (∀ pr ∈ pt, ot.plan.reqs[pr.1]? = none) → start ≤ ot.counter →
      start' ≤ ot'.counter → ot'.plan = ot.plan → ot'.replacements = [] →
      (refusedOwners ot'.budgetRefused).Perm (refusedOwners ot.budgetRefused) →
      (∀ pr ∈ pt, (rn.at pr.1).map (WireReq.sent pr.1) =
        ((pt.foldl (planSession rules incumbents budget) ot).plan.at pr.1).map (WireReq.sent pr.1)) →
      (pt.foldl (planSession rules rn budget) ot').plan = (pt.foldl (planSession rules incumbents budget) ot).plan ∧
        (pt.foldl (planSession rules rn budget) ot').replacements = [] ∧
        (refusedOwners (pt.foldl (planSession rules rn budget) ot').budgetRefused).Perm
          (refusedOwners (pt.foldl (planSession rules incumbents budget) ot).budgetRefused) := by
    intro pt
    induction pt with
    | nil => exact fun _ _ _ _ _ _ hP hN hOwners _ => ⟨hP, hN, hOwners⟩
    | cons pr pt ih =>
      intro ot ot' hK hF hL hL' hP hN hOwners hM
      obtain ⟨k, en⟩ := pr
      obtain ⟨hU, hK⟩ := nodup_cons.mp hK
      obtain ⟨hNodup, hl⟩ := hW.session k
      obtain ⟨hNodup', hl'⟩ := hRunning.session k
      rw [foldl_cons] at hM
      have hH := hM _ (.head _)
      rw [RelayPlan.at, RelayPlan.at, get_sessions_other rules incumbents budget pt _ hU] at hH
      obtain ⟨hs, hn, hOwners⟩ := planSession_again rules budget en hNodup hNodup'
        (fun req hQ => (hl req hQ).trans_le hL) (fun req hQ => (hl' req hQ).trans_le hL') hP hOwners
        (hF _ (.head _)) hH
      rw [foldl_cons, foldl_cons]
      refine ih _ _ hK (fun o hX => ?_) (planSession_counter rules budget hW hL _)
        (planSession_counter rules budget hRunning hL' _) hs (hn.trans hN) hOwners
        fun o hX => hM o (.tail _ hX)
      have he : k ≠ o.1 := fun hE => hU (mem_map.mpr ⟨o, hX, hE.symm⟩)
      rw [get_planSession_other rules incumbents budget ot en he]
      exact hF o (.tail _ hX)
  unfold compileDemand at hS ⊢
  generalize applyGlobalRelayCap bg budget.relayCap = capped at hS ⊢
  obtain ⟨bg, limited, rf⟩ := capped
  exact hf bg.toList _ _ (keys_nodup bg) (fun pr _ => by simp) (le_rfl) (le_rfl) rfl rfl (.refl _)
    fun pr _ => hS pr.1

section
omit [FilterHash]

theorem union_self_right [Ord α] [TransOrd α] [LawfulEqOrd α] (a b : ExtTreeSet α compare) :
    a ∪ b ∪ b = a ∪ b := by
  refine ext_mem fun x => ?_
  simp only [mem_union_iff]
  tauto

theorem union_self [Ord α] [TransOrd α] [LawfulEqOrd α] (a : ExtTreeSet α compare) : a ∪ a = a := by
  refine ext_mem fun x => ?_
  simp only [mem_union_iff]
  tauto

theorem retain_absorbs (pv : List WireReq) (req : WireReq) :
    ({ retain pv req with
        provenance := (retain pv req).provenance ∪ req.provenance
        ownership := (retain pv req).ownership.extend req.ownership } : WireReq) = retain pv req := by
  unfold retain
  split
  · simp only [EntryOwnership.extend, union_self_right]
  · simp only [EntryOwnership.extend, union_self]

theorem running_again (hNodup : (l.map WireReq.subId).Nodup) (pv : List WireReq)
    (hQ : req ∈ l) : running? (l.map (retain pv)) req = some (retain pv req) := by
  have hK : ∀ req, (retain pv req).subId = req.subId ∧ (retain pv req).routing = req.routing ∧
      (retain pv req).filter = req.filter := by
    intro req
    have hS := retain_sent ("", none) pv req
    exact ⟨congrArg Sent.subId hS, congrArg Sent.routing hS, congrArg Sent.filter hS⟩
  obtain ⟨fd, hF⟩ := isSome_iff_exists.mp (List.find?_isSome.mpr
    ⟨retain pv req, mem_map_of_mem hQ, by simp [(hK req).1]⟩ :
      ((l.map (retain pv)).find? fun ol => ol.subId = req.subId).isSome)
  obtain ⟨o, hO, rfl⟩ := mem_map.mp (List.mem_of_find?_eq_some hF)
  have hN : o.subId = req.subId := by
    have := find?_some hF
    simpa [(hK o).1] using this
  obtain rfl := inj_on_of_nodup_map hNodup hO hQ hN
  rw [running?, hF, Option.filter_some, if_pos]
  simp [(hK o).2.1, (hK o).2.2]

theorem retain_again (hNodup : (l.map WireReq.subId).Nodup) (pv : List WireReq)
    (hQ : req ∈ l) : retain (l.map (retain pv)) req = retain pv req := by
  conv_lhs => rw [retain, running_again hNodup pv hQ]
  exact retain_absorbs pv req

theorem updateOf_again (hNodup : (l.map WireReq.subId).Nodup) (k : RelaySessionKey) (pv : List WireReq)
    (hQ : req ∈ l) : updateOf k (l.map (retain pv)) req = none := by
  have ho : (retain pv req).ownership.extend req.ownership = (retain pv req).ownership :=
    congrArg WireReq.ownership (retain_absorbs pv req)
  have hC : req.ownership.coverageClaims \ (retain pv req).ownership.coverageClaims = ∅ := by
    refine ext_mem fun x => ?_
    rw [← congrArg EntryOwnership.coverageClaims ho, EntryOwnership.extend]
    simpa [mem_diff_iff, mem_union_iff] using fun h _ => h
  have hw : req.ownership.ownerDemands \ (retain pv req).ownership.ownerDemands = ∅ := by
    refine ext_mem fun x => ?_
    rw [← congrArg EntryOwnership.ownerDemands ho, EntryOwnership.extend]
    simpa [mem_diff_iff, mem_union_iff] using fun h _ => h
  rw [updateOf, running_again hNodup pv hQ]
  simp [hC, hw]

theorem bySub_map (pv l : List WireReq) : bySub (l.map (retain pv)) = bySub l := by
  rw [bySub, List.foldl_map, bySub]
  congr 1
  funext table req
  have hS := retain_sent ("", none) pv req
  rw [show (retain pv req).subId = req.subId from congrArg Sent.subId hS,
    show (retain pv req).filter = req.filter from congrArg Sent.filter hS]

theorem sessionOps_self : sessionOps (l.map (retain pv)) l = [] := by
  rw [sessionOps, bySub_map]
  simp only [List.append_eq_nil_iff, List.map_eq_nil_iff, filter_eq_nil_iff]
  refine ⟨fun id hI => ?_, fun en hE => ?_⟩
  · simpa using hI
  · simpa using mem_toList.mp hE

end

theorem at_compile (r : Router) (bg : SessionBag) (budget : CompileBudget) (k : RelaySessionKey) :
    (r.compile rules bg budget).1.plan.at k =
      ((compileDemand rules r.plan budget r.nextToken bg).plan.at k).map (retain (r.plan.at k)) := by
  unfold Router.compile RelayPlan.at
  simp only [getElem?_map]
  cases (compileDemand rules r.plan budget r.nextToken bg).plan.reqs[k]? <;> rfl

theorem sent_compile (r : Router) (bg : SessionBag) (budget : CompileBudget) (k : RelaySessionKey) :
    ((r.compile rules bg budget).1.plan.at k).map (WireReq.sent k) =
      ((compileDemand rules r.plan budget r.nextToken bg).plan.at k).map (WireReq.sent k) := by
  rw [at_compile, map_map]
  exact List.map_congr_left fun req _ => retain_sent k _ req

/-- Compiling the same demand a second time, within the same budget, tells the relays nothing, replaces nothing, reports
no new owners and leaves the plan as it is. -/
theorem compile_again {rules : List MergeRule} {r : Router} (hW : Wired r.plan.reqs r.nextToken) (bag : SessionBag)
    (budget : CompileBudget) :
    (((r.compile rules bag budget).1.compile rules bag budget).2.wire = [] ∧
      ((r.compile rules bag budget).1.compile rules bag budget).2.replacements = [] ∧
      ((r.compile rules bag budget).1.compile rules bag budget).2.updates = []) ∧
      ((r.compile rules bag budget).1.compile rules bag budget).1.plan = (r.compile rules bag budget).1.plan := by
  have hT : Turns r (r.compile rules bag budget).1 := Router.compile_turns hW bag budget
  have hA := at_compile rules r bag budget
  have hSent := sent_compile rules r bag budget
  obtain ⟨-, -, hNext⟩ := compileDemand_wired rules hW budget bag
  have hP : (r.compile rules bag budget).1.plan = { (compileDemand rules r.plan budget r.nextToken bag).plan with
      reqs := (compileDemand rules r.plan budget r.nextToken bag).plan.reqs.map fun sss requests =>
        requests.map (retain (r.plan.at sss)) } := rfl
  generalize (r.compile rules bag budget).1 = again at hT hA hP hSent ⊢
  obtain ⟨hs, hn, -⟩ := compileDemand_again rules budget bag hW hT.wired hSent
  unfold Router.compile
  simp only
  rw [hs, hn]
  have hN := fun sss => hNext.names sss
  generalize (compileDemand rules r.plan budget r.nextToken bag).plan = plan at hA hP hN
  refine ⟨⟨?_, rfl, ?_⟩, ?_⟩
  · unfold diffPlans
    simp only [hA]
    refine filter_eq_nil_iff.mpr fun ent hE => ?_
    obtain ⟨sss, -, rfl⟩ := mem_map.mp hE
    simp [sessionOps_self]
  · refine List.flatMap_eq_nil_iff.mpr fun prt hp => List.filterMap_eq_nil_iff.mpr fun req hR => ?_
    have hH : plan.at prt.1 = prt.2 := by
      rw [RelayPlan.at, show plan.reqs[prt.1]? = some prt.2 from mem_toList.mp hp]
      rfl
    rw [hA, hH]
    exact updateOf_again (hH ▸ hN prt.1) prt.1 _ hR
  rw [hP]
  congr 1
  refine Table.ext fun sss => ?_
  simp only [getElem?_map]
  cases hS : plan.reqs[sss]? with
  | none => rfl
  | some requests =>
    have hH : plan.at sss = requests := by
      rw [RelayPlan.at, hS]
      rfl
    refine congrArg some (List.map_congr_left fun req hR => ?_)
    rw [← hP, hA, hH]
    exact retain_again (hH ▸ hN sss) _ hR

end

end NmpStore.Routing

import Mathlib.Combinatorics.Pigeonhole
import Mathlib.Data.Nat.Log
import NmpStore.Canonical.Tables
import NmpStore.Postings.Publish

/-! # Flushing batches

`Flushed p live last` says what a catalog looks like that has taken in batches of additions with fresh keys and deaths
of live keys: its live postings are the memberships of the live events, and its runs are ordered, sound and few.
-/

namespace NmpStore.Postings

variable [ShardHash]

def PostingsBatch.apply (batch : PostingsBatch) (live : PendingEvents) : PendingEvents :=
  live.filter (fun key _ => key ∉ batch.deaths) ∪ batch.additions

def PostingsBatch.highWater (batch : PostingsBatch) (last : Nat) : Nat := batch.additions.keys.getLast?.getD last

def UniqueIds (live : PendingEvents) : Prop :=
  ∀ (key key' : EventKey) (pending pending' : PendingEvent), live[key]? = some pending → live[key']? = some pending' →
    pending.event.id = pending'.event.id → key = key'

/-- A batch as the store makes them: keys not used before, deaths of live keys, one key to an id. -/
structure PostingsBatch.Legal (live : PendingEvents) (last : Nat) (batch : PostingsBatch) : Prop where
  fresh : ∀ (key : EventKey) pending, batch.additions[key]? = some pending → last < key ∧ key ≤ u64Max
  times : ∀ (key : EventKey) pending, batch.additions[key]? = some pending →
    pending.event.createdAt ≤ u64Max
  alive : ∀ key ∈ batch.deaths, (live[key]?).isSome
  ids : UniqueIds (batch.apply live)

structure Flushed (p : Packed) (live : PendingEvents) (last : Nat) : Prop where
  catalogOk : CatalogOk p
  settled : Settled p
  refines : ∀ family pfx event, p.PostsLive family pfx event ↔ Pends live family pfx event
  keyed : Keyed live
  ids : UniqueIds live
  times : ∀ (key : EventKey) pending, live[key]? = some pending → pending.event.createdAt ≤ u64Max
  below : Below p last
  weight_le : p.weight ≤ last
  last_le : last ≤ u64Max

section Live

omit [ShardHash]

theorem get_apply (batch : PostingsBatch) (live : PendingEvents) (key : EventKey) :
    (batch.apply live)[key]? = (batch.additions[key]?).or (if key ∈ batch.deaths then none else live[key]?) := by
  unfold PostingsBatch.apply
  rw [Std.ExtTreeMap.getElem?_union, get_filter]
  congr 1
  by_cases hD : key ∈ batch.deaths
  · cases live[key]? <;> simp [hD]
  · cases live[key]? <;> simp [hD]

variable {batch : PostingsBatch} {last : Nat}

theorem le_highWater (hA : batch.additions[key]? = some pend) : key ≤ batch.highWater last := by
  have hR := (keys_range hA).2
  unfold PostingsBatch.highWater
  cases hL : batch.additions.keys.getLast? with
  | some hg => simpa [hL] using hR
  | none =>
    have hZ := List.getLast?_eq_none_iff.mp hL
    rw [keys_eq_nil_iff.mp hZ] at hA
    simp at hA

theorem highWater_cases (batch : PostingsBatch) (last : Nat) : (batch.additions = ∅ ∧ batch.highWater last = last) ∨
      ∃ pending, batch.additions[batch.highWater last]? = some pending := by
  by_cases hE : batch.additions = ∅
  · refine .inl ⟨hE, ?_⟩
    have hZ := keys_eq_nil_iff.mpr hE
    simp [PostingsBatch.highWater, hZ]
  obtain ⟨-, pending, hA⟩ := exists_of_keys hE
  have hK : batch.additions.keys ≠ [] := fun h => hE (keys_eq_nil_iff.mp h)
  refine .inr ⟨pending, ?_⟩
  rw [← hA, PostingsBatch.highWater, List.getLast?_eq_some_getLast hK]
  rfl

theorem pends_apply
    (hL : batch.Legal live last) (hl : ∀ (key : EventKey) pn, live[key]? = some pn → key ≤ last)
    : Pends (batch.apply live) f p ev ↔
      (Pends live f p ev ∧ ev.eventKey ∉ batch.deaths) ∨ Pends batch.additions f p ev := by
  simp only [Pends, get_apply]
  cases hA : batch.additions[ev.eventKey]? with
  | some ad =>
    have hF := (hL.fresh _ _ hA).1
    have hN : live[ev.eventKey]? = none := eq_none_iff_forall_ne_some.mpr fun pn ha =>
      Nat.not_le.mpr hF (hl _ pn ha)
    simp [hN]
  | none =>
    by_cases hD : ev.eventKey ∈ batch.deaths <;> simp [hD]

end Live

section Holds

variable {p p' q : Packed} {live : PendingEvents} {last : Nat} {batch : PostingsBatch} {key : EventKey}

theorem Flushed.exists_run (h : Flushed p live last)
    (hA : live[key]? = some pend) : ∃ r run, p.run? r = some run ∧ run.PostsLive .global [] pend.event ∧
      pend.event.eventKey = key := by
  obtain ⟨r, run, hR, hP⟩ := (h.refines _ _ _).mpr (Pends.global h.keyed hA)
  exact ⟨r, run, hR, hP, h.keyed key pend hA⟩

theorem Flushed.key_le (h : Flushed p live last) (key : EventKey) (pn : PendingEvent)
    (hA : live[key]? = some pn) : key ≤ last := by
  obtain ⟨r, run, hR, hP, rfl⟩ := h.exists_run hA
  exact ((h.catalogOk.runOk hR).within _ (mem_dictionary_of_posts hP.1)).2.trans (h.below r run hR)

theorem Flushed.liveKey (h : Flushed p live last) (hL : (live[key]?).isSome) : LiveKey p key := by
  obtain ⟨pn, hA⟩ := isSome_iff_exists.mp hL
  obtain ⟨r, run, hR, hP, rfl⟩ := h.exists_run hA
  exact ⟨r, run, hR, mem_map.mpr ⟨_, mem_dictionary_of_posts hP.1, rfl⟩, hP.2⟩

variable {live : PendingEvents}

theorem liveIds_of_refines (hI : UniqueIds live)
    (hR : ∀ f pf ev, p.PostsLive f pf ev → Pends live f pf ev) : LiveIds p := by
  intro ev ev' hP hP' hE
  obtain ⟨pn, hAt, rfl, -⟩ := hR _ _ _ hP
  obtain ⟨pn', hAt', rfl, -⟩ := hR _ _ _ hP'
  exact hI _ _ _ _ hAt hAt' hE

/-- The live events fit into one run: each of its segments, one to a family and a shard, holds their memberships. -/
def Fits (live : PendingEvents) : Prop :=
  ∀ m ∈ membershipsForPending live, runBytes (ofSegment (segmentOf m) (membershipsForPending live)) ≤ u32Max

instance (live : PendingEvents) : Decidable (Fits live) := inferInstanceAs (Decidable (∀ m ∈ _, _ ≤ _))

theorem room_of_fits (hK : Keyed live) (hF : Fits live)
    (hR : ∀ f pf ev, p.PostsLive f pf ev → Pends live f pf ev) : Room p := by
  intro segment ms hN hM
  have hPending : ∀ m ∈ ms, m ∈ membershipsForPending live := fun m hm =>
    (mem_membershipsForPending hK).mpr ⟨(hM m hm).2.1, hR _ _ _ (hM m hm).2.2⟩
  have hB : ms.Subperm (ofSegment segment (membershipsForPending live)) := subperm_of_subset hN fun m hm =>
    mem_filter.mpr ⟨hPending m hm, decide_eq_true (hM m hm).1⟩
  cases ms with
  | nil => simp [runBytes, segmentHeaderLen, u32Max]
  | cons first rest =>
    refine (runBytes_mono hB).trans ?_
    rw [← (hM first (.head _)).1]
    exact hF first (hPending first (.head _))

theorem Flushed.deaths_ok (h : Flushed p live last) (hL : batch.Legal live last)
    (ho : (if batch.deaths.isEmpty then pure p else applyDeaths p batch.deaths.toList) = .ok p') :
    Died p batch.deaths.toList p' := by
  have hI := liveIds_of_refines h.ids fun f pf ev => (h.refines f pf ev).mp
  split at ho
  · rename_i hE
    cases ho
    have hZ : batch.deaths.toList = [] := by simpa using hE
    rw [hZ]
    exact ⟨h.catalogOk, by simp, fun _ h => h, .refl _, Nat.le_add_right _ _⟩
  · refine applyDeaths_ok h.catalogOk hI ?_ (fun key hK => ?_) ho
    · exact (ordered_toList (t := batch.deaths)).imp fun hl he => by simp [he] at hl
    · exact h.liveKey (hL.alive key (by simpa using hK))

theorem Flushed.after_deaths (h : Flushed p live last) (hL : batch.Legal live last)
    (hD : Died p batch.deaths.toList p') (f : Family) (pf : Bytes) (ev : RunEvent) :
    p'.PostsLive f pf ev ∨ Pends batch.additions f pf ev ↔ Pends (batch.apply live) f pf ev := by
  rw [pends_apply hL h.key_le, hD.posts_iff, h.refines, Std.ExtTreeSet.mem_toList]

section
omit [ShardHash]

theorem keyed_apply (hK : Keyed live) : Keyed (batch.apply live) := by
  intro key pn hA
  rw [get_apply, Option.or_eq_some_iff] at hA
  rcases hA with ha | ⟨-, hO⟩
  · exact batch.keyed key pn ha
  split at hO
  · cases hO
  · exact hK key pn hO

theorem times_apply (hL : batch.Legal live last)
    (hT : ∀ (key : EventKey) pend, live[key]? = some pend → pend.event.createdAt ≤ u64Max)
    (key : EventKey) (pend : PendingEvent) (hA : (batch.apply live)[key]? = some pend) :
    pend.event.createdAt ≤ u64Max := by
  rw [get_apply, Option.or_eq_some_iff] at hA
  rcases hA with ha | ⟨-, hO⟩
  · exact hL.times key pend ha
  split at hO
  · cases hO
  · exact hT key pend hO

end

variable {p : Packed}

omit [ShardHash] in
theorem weight_le_of_subperm (h : p.levels.Subperm levels) : p.weight ≤ (levels.map weight).sum := by
  obtain ⟨l, hp, hP⟩ := h
  rw [Packed.weight, ← (hp.map _).sum_nat]
  exact (hP.map _).sum_le_sum fun _ _ => Nat.zero_le _

variable {p' : Packed}

section
omit [ShardHash]

theorem settling_of_subperm (h : Settled p) (hL : p'.levels.Subperm (0 :: p.levels)) : Settling p' 0 := by
  refine ⟨fun l hl => ?_, ?_⟩
  · have hC := hL.count_le l
    rw [List.count_cons_of_ne hl.symm] at hC
    exact hC.trans_lt (h l)
  · have hC := hL.count_le 0
    rw [List.count_cons_self] at hC
    exact hC.trans (h 0)

theorem settled_of_subperm (h : Settled p) (hL : p'.levels.Subperm p.levels) : Settled p' :=
  fun l => (hL.count_le l).trans_lt (h l)

end

theorem Flushed.additions (h : Flushed p live last) (hL : batch.Legal live last) (hD : Died p batch.deaths.toList p')
    (hN : batch.additions ≠ ∅) : Additions p' batch.additions last where
  keyed := batch.keyed
  nonempty := hN
  below := hD.below last h.below
  fresh key pend hA := (hL.fresh key pend hA).1

theorem Flushed.of_published (h : Flushed p live last) (hL : batch.Legal live last)
    (hD : Died p batch.deaths.toList q) (hN : batch.additions ≠ ∅) (hP : Published q batch.additions r)
    (hQ : Quiet r p') (hT : Settled p') : Flushed p' (batch.apply live) (batch.highWater last) := by
  obtain ⟨hg, hH⟩ := (highWater_cases batch last).resolve_left fun hZ => hN hZ.1
  have hF := hL.fresh _ _ hH
  have hK : ∀ (key : EventKey) pn, batch.additions[key]? = some pn → key ≤ batch.highWater last :=
    fun key pn hA => le_highWater hA
  have hl : Below q (batch.highWater last) := fun rd rn hR =>
    (hD.below last h.below rd rn hR).trans hF.1.le
  refine ⟨hQ.catalogOk, hT, fun f pf ev => ?_, keyed_apply h.keyed, hL.ids,
    times_apply hL h.times, hQ.below _ (hP.below _ hl hK), ?_, hF.2⟩
  · rw [hQ.posts_iff, hP.posts_iff, h.after_deaths hL hD]
  have hf := weight_le_of_subperm hP.levels
  have hS := weight_le_of_subperm hD.levels
  have ht := hQ.weight_le
  have ha := h.weight_le
  have hU := hF.1
  change q.weight ≤ p.weight at hS
  change r.weight ≤ 1 + q.weight at hf
  omega

theorem Flushed.of_died (h : Flushed p live last) (hL : batch.Legal live last)
    (hD : Died p batch.deaths.toList p') (hZ : batch.additions = ∅) :
    Flushed p' (batch.apply live) (batch.highWater last) := by
  have hH : batch.highWater last = last :=
    (highWater_cases batch last).elim And.right fun ⟨pn, hA⟩ => by simp [hZ] at hA
  rw [hH]
  refine ⟨hD.catalogOk, settled_of_subperm h.settled hD.levels, fun f pf ev => ?_, keyed_apply h.keyed,
    hL.ids, times_apply hL h.times, hD.below last h.below, ?_, h.last_le⟩
  · rw [← h.after_deaths hL hD]
    simp [Pends, hZ]
  · exact (weight_le_of_subperm hD.levels).trans h.weight_le

omit [ShardHash] in
theorem levels_length (p : Packed) : p.levels.length = p.runMeta.size := by
  rw [← length_toList]
  simp [Packed.levels, Packed.metas]

theorem publishPending_ok (hq : CatalogOk q) (ha : Additions q evs last)
    (hU : ∀ r, Published q evs r → LiveIds r) (hT : Settled q)
    (ho : publishPending q evs = .ok p') : ∃ r, Published q evs r ∧ Quiet r p' ∧ Settled p' := by
  simp only [publishPending, bind_ok, packed, mapError_ok,
    allocateRunId_ok hq.metas hq.indexed] at ho
  obtain ⟨_, ⟨-, rfl⟩, encoded, hE, r, hI, hL⟩ := ho
  have hP := insertRun_ok hq ha (encodeRun_ok hE) ((insertRun_eq q evs encoded).symm.trans hI)
  have hS := levels_length r
  obtain ⟨hQ, hD⟩ := compactLevels_ok hP.catalogOk (hU r hP)
    (.inl (settling_of_subperm hT hP.levels)) (by omega) (by unfold maxLevel; omega) hL
  exact ⟨r, hP, hQ, hD⟩

omit live last in
theorem flush_eq_ok_iff : flush p batch = .ok p' ↔
    ∃ q, (if batch.deaths.isEmpty then pure p else applyDeaths p batch.deaths.toList) = .ok q ∧
      (if batch.additions.isEmpty then pure q else publishPending q batch.additions) = .ok p' := by
  unfold flush
  cases batch.deaths.isEmpty <;> simp [bind_ok]

theorem flush_ok (h : Flushed p live last) (hL : batch.Legal live last) (ho : flush p batch = .ok p') :
    Flushed p' (batch.apply live) (batch.highWater last) := by
  obtain ⟨q, hd, ho⟩ := flush_eq_ok_iff.mp ho
  have hD := h.deaths_ok hL hd
  split at ho
  · rename_i hZ
    cases ho
    exact h.of_died hL hD (Std.ExtTreeMap.isEmpty_iff.mp hZ)
  rename_i hS
  have hN : batch.additions ≠ ∅ := fun hE => hS (Std.ExtTreeMap.isEmpty_iff.mpr hE)
  obtain ⟨r, hp, hQ, hT⟩ := publishPending_ok hD.catalogOk (h.additions hL hD hN)
    (fun r hp => liveIds_of_refines hL.ids fun f pf ev hP =>
      (h.after_deaths hL hD f pf ev).mp ((hp.posts_iff f pf ev).mp hP))
    (settled_of_subperm h.settled hD.levels) ho
  exact h.of_published hL hD hN hp hQ hT

theorem consistent_membershipsForPending (hK : Keyed evs)
    (hI : UniqueIds evs) : Consistent (membershipsForPending evs) := by
  have hW : ∀ m ∈ membershipsForPending evs, ∃ pending, evs[m.event.eventKey]? = some pending ∧
      pending.event = m.event := fun m hm => by
    obtain ⟨-, pending, hAt, hEv, -⟩ := (mem_membershipsForPending hK).mp hm
    exact ⟨pending, hAt, hEv⟩
  refine ⟨fun m hm => ((mem_membershipsForPending hK).mp hm).1, fun m hm m' hm' hE => ?_, fun m hm m' hm' hE => ?_⟩
  · obtain ⟨pending, hAt, hEv⟩ := hW m hm
    obtain ⟨pending', hAt', hEv'⟩ := hW m' hm'
    rw [← hE, hAt] at hAt'
    rw [← hEv, ← hEv', Option.some.inj hAt']
  · obtain ⟨pending, hAt, hEv⟩ := hW m hm
    obtain ⟨pending', hAt', hEv'⟩ := hW m' hm'
    exact hI _ _ _ _ hAt hAt' (by rw [hEv, hEv', hE])

theorem membershipsForPending_subperm
    (hB : ∀ (key : EventKey) pend, evs[key]? = some pend → live[key]? = some pend) :
    (membershipsForPending evs).Subperm (membershipsForPending live) := by
  have hR : evs.toList.Subperm live.toList := subperm_of_subset (Table.toList_nodup evs)
    fun r hW => mem_toList.mpr (hB r.1 r.2 (mem_toList.mp hW))
  obtain ⟨l, hp, hP⟩ := hR
  have hS : (l.flatMap fun r => (pendingMemberships r.2).map fun pa =>
      (⟨pa.1, shardFor pa.1 pa.2, pa.2, r.2.event⟩ : Membership)).Perm (membershipsForPending evs) :=
    hp.flatMap_right _
  have hL : (l.flatMap fun r => (pendingMemberships r.2).map fun pa =>
      (⟨pa.1, shardFor pa.1 pa.2, pa.2, r.2.event⟩ : Membership)).Sublist (membershipsForPending live) := by
    exact (hP.map _).flatten
  exact ⟨_, hS, hL⟩

theorem Fits.mono (h : Fits live)
    (hB : ∀ (key : EventKey) pend, evs[key]? = some pend → live[key]? = some pend) : Fits evs := by
  have hSub := membershipsForPending_subperm hB
  exact fun m hm => (runBytes_mono (ofSegment_subperm hSub _)).trans (h m (hSub.subset hm))

theorem Fits.fit (h : Fits evs) (hK : Keyed evs) : Fit (membershipsForPending evs) where
  segments := h
  events m hm := by
    obtain ⟨-, pending, hAt, hEvent, -⟩ := (mem_membershipsForPending hK).mp hm
    refine ⟨⟨.global, shardFor .global [], [], pending.event⟩, mem_filter.mpr ⟨?_, ?_⟩, by rw [hEvent]⟩
    · exact (mem_membershipsForPending hK).mpr ⟨rfl, Pends.global hK hAt⟩
    · simp [segmentOf, shardFor]

theorem publishPending_progress (hq : CatalogOk q)
    (ha : Additions q evs last) (hi : UniqueIds evs) (hR : Fits evs)
    (hU : ∀ r, Published q evs r → LiveIds r ∧ Room r) (hW : 1 + q.weight ≤ u64Max)
    (hS : q.nextId + q.levels.length + 2 ≤ u64Max) : ∃ p', publishPending q evs = .ok p' := by
  have hN : membershipsForPending evs ≠ [] := fun hZ => by
    obtain ⟨⟨fr, hF⟩, -⟩ := exists_of_keys ha.nonempty
    have hM : (⟨.global, shardFor .global [], [], fr.event⟩ : Membership) ∈ membershipsForPending evs :=
      (mem_membershipsForPending ha.keyed).mpr ⟨rfl, Pends.global ha.keyed hF⟩
    rw [hZ] at hM
    cases hM
  obtain ⟨encoded, hE⟩ := encodeRun_progress (consistent_membershipsForPending ha.keyed hi) hN (hR.fit ha.keyed)
  have hm := (ha.runOk hq (encodeRun_ok hE)).metaOk
  have hI := (insertRunCatalog_ok (p := withRun q encoded)).mpr ⟨hm, rfl⟩
  have hP := insertRun_ok hq ha (encodeRun_ok hE) hI
  have hn := hP.next_eq
  have hL := hP.levels.length_le
  have hl := weight_le_of_subperm hP.levels
  obtain ⟨p', hD⟩ := compactLevels_progress (_ + maxLevel + 2) 0 hP.catalogOk (hU _ hP).1 (hU _ hP).2
    (hl.trans hW) (by rw [length_cons] at hL; omega)
  refine ⟨p', ?_⟩
  simp only [publishPending, bind_ok, packed, mapError_ok,
    allocateRunId_ok hq.metas hq.indexed]
  exact ⟨_, ⟨by omega, rfl⟩, encoded, hE, _, (insertRun_eq q evs encoded).trans hI, hD⟩

theorem flush_progress (h : Flushed p live last) (hL : batch.Legal live last) (hF : Fits live)
    (hF' : Fits (batch.apply live)) (h1 : p.nextId + 2 * p.levels.length + 2 ≤ u64Max) :
    ∃ p', flush p batch = .ok p' := by
  have hI : LiveIds p := liveIds_of_refines h.ids fun f pf ev => (h.refines f pf ev).mp
  have hm : Room p := room_of_fits h.keyed hF fun f pf ev => (h.refines f pf ev).mp
  have hd : ∃ q, (if batch.deaths.isEmpty then pure p else applyDeaths p batch.deaths.toList) = .ok q := by
    split
    · exact ⟨p, rfl⟩
    refine applyDeaths_progress h.catalogOk hI hm (by omega) ?_ fun key hK => ?_
    · exact (ordered_toList (t := batch.deaths)).imp fun hl hE => by simp [hE] at hl
    · exact h.liveKey (hL.alive key (by simpa using hK))
  obtain ⟨q, hd⟩ := hd
  have hD := h.deaths_ok hL hd
  have hR : ∃ p', (if batch.additions.isEmpty then pure q else publishPending q batch.additions) = .ok p' := by
    split
    · exact ⟨q, rfl⟩
    rename_i hS
    have hN : batch.additions ≠ ∅ := fun hE => hS (Std.ExtTreeMap.isEmpty_iff.mpr hE)
    have ha : ∀ (key : EventKey) pn, batch.additions[key]? = some pn →
        (batch.apply live)[key]? = some pn := fun key pn hA => by rw [get_apply, hA]; rfl
    have hP := weight_le_of_subperm hD.levels
    have hf := hD.levels.length_le
    have hn := hD.next_le
    obtain ⟨hg, hH⟩ := (highWater_cases batch last).resolve_left fun hZ => hN hZ.1
    have hb : last < batch.highWater last := (hL.fresh _ _ hH).1
    have hM : batch.highWater last ≤ u64Max := (hL.fresh _ _ hH).2
    have hW := h.weight_le
    refine publishPending_progress hD.catalogOk (h.additions hL hD hN) ?_
      (hF'.mono ha) (fun r hp => ?_) ?_ (by omega)
    · exact fun key key' pn pn' hA hA' => hL.ids _ _ _ _ (ha _ _ hA) (ha _ _ hA')
    · have hr : ∀ f pf ev, r.PostsLive f pf ev → Pends (batch.apply live) f pf ev :=
        fun f pf ev hs =>
          (h.after_deaths hL hD f pf ev).mp ((hp.posts_iff f pf ev).mp hs)
      exact ⟨liveIds_of_refines hL.ids hr, room_of_fits (keyed_apply h.keyed) hF' hr⟩
    · change q.weight ≤ p.weight at hP
      omega
  obtain ⟨p', hR⟩ := hR
  exact ⟨p', flush_eq_ok_iff.mpr ⟨q, hd, hR⟩⟩

end Holds

/-- A catalog that some history of flushes has produced, with the live events and the last key used. -/
inductive Reaches : Packed → PendingEvents → Nat → Prop
  | empty : Reaches {} ∅ 0
  | flush {p p' : Packed} {live : PendingEvents} {last : Nat} {batch : PostingsBatch} :
      Reaches p live last → batch.Legal live last → flush p batch = .ok p' →
        Reaches p' (batch.apply live) (batch.highWater last)

omit [ShardHash] in
theorem levels_empty : Packed.levels {} = [] := by simp [Packed.levels, Packed.metas]

theorem flushed_empty : Flushed {} ∅ 0 where
  catalogOk :=
    { indexed :=
        { dictionary := by simp
          byMin := by simp
          next_pos := by simp [Packed.nextId]
          ids := by simp
          segments := by simp
          deaths := by simp }
      runId_eq := by simp [Packed.run?]
      runOk := by simp [Packed.run?]
      ordered := by simp [Packed.run?] }
  settled l := by
    rw [levels_empty, count_nil, fanIn]
    split <;> simp [baseRunFanIn, largeRunFanIn]
  refines := by simp [Packed.PostsLive, Packed.run?, Pends]
  keyed := by simp [Keyed]
  ids := by simp [UniqueIds]
  times := by simp
  below := by simp [Below, Packed.run?]
  weight_le := by simp [Packed.weight, levels_empty]
  last_le := Nat.zero_le _

variable {p : Packed} {live : PendingEvents} {last : Nat}

theorem Reaches.flushed (h : Reaches p live last) : Flushed p live last := by
  induction h with
  | empty => exact flushed_empty
  | flush _ hL ho ih => exact flush_ok ih hL ho

/-- The shape of the catalog: runs with ids of their own and disjoint key ranges, the older the higher, an index
row and a dictionary for each, counters that agree with the stored deaths, and few runs and blocks. -/
structure Structured (p : Packed) : Prop where
  runId_eq : ∀ {runId : Nat} {m : RunMeta}, p.runMeta[runId]? = some m → m.runId = runId
  disjoint : ∀ {runId runId' : Nat} {m m' : RunMeta}, p.runMeta[runId]? = some m → p.runMeta[runId']? = some m' →
    runId ≠ runId' → m.maxEventKey < m'.minEventKey ∨ m'.maxEventKey < m.minEventKey
  byMin : ∀ key runId : Nat, p.byMin[key]? = some runId ↔ ∃ m, p.runMeta[runId]? = some m ∧ m.minEventKey = key
  dictionary : ∀ runId : Nat, (p.dictionary[runId]?).isSome = (p.runMeta[runId]?).isSome
  within : ∀ {runId : Nat} {run : Run}, p.run? runId = some run → ∀ entry ∈ run.dictionary,
    run.runMeta.minEventKey ≤ entry.1 ∧ entry.1 ≤ run.runMeta.maxEventKey
  dead : ∀ {runId : Nat} {run : Run}, p.run? runId = some run →
    run.deadKeys.Nodup ∧ ∀ key ∈ run.deadKeys, key ∈ run.dictionary.map Prod.fst
  live : ∀ {runId : Nat} {run : Run}, p.run? runId = some run →
    run.runMeta.liveEvents = run.dictionary.length - run.deadKeys.length ∧ 0 < run.runMeta.liveEvents
  older : ∀ {runId runId' : Nat} {m m' : RunMeta}, p.runMeta[runId]? = some m → p.runMeta[runId']? = some m' →
    m'.level < m.level → m.maxEventKey < m'.minEventKey
  base : (p.metas.filter fun m => m.level = 0).length < baseRunFanIn
  upper : ∀ level, 0 < level → (p.metas.filter fun m => m.level = level).length < largeRunFanIn
  blocks : ∀ runId : Nat, (p.deaths.toList.filter fun row => row.1.1 = runId).length ≤ maxDeathBlocks

theorem CatalogOk.blocks_le (h : CatalogOk p) (rd : Nat) :
    (p.deaths.toList.filter fun r => r.1.1 = rd).length ≤ maxDeathBlocks := by
  -- the rows of one run differ in their level, and there are eight levels
  have hN := p.deaths.toList_snd_nodup rd
  have hB : ((p.deaths.toList.filter fun r => r.1.1 = rd).map fun r => r.1.2).Subperm
      (List.range maxDeathBlocks) := subperm_of_subset hN fun l hL => by
    obtain ⟨r, hW, rfl⟩ := mem_map.mp hL
    rw [mem_filter, mem_toList] at hW
    exact List.mem_range.mpr (h.indexed.deaths hW.1).2
  simpa using hB.length_le

theorem CatalogOk.older_of_level_lt (h : CatalogOk p) {r r' : Nat} {m m' : RunMeta}
    (hA : p.runMeta[r]? = some m) (hA' : p.runMeta[r']? = some m') (hL : m'.level < m.level) :
    m.maxEventKey < m'.minEventKey := by
  have hN : r ≠ r' := fun hE => by
    subst hE
    rw [hA] at hA'
    exact lt_irrefl _ (Option.some.inj hA' ▸ hL)
  obtain hO | hO := h.metas.ordered hA hA' hN
  · exact hO.1
  · exact absurd hO.2 (Nat.not_le.mpr hL)

theorem Flushed.structured (h : Flushed p live last) :
    Structured p where
  runId_eq := h.catalogOk.metas.runId_eq
  disjoint hA hA' hN := (h.catalogOk.metas.ordered hA hA' hN).imp And.left And.left
  byMin := h.catalogOk.indexed.byMin
  dictionary := h.catalogOk.indexed.dictionary
  within hR := (h.catalogOk.runOk hR).within
  dead hR := ⟨(h.catalogOk.runOk hR).deadNodup, (h.catalogOk.runOk hR).dead_mem⟩
  live hR := by
    have hE := (h.catalogOk.runOk hR).live_eq
    exact ⟨by omega, (h.catalogOk.runOk hR).live_pos⟩
  older := h.catalogOk.older_of_level_lt
  base := by
    rw [← count_levels]
    exact h.settled 0
  upper l hL := by
    have hF := h.settled l
    rwa [count_levels, fanIn, if_neg (ne_of_gt hL)] at hF
  blocks := h.catalogOk.blocks_le

section
omit [ShardHash]

theorem length_le_of_counts {top : Nat} {levels : List Nat} (hT : ∀ l ∈ levels, l ≤ top)
    (hC : ∀ l, levels.count l < fanIn l) : levels.length ≤ 7 + 5 * top := by
  induction top generalizing levels with
  | zero =>
    have hZ : levels.count 0 = levels.length := List.count_eq_length.mpr fun l hl => (Nat.le_zero.mp (hT l hl)).symm
    exact hZ ▸ Nat.lt_succ_iff.mp (hC 0)
  | succ top ih =>
    have hL := levels.length_eq_length_filter_add (· == top + 1)
    have hS : (levels.filter (! · == top + 1)).length ≤ 7 + 5 * top := by
      refine ih (fun l hl => ?_) fun l => (List.filter_sublist.count_le l).trans_lt (hC l)
      obtain ⟨hl, hn⟩ := mem_filter.mp hl
      exact Nat.le_of_lt_succ ((hT l hl).lt_of_ne (by simpa using hn))
    have hU : levels.count (top + 1) < 6 := hC (top + 1)
    rw [List.count, List.countP_eq_length_filter] at hU
    omega

theorem six_pow_le_weight (l : Nat) : 6 ^ l ≤ weight l := by
  induction l with
  | zero => exact le_rfl
  | succ l ih =>
    rw [Nat.pow_succ, Nat.mul_comm]
    refine Nat.mul_le_mul ?_ ih
    unfold fanIn baseRunFanIn largeRunFanIn
    split <;> omega

end

/-- A scan opens few runs: their number grows with the logarithm of the keys given out. -/
theorem runs_le_log {p : Packed} {live : PendingEvents} {last : Nat} (h : Reaches p live last) :
    p.runMeta.size ≤ 7 + 5 * Nat.log 6 last := by
  rw [← levels_length]
  refine length_le_of_counts (fun l hl => ?_) h.flushed.settled
  have hW : weight l ≤ last := (List.single_le_sum (by simp) _ (mem_map_of_mem hl)).trans h.flushed.weight_le
  exact Nat.le_log_of_pow_le (by omega) ((six_pow_le_weight l).trans hW)

omit [ShardHash] in
theorem PostingsBatch.legal_of_lists {batch : PostingsBatch}
    (hFresh : ∀ row ∈ batch.additions.toList, last < row.1 ∧ row.1 ≤ u64Max ∧ row.2.event.createdAt ≤ u64Max)
    (hAlive : ∀ key ∈ batch.deaths.toList, (live[key]?).isSome)
    (hIds : ∀ row ∈ (batch.apply live).toList, ∀ row' ∈ (batch.apply live).toList,
      row.2.event.id = row'.2.event.id → row.1 = row'.1) : batch.Legal live last where
  fresh key pending hAt := by
    obtain ⟨hLow, hHigh, -⟩ := hFresh (key, pending) (mem_toList.mpr hAt)
    exact ⟨hLow, hHigh⟩
  times key pending hAt := (hFresh (key, pending) (mem_toList.mpr hAt)).2.2
  alive key hDead := hAlive key (Std.ExtTreeSet.mem_toList.mpr hDead)
  ids key key' pending pending' hAt hAt' :=
    hIds (key, pending) (mem_toList.mpr hAt) (key', pending') (mem_toList.mpr hAt')

def taggedNote (id : EventId) : Event := { id, pubkey := 7, createdAt := 10, kind := 1, tags := { single := [(112, [1])] }, sig := 0 }

/-- Two notes are flushed together; then the first dies while a third comes. -/
def firstNotes : PostingsBatch := (PostingsBatch.insert {} (prepare (taggedNote 1) 1)).insert (prepare (taggedNote 2) 2)

def laterNotes : PostingsBatch := (PostingsBatch.insert {} (prepare (taggedNote 3) 3)).remove 1

@[reducible]
def oneShard : ShardHash := ⟨fun _ _ => 0⟩

section
omit [ShardHash]

theorem firstNotes_legal : firstNotes.Legal ∅ 0 :=
  PostingsBatch.legal_of_lists (by decide +kernel) (by decide +kernel) (by decide +kernel)

theorem laterNotes_legal : laterNotes.Legal (firstNotes.apply ∅) 2 :=
  PostingsBatch.legal_of_lists (by decide +kernel) (by decide +kernel) (by decide +kernel)

theorem reaches_firstNotes : ∃ p, @Reaches oneShard p (firstNotes.apply ∅) 2 ∧ p.nextId + 2 * p.runMeta.size + 2 ≤ u64Max := by
  let _ := oneShard
  have hFlush : ((flush {} firstNotes).toOption.any fun p => decide (p.nextId + 2 * p.runMeta.size + 2 ≤ u64Max)) = true := by
    decide +kernel
  obtain ⟨p, hOk, hIds⟩ := (Option.any_eq_true _ _).mp hFlush
  exact ⟨p, .flush .empty firstNotes_legal (toOption_some.mp hOk), of_decide_eq_true hIds⟩

theorem reaches_laterNotes : ∃ p, @Reaches oneShard p (laterNotes.apply (firstNotes.apply ∅)) 3 := by
  let _ := oneShard
  obtain ⟨p, hReaches, hIds⟩ := reaches_firstNotes
  rw [← levels_length] at hIds
  obtain ⟨p', hOk⟩ := flush_progress hReaches.flushed laterNotes_legal (by decide +kernel) (by decide +kernel) hIds
  exact ⟨p', hReaches.flush laterNotes_legal hOk⟩

theorem runs_le_log_two_flushes :
    ∃ p, @Reaches oneShard p (laterNotes.apply (firstNotes.apply ∅)) 3 ∧ p.runMeta.size ≤ 7 := by
  let _ := oneShard
  obtain ⟨p, hReaches⟩ := reaches_laterNotes
  exact ⟨p, hReaches, runs_le_log hReaches⟩

section LongTags

variable (rest : Nat)

/-- Values of one length that differ in their first byte. -/
def longValue (i : Nat) : Bytes := UInt8.ofNat i :: List.replicate rest 0

theorem longValue_length (i : Nat) : (longValue rest i).length = rest + 1 := by
  rw [longValue, length_cons, List.length_replicate]

/-- As many long tags as make three of them share a shard. -/
def longTagged (hRest : rest + 1 ≤ u32Max) : Event where
  id := 1
  pubkey := 7
  createdAt := 10
  kind := 1
  tags :=
    { single := (List.range 129).map fun i => (116, longValue rest i)
      single_le := by
        intro tag hTag
        obtain ⟨i, -, rfl⟩ := mem_map.mp hTag
        rwa [longValue_length] }
  sig := 0

def longPrefix (i : Nat) : Bytes := 116 :: 0 :: (beBytes 4 (rest + 1) ++ longValue rest i)

variable {rest}

theorem longPrefix_length (i : Nat) : rest + 1 ≤ (longPrefix rest i).length := by
  simp only [longPrefix, length_cons, length_append, longValue_length]
  omega

theorem longPrefix_injective (hi : i < 129) (hj : j < 129) (hSame : longPrefix rest i = longPrefix rest j) : i = j := by
  have hValue := List.append_cancel_left (List.cons.inj (List.cons.inj hSame).2).2
  have hByte := congrArg UInt8.toNat (List.cons.inj hValue).1
  simp only [UInt8.toNat_ofNat'] at hByte
  omega

theorem mem_prepare_longTagged (hRest : rest + 1 ≤ u32Max) (hLong : 64 ≤ rest) (pfx : Bytes) :
    pfx ∈ (prepare (longTagged rest hRest) 1).tags ↔ ∃ i < 129, longPrefix rest i = pfx := by
  have hIndexed : ∀ i, tagIndexPrefix 116 (longValue rest i) = longPrefix rest i := by
    intro i
    have hHex : decodeHex32 (longValue rest i) = none := by
      rw [decodeHex32, if_pos (by rw [longValue_length]; omega)]
    simp only [tagIndexPrefix, hHex, longValue_length, longPrefix]
  simp [prepare, longTagged, Std.ExtTreeSet.mem_ofList, hIndexed]

end LongTags

theorem insert_legal (event : Event) : (PostingsBatch.insert {} (prepare event 1)).Legal ∅ 0 := by
  have hAt : ∀ (key : EventKey) pending, (PostingsBatch.insert {} (prepare event 1)).additions[key]? = some pending →
      key = 1 ∧ pending = prepare event 1 := by
    intro key pending h
    simp only [PostingsBatch.insert, get_insert] at h
    split at h
    next hKey => exact ⟨hKey.symm, (Option.some.inj h).symm⟩
    · simp at h
  refine ⟨fun key pending h => ?_, fun key pending h => ?_, fun key hDead => ?_, fun key key' pending pending' h h' _ => ?_⟩
  · simp [(hAt key pending h).1, u64Max]
  · rw [(hAt key pending h).2]
    exact event.createdAt_le
  · simp [PostingsBatch.insert] at hDead
  · simp only [get_apply, Option.or_eq_some_iff] at h h'
    simp only [Std.ExtTreeMap.getElem?_empty, ite_self, reduceCtorEq, and_false, or_false] at h h'
    rw [(hAt key pending h).1, (hAt key' pending' h').1]

/-- An event with a hundred and twenty-nine tags of two gigabytes leaves the 32-bit offsets of a segment, whatever hash
tells the shards. -/
theorem long_tags_refused (hash : ShardHash) : ∃ event : Event, (PostingsBatch.insert {} (prepare event 1)).Legal ∅ 0 ∧
    ∀ p', flush {} (PostingsBatch.insert {} (prepare event 1)) ≠ .ok p' := by
  obtain ⟨rest, hRest, hLong⟩ : ∃ rest, rest + 1 ≤ u32Max ∧ u32Max < 2 * (rest + 1) := ⟨2 ^ 31 - 1, by decide, by decide⟩
  refine ⟨longTagged rest hRest, insert_legal _, fun p' hOk => ?_⟩
  have hTags := mem_prepare_longTagged hRest (by unfold u32Max at hLong; omega)
  set pending := prepare (longTagged rest hRest) 1 with hPending
  set batch := PostingsBatch.insert {} pending with hBatch
  obtain ⟨q, -, hPublish⟩ := flush_eq_ok_iff.mp hOk
  have hSome : ¬ batch.additions.isEmpty := by simp [hBatch, PostingsBatch.insert]
  simp only [if_neg hSome, publishPending, bind_ok, packed, mapError_ok] at hPublish
  obtain ⟨-, -, encoded, hEncoded, -⟩ := hPublish
  have hMember : ∀ family pfx, (family, pfx) ∈ pendingMemberships pending ↔
      (⟨family, shardFor family pfx, pfx, pending.event⟩ : Membership) ∈ membershipsForPending batch.additions := by
    intro family pfx
    simp [membershipsForPending, hBatch, PostingsBatch.insert]
  -- three of the tags are in one shard
  obtain ⟨shard, -, hMany⟩ := Finset.exists_lt_card_fiber_of_mul_lt_card_of_maps_to
    (f := fun i => ShardHash.hash .tag (longPrefix rest i)) (s := Finset.range 129) (t := Finset.univ) (n := 2)
    (fun _ _ => Finset.mem_univ _) (by simp)
  set sharing := (Finset.range 129).filter fun i => ShardHash.hash .tag (longPrefix rest i) = shard
  have hSharing : ∀ i ∈ sharing.toList, i < 129 ∧ ShardHash.hash .tag (longPrefix rest i) = shard := by
    simp [sharing]
  have hRefused := encodeRun_prefixes_le (Family.tag.toU8, shard) (rest + 1) (sharing.toList.map (longPrefix rest))
    hEncoded ?_ (fun pfx hPfx => ?_) fun m hm hSegment => ?_
  · rw [length_map, Finset.length_toList] at hRefused
    have hTwice := Nat.mul_le_mul_right (rest + 1) (Nat.le_sub_one_of_lt hMany)
    omega
  · exact (Finset.nodup_toList sharing).map_on fun i hi j hj hSame =>
      longPrefix_injective (hSharing i hi).1 (hSharing j hj).1 hSame
  · obtain ⟨i, hi, rfl⟩ := mem_map.mp hPfx
    obtain ⟨hLt, hShard⟩ := hSharing i hi
    have hTag := (hTags (longPrefix rest i)).mpr ⟨i, hLt, rfl⟩
    refine ⟨_, (hMember .tag (longPrefix rest i)).mp ?_, ?_, rfl⟩
    · simpa only [pendingMemberships, mem_append, mem_map] using .inr ⟨_, hTag, rfl⟩
    · rw [segmentOf, shardFor, if_neg (by decide), hShard]
  · obtain ⟨-, found, hFound, -, hPair⟩ := (mem_membershipsForPending batch.keyed).mp hm
    obtain rfl : pending = found := by
      simp only [hBatch, PostingsBatch.insert, get_insert] at hFound
      split at hFound
      · exact Option.some.inj hFound
      · simp at hFound
    have hFamily : m.family = .tag := Family.toU8_injective (Prod.mk.inj hSegment).1
    have hTag : m.pfx ∈ pending.tags := by simpa [pendingMemberships, hFamily] using hPair
    obtain ⟨i, -, hSame⟩ := (hTags m.pfx).mp hTag
    exact hSame ▸ longPrefix_length i

end

end NmpStore.Postings

namespace NmpStore

export Postings (oneShard)

end NmpStore

import NmpStore.Postings.Levels

/-! # The deaths of a batch

Every dead key is filed under the run whose range covers it and the runs are then worked off one after another.
-/

namespace NmpStore.Postings

variable [ShardHash]

def LiveKey (p : Packed) (key : EventKey) : Prop :=
  ∃ runId run, p.run? runId = some run ∧ key ∈ run.dictionary.map Prod.fst ∧ key ∉ run.deadKeys

variable {p p' q : Packed} {run : Run} {key : EventKey}

theorem floor_byMin (hp : CatalogOk p) (hR : p.run? rid = some run)
    (hK : run.runMeta.minEventKey ≤ key ∧ key ≤ run.runMeta.maxEventKey) :
    p.byMin.floor key = some (run.runMeta.minEventKey, rid) := by
  have hA := (hp.indexed.byMin _ _).mpr ⟨_, (run?_some.mp hR).1, rfl⟩
  cases hF : p.byMin.floor key with
  | none =>
    exact absurd hK.1 (Nat.not_le.mpr (compare_lt_iff_lt.mp (Table.floor_eq_none hF hA)))
  | some r =>
    obtain ⟨lw, fd⟩ := r
    obtain ⟨hf, hl, hG⟩ := Table.floor_eq_some hF
    have hL := hG _ _ hA (Nat.isLE_compare.mpr hK.1)
    obtain ⟨m, hMeta, hM⟩ := (hp.indexed.byMin _ _).mp hf
    obtain ⟨run', hR', rfl⟩ := hp.indexed.exists_run hMeta
    have hS := hp.run_eq_of_key hR' hR lw ⟨hM.le, hM ▸ (hp.runOk hR').metaOk.min_le_max⟩
      ⟨Nat.isLE_compare.mp hL, (Nat.isLE_compare.mp hl).trans hK.2⟩
    subst hS
    cases hR'.symm.trans hR
    rw [hM]

structure Filed (p : Packed) (done : List EventKey) (byRun : Table Nat (List EventKey)) : Prop where
  sound : ∀ (runId : Nat) keys, byRun[runId]? = some keys →
    keys ≠ [] ∧ ∃ run, p.run? runId = some run ∧ LiveKeys run keys
  mem_iff : ∀ key, key ∈ done ↔ ∃ (runId : Nat) (keys : List EventKey), byRun[runId]? = some keys ∧ key ∈ keys

theorem Filed.step (hp : CatalogOk p) (h : Filed p done byRun) (hL : LiveKey p key) (hF : key ∉ done) :
    ∃ next, fileDeath p byRun key = .ok next ∧ Filed p (done ++ [key]) next := by
  obtain ⟨r, run, hR, hM, hA⟩ := hL
  have ho := hp.runOk hR
  obtain ⟨e, hE, rfl⟩ := mem_map.mp hM
  have hW := ho.within e hE
  have hD : RunMeta.decode run.runMeta = .ok run.runMeta := RunMeta.encode_ok.mpr ⟨ho.metaOk, rfl⟩
  have hB : ∀ k ∈ (byRun[r]?).getD [], k ∈ done := by
    intro k hk
    cases hAt : byRun[r]? with
    | none => simp [hAt] at hk
    | some keys => exact (h.mem_iff k).mpr ⟨r, keys, hAt, by simpa [hAt] using hk⟩
  have hO : LiveKeys run ((byRun[r]?).getD []) := by
    cases hAt : byRun[r]? with
    | none => exact ⟨by simp, by simp, by simp⟩
    | some keys =>
      obtain ⟨-, run', hR', hK⟩ := h.sound r keys hAt
      cases hR'.symm.trans hR
      exact hK
  refine ⟨byRun.insert r ((byRun[r]?).getD [] ++ [e.1]), ?_, ⟨fun id keys hAt => ?_, fun k => ?_⟩⟩
  · simp [fileDeath, floor_byMin hp hR hW, (run?_some.mp hR).1, packed, hD, Except.mapError, bind,
      Except.bind, hW.2, pure, Except.pure]
  · rcases insert_some.mp hAt with ⟨hS, rfl⟩ | ⟨-, hAt⟩
    · refine ⟨by simp, run, hS ▸ hR, ?_, fun k hk => ?_, fun k hk => ?_⟩
      · refine nodup_append.mpr ⟨hO.nodup, by simp, fun a ha b hb he => hF ?_⟩
        rw [← mem_singleton.mp hb, ← he]
        exact hB a ha
      · rcases mem_append.mp hk with hk | hk
        · exact hO.mem k hk
        · rwa [mem_singleton.mp hk]
      · rcases mem_append.mp hk with hk | hk
        · exact hO.live k hk
        · rwa [mem_singleton.mp hk]
    · exact h.sound id keys hAt
  · rw [mem_append, mem_singleton, h.mem_iff]
    constructor
    · rintro (⟨id, keys, hAt, hk⟩ | rfl)
      · by_cases hS : r = id
        · subst hS
          exact ⟨r, _, by rw [get_insert, if_pos rfl], by simp [hAt, hk]⟩
        · exact ⟨id, keys, by rw [get_insert, if_neg hS, hAt], hk⟩
      · exact ⟨r, _, by rw [get_insert, if_pos rfl], by simp⟩
    · rintro ⟨id, keys, hAt, hk⟩
      rcases insert_some.mp hAt with ⟨-, rfl⟩ | ⟨-, hAt⟩
      · rcases mem_append.mp hk with hk | hk
        · exact .inl ((h.mem_iff k).mp (hB k hk))
        · exact .inr (mem_singleton.mp hk)
      · exact .inl ⟨id, keys, hAt, hk⟩

theorem foldlM_fileDeath (hp : CatalogOk p) (hN : dths.Nodup) (hL : ∀ key ∈ dths, LiveKey p key) :
    ∃ br, dths.foldlM (fileDeath p) ∅ = .ok br ∧ Filed p dths br := by
  refine foldlM_progress (Filed p) ⟨by simp, by simp⟩ fun done key br hP h => ?_
  have hM : key ∈ dths := hP.subset (by simp)
  have hF : key ∉ done := fun hI =>
    (nodup_append.mp (hN.sublist hP.sublist)).2.2 key hI key (by simp) rfl
  exact h.step hp (hL key hM) hF

theorem Loses.postsLive_iff (hp : CatalogOk p) (hR : p.run? rid = some run) (hK : LiveKeys run keys)
    (h : Loses p rid run keys n p') :
    p'.PostsLive f pfx ev ↔ p.PostsLive f pfx ev ∧ ev.eventKey ∉ keys := by
  rw [h.replaces.postsLive_iff]
  constructor
  · rintro (⟨r, hr, hP⟩ | ⟨id, r, hk, hP⟩)
    · obtain ⟨hO, hY⟩ := (h.posts_iff r f pfx ev hr).mp hP
      exact ⟨⟨rid, run, hR, hO⟩, hY⟩
    refine ⟨⟨id, r, hk.1, hP⟩, fun hM => hk.2.1 ?_⟩
    obtain ⟨e, hE, he⟩ := mem_map.mp (hK.mem _ hM)
    rw [mem_singleton]
    refine hp.run_eq_of_key hk.1 hR ev.eventKey ?_ ?_
    · exact (hp.runOk hk.1).within _ (mem_dictionary_of_posts hP.1)
    · rw [← he]
      exact (hp.runOk hR).within e hE
  · rintro ⟨⟨id, r, hr, hP⟩, hY⟩
    by_cases hS : id = rid
    · subst hS
      cases hr.symm.trans hR
      cases hN : n with
      | none => exact absurd (h.none_iff hN f pfx ev hP) hY
      | some r' => exact .inl ⟨r', rfl, (h.posts_iff r' f pfx ev hN).mpr ⟨hP, hY⟩⟩
    · refine .inr ⟨id, r, ⟨hr, by simpa using hS, fun ad hA he => ?_⟩, hP⟩
      rcases h.id_or ad hA with hI | hI
      · exact hS (he.symm.trans hI)
      · exact absurd (he.symm.trans hI) (hp.run_lt_next hr).2.ne

structure Dying (p : Packed) (done : List (Nat × List EventKey)) (q : Packed) : Prop where
  catalogOk : CatalogOk q
  pending : ∀ runId, runId < p.nextId → runId ∉ done.map Prod.fst → q.run? runId = p.run? runId
  posts_iff : ∀ family pfx event, q.PostsLive family pfx event ↔
    p.PostsLive family pfx event ∧ ∀ row ∈ done, event.eventKey ∉ row.2
  below : ∀ last, Below p last → Below q last
  levels : q.levels.Subperm p.levels
  next_ge : p.nextId ≤ q.nextId
  next_le : q.nextId ≤ p.nextId + done.length

theorem Dying.liveIds (h : Dying p done q) (hI : LiveIds p) :
    LiveIds q := fun ev ev' hP hP' hE =>
  hI ev ev' ((h.posts_iff _ _ _).mp hP).1 ((h.posts_iff _ _ _).mp hP').1 hE

theorem Dying.room (h : Dying p done q) (hR : Room p) : Room q :=
  fun segment ms hN hM => hR segment ms hN fun m hm =>
    ⟨(hM m hm).1, (hM m hm).2.1, ((h.posts_iff _ _ _).mp (hM m hm).2.2).1⟩

theorem Dying.step (hp : CatalogOk p) (h : Dying p done q)
    (hR : p.run? rid = some run) (hK : LiveKeys run keys)
    (hT : rid ∉ done.map Prod.fst) (hS : Loses q rid run (sortedKeys keys) n q') :
    Dying p (done ++ [(rid, keys)]) q' := by
  have hO := hp.run_lt_next hR
  have hq : q.run? rid = some run := (h.pending rid hO.2 hT).trans hR
  refine ⟨hS.catalogOk, fun id hl hY => ?_, fun f pf ev => ?_, fun last hL id r hr => ?_, ?_, ?_, ?_⟩
  · rw [map_append, mem_append, not_or] at hY
    have hn : id ≠ rid := fun hE => hY.2 (by simp [hE])
    rw [hS.replaces.run_eq, ← h.pending id hl hY.1]
    cases hN : n with
    | none => simp [runsAfter, hn]
    | some r =>
      have hX : r.runMeta.runId ≠ id := by
        have hG := h.next_ge
        rcases hS.id_or r hN with hI | hI <;> omega
      simp [runsAfter, hn, hX]
  · rw [hS.postsLive_iff h.catalogOk hq hK.sorted, h.posts_iff, mem_sortedKeys]
    simp only [mem_append, mem_singleton, or_imp, forall_and, forall_eq]
    tauto
  · rw [hS.replaces.run_eq, runsAfter_some] at hr
    rcases hr with ⟨hN, -⟩ | hk
    · exact (hS.max_le r hN).trans (h.below last hL rid run hq)
    · exact h.below last hL id r hk.1
  · exact (hS.levels_subperm h.catalogOk hq).trans h.levels
  · exact h.next_ge.trans hS.replaces.next_le
  · have := hS.next_le
    have := h.next_le
    rw [length_append, List.length_singleton]
    omega

structure Died (p : Packed) (deaths : List EventKey) (p' : Packed) : Prop where
  catalogOk : CatalogOk p'
  posts_iff : ∀ family pfx event, p'.PostsLive family pfx event ↔ p.PostsLive family pfx event ∧ event.eventKey ∉ deaths
  below : ∀ last, Below p last → Below p' last
  levels : p'.levels.Subperm p.levels
  next_le : p'.nextId ≤ p.nextId + p.levels.length

theorem Filed.length_le (hp : CatalogOk p) (h : Filed p dths byRun) : byRun.toList.length ≤ p.levels.length := by
  have hB : (byRun.toList.map Prod.fst).Subperm (p.metas.map RunMeta.runId) := by
    refine subperm_of_subset ?_ fun r hI => ?_
    · exact pairwise_map.mpr (byRun.toList_pairwise.imp fun hL hE => by simp [hE] at hL)
    obtain ⟨⟨_, ky⟩, hW, rfl⟩ := mem_map.mp hI
    obtain ⟨-, run, hR, -⟩ := h.sound _ _ (mem_toList.mp hW)
    have hM := (run?_some.mp hR).1
    have hS := hp.runId_eq hR
    exact mem_map.mpr ⟨run.runMeta, (mem_metas hp.metas).mpr (hS ▸ hM), hS⟩
  simpa [Packed.levels] using hB.length_le

theorem Dying.died (hp : CatalogOk p) (hF : Filed p dths byRun) (h : Dying p byRun.toList q) : Died p dths q := by
  refine ⟨h.catalogOk, fun f pf ev => ?_, h.below, h.levels,
    h.next_le.trans (Nat.add_le_add_left (hF.length_le hp) _)⟩
  rw [h.posts_iff, hF.mem_iff]
  refine and_congr_right fun _ => ⟨?_, ?_⟩
  · rintro hN ⟨r, keys, hAt, hM⟩
    exact hN (r, keys) (mem_toList.mpr hAt) hM
  · rintro hN ⟨r, keys⟩ hW hM
    exact hN ⟨r, keys, mem_toList.mp hW, hM⟩

theorem Dying.start (hp : CatalogOk p) : Dying p [] p :=
  ⟨hp, fun _ _ _ => rfl, by simp, fun _ h => h, .refl _, le_rfl, le_rfl⟩

omit [ShardHash] in
theorem Filed.row (h : Filed p dths byRun) {r : Nat × List EventKey} (hP : done ++ [r] <+: byRun.toList) :
    r.2 ≠ [] ∧ (∃ run, p.run? r.1 = some run ∧ LiveKeys run r.2) ∧ r.1 ∉ done.map Prod.fst := by
  have hW : r ∈ byRun.toList := hP.subset (by simp)
  obtain ⟨hN, hR⟩ := h.sound r.1 r.2 (mem_toList.mp hW)
  refine ⟨hN, hR, fun hM => ?_⟩
  obtain ⟨o, hX, hE⟩ := mem_map.mp hM
  have hL := (pairwise_append.mp (byRun.toList_pairwise.sublist hP.sublist)).2.2 o hX r (by simp)
  simp [hE] at hL

theorem applyDeaths_ok (hp : CatalogOk p) (hI : LiveIds p)
    (hN : dths.Nodup) (hL : ∀ key ∈ dths, LiveKey p key) (ho : applyDeaths p dths = .ok p') :
    Died p dths p' := by
  obtain ⟨br, hf, hF⟩ := foldlM_fileDeath hp hN hL
  simp only [applyDeaths, hf, bind_ok, Except.ok.injEq, exists_eq_left'] at ho
  refine Dying.died hp hF (foldlM_induction (Dying p) (Dying.start hp) ?_ ho)
  intro done r q q' hP h hS
  obtain ⟨hn, ⟨run, hR, hK⟩, hT⟩ := hF.row hP
  have hq : q.run? r.1 = some run := (h.pending r.1 (hp.run_lt_next hR).2 hT).trans hR
  obtain ⟨n, hl⟩ := applyRunDeaths_ok h.catalogOk (h.liveIds hI) hq hK hn hS
  exact h.step hp hR hK hT hl

theorem applyDeaths_progress (hp : CatalogOk p) (hI : LiveIds p) (hr : Room p)
    (hS : p.nextId + p.levels.length ≤ u64Max) (hn : dths.Nodup)
    (hl : ∀ key ∈ dths, LiveKey p key) : ∃ p', applyDeaths p dths = .ok p' := by
  obtain ⟨br, hi, hF⟩ := foldlM_fileDeath hp hn hl
  simp only [applyDeaths, hi, bind_ok, Except.ok.injEq, exists_eq_left']
  have hf := hF.length_le hp
  obtain ⟨p', hOk, -⟩ := foldlM_progress (f := fun q (r : Nat × List EventKey) => applyRunDeaths q r.1 r.2)
    (Dying p) (l := br.toList) (Dying.start hp) (by
      intro done r q hP h
      obtain ⟨hN, ⟨run, hR, hK⟩, hT⟩ := hF.row hP
      have hq : q.run? r.1 = some run := (h.pending r.1 (hp.run_lt_next hR).2 hT).trans hR
      have hL := hP.length_le
      have hx := h.next_le
      rw [length_append, List.length_singleton] at hL
      obtain ⟨q', ht⟩ := applyRunDeaths_progress h.catalogOk (h.liveIds hI) (h.room hr) (by omega) hq hK hN
      obtain ⟨n, hs⟩ := applyRunDeaths_ok h.catalogOk (h.liveIds hI) hq hK hN ht
      exact ⟨q', ht, h.step hp hR hK hT hs⟩)
  exact ⟨p', hOk⟩

end NmpStore.Postings

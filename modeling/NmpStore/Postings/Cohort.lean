import NmpStore.Postings.Allocation

/-! # Merging a cohort of runs

A compaction copies the live entries of its runs into one dictionary, numbers them, and writes every segment anew.
-/

namespace NmpStore.Postings

variable [ShardHash]

structure CohortRun where
  runMeta : RunMeta
  dead : Option DeadKeys
  dictionary : Dictionary

def CohortRun.live (run : CohortRun) : Dictionary := run.dictionary.filter fun entry => !isDead run.dead entry.1

def CohortRun.entry (run : CohortRun) : RunMeta × Option DeadKeys := (run.runMeta, run.dead)

structure CohortRun.Stored (p : Packed) (run : CohortRun) : Prop where
  stored : p.dictionary[run.runMeta.runId]? = some run.dictionary
  keysSorted : run.dictionary.Pairwise (fun a b => a.1 < b.1)
  idsNodup : (run.dictionary.map Prod.snd).Nodup
  segmentOk : ∀ (family : Family) (shard : Nat) (segment : Segment),
    p.segments[segmentKey family shard run.runMeta.runId]? = some segment → SegmentOk run.dictionary family shard segment

structure Cohort (p : Packed) (runs : List CohortRun) : Prop where
  stored : ∀ run ∈ runs, run.Stored p
  ordered : runs.Pairwise (fun a b => ∀ entry ∈ a.dictionary, ∀ entry' ∈ b.dictionary, entry.1 < entry'.1)

def cohortEntries (runs : List CohortRun) : Dictionary := runs.flatMap CohortRun.live

section Numbering

omit [ShardHash]

/-- The ordinals the entries of a dictionary get when its live ones are numbered from `next`. -/
def numbering (dead : Option DeadKeys) : Nat → Dictionary → List (Option Nat)
  | _, [] => []
  | next, entry :: rest =>
    if isDead dead entry.1 then none :: numbering dead next rest else some next :: numbering dead (next + 1) rest

theorem copyEntries_ok
    (h : copyEntries dead dict ents ordMap = .ok res) :
    res = (ents ++ dict.filter (fun e => !isDead dead e.1),
      ordMap ++ numbering dead ents.length dict) := by
  induction dict generalizing ents ordMap with
  | nil =>
    cases h
    simp [numbering]
  | cons e rs ih =>
    obtain ⟨ev, id⟩ := e
    cases hD : isDead dead ev with
    | true =>
      simp only [copyEntries, hD, ↓reduceIte] at h
      simp [ih h, numbering, hD]
    | false =>
      simp only [copyEntries, hD, false_eq_true, ↓reduceIte] at h
      split at h
      · simp at h
      split at h
      · simp at h
      · simp [ih h, numbering, hD]

theorem copyEntries_progress (de : Option DeadKeys) (dc : Dictionary) (od : List (Option Nat))
    (hS : (ents ++ dc.filter fun e => !isDead de e.1).Pairwise (fun a b => a.1 < b.1))
    (hR : (ents ++ dc.filter fun e => !isDead de e.1).length ≤ u32Max) :
    ∃ rs, copyEntries de dc ents od = .ok rs := by
  induction dc generalizing ents od with
  | nil => exact ⟨_, rfl⟩
  | cons e rt ih =>
    obtain ⟨ev, id⟩ := e
    cases hD : isDead de ev with
    | true =>
      simp only [copyEntries, hD, ↓reduceIte]
      rw [List.filter_cons_of_neg (by simp [hD])] at hS hR
      exact ih _ hS hR
    | false =>
      rw [List.filter_cons_of_pos (by simp [hD]), List.append_cons] at hS hR
      have hl : ¬ ents.getLast?.any (fun last => last.1 ≥ ev) = true := by
        rw [any_eq_true]
        rintro ⟨last, hl, hG⟩
        have hM := List.mem_of_getLast? hl
        have hL := (pairwise_append.mp (pairwise_append.mp hS).1).2.2 last hM (ev, id) (by simp)
        exact Nat.not_le.mpr hL (of_decide_eq_true hG)
      have hF : ¬ ents.length > u32Max := by
        simp only [length_append, length_cons] at hR
        omega
      simp only [copyEntries, hD, false_eq_true, ↓reduceIte, if_neg hl, if_neg hF]
      exact ih _ hS hR

theorem numbering_length (de : Option DeadKeys) (next : Nat) (dc : Dictionary) :
    (numbering de next dc).length = dc.length := by
  induction dc generalizing next with
  | nil => rfl
  | cons e rs ih =>
    unfold numbering
    split <;> simp [ih]

theorem numbering_getElem? (de : Option DeadKeys) (next : Nat) (dc : Dictionary) (od : Nat)
    (e : EventKey × Nat) (h : dc[od]? = some e) :
    if isDead de e.1 then (numbering de next dc)[od]? = some none
    else ∃ pl, (numbering de next dc)[od]? = some (some (next + pl)) ∧
      (dc.filter fun e => !isDead de e.1)[pl]? = some e := by
  induction dc generalizing next od with
  | nil => simp at h
  | cons fr rs ih =>
    cases od with
    | zero =>
      obtain rfl : fr = e := by simpa using h
      split
      · rename_i hD
        simp [numbering, hD]
      · rename_i hL
        exact ⟨0, by simp [numbering, hL], by simp [hL]⟩
    | succ od =>
      have hR : rs[od]? = some e := by simpa using h
      cases hF : isDead de fr.1 with
      | true =>
        have := ih next od hR
        simpa [numbering, hF] using this
      | false =>
        have := ih (next + 1) od hR
        split
        · rename_i hD
          simpa [numbering, hF, hD] using this
        rename_i hL
        rw [if_neg hL] at this
        obtain ⟨pl, hP, hE⟩ := this
        exact ⟨pl + 1, by simp [numbering, hF, hP]; omega, by simpa [hF] using hE⟩

theorem numbering_mapsTo (de : Option DeadKeys) (dc b af : Dictionary) :
    MapsTo dc (b ++ (dc.filter fun e => !isDead de e.1) ++ af) (isDead de)
      (numbering de b.length dc) where
  length_eq := numbering_length ..
  dead_none ord e hE hD := by
    have := numbering_getElem? de b.length dc ord e hE
    rwa [if_pos hD] at this
  live_some ord e hE hL := by
    have := numbering_getElem? de b.length dc ord e hE
    rw [if_neg (by simp [hL])] at this
    obtain ⟨pl, hP, hA⟩ := this
    have hl := (getElem?_eq_some_iff.mp hA).1
    refine ⟨_, hP, ?_⟩
    rw [append_assoc, List.getElem?_append_right (by omega), List.getElem?_append_left (by omega)]
    simpa using hA

def cohortMaps : Nat → List CohortRun → List (List (Option Nat))
  | _, [] => []
  | next, run :: runs => numbering run.dead next run.dictionary :: cohortMaps (next + run.live.length) runs

end Numbering

variable {p q p' : Packed} {count : Nat}

theorem copyDictionaries_ok (hS : ∀ ru ∈ rn, ru.Stored p)
    (h : copyDictionaries p (rn.map CohortRun.entry) ents maps = .ok res) :
    res = (ents ++ cohortEntries rn, maps ++ cohortMaps ents.length rn) := by
  induction rn generalizing ents maps with
  | nil =>
    cases h
    simp [cohortEntries, cohortMaps]
  | cons ru rn ih =>
    have hR := hS ru (.head _)
    simp only [map_cons, CohortRun.entry, copyDictionaries, hR.stored] at h
    obtain ⟨dc, hD, h⟩ := bind_ok.mp h
    obtain ⟨cp, hC, h⟩ := bind_ok.mp h
    have hs : dc = ru.dictionary := by
      simp only [packed, mapError_ok, validateDictionary, bind_ok] at hD
      obtain ⟨-, -, hN⟩ := hD
      rw [if_pos hR.idsNodup] at hN
      exact (pure_ok.mp hN).symm
    subst hs
    obtain rfl := copyEntries_ok hC
    have he := ih (fun r hr => hS r (.tail _ hr)) h
    simp [he, cohortEntries, cohortMaps, CohortRun.live]

omit [ShardHash] in
theorem validateDictionary_ok (hS : dict.Pairwise (fun a b => a.1 < b.1))
    (hI : (dict.map Prod.snd).Nodup) : validateDictionary dict = .ok dict := by
  have hT : IsTrans (EventKey × Nat) (fun a b => a.1 < b.1) := ⟨fun _ _ _ => lt_trans⟩
  simp [validateDictionary, validateOrder, List.isChain_iff_pairwise.mpr hS, hI, pure, Except.pure]

theorem copyDictionaries_progress (hs : ∀ ru ∈ rn, ru.Stored p) (en : Dictionary)
    (ms : List (List (Option Nat))) (hS : (en ++ cohortEntries rn).Pairwise (fun a b => a.1 < b.1))
    (hm : (en ++ cohortEntries rn).length ≤ u32Max) :
    ∃ rs, copyDictionaries p (rn.map CohortRun.entry) en ms = .ok rs := by
  induction rn generalizing en ms with
  | nil => exact ⟨_, rfl⟩
  | cons ru rn ih =>
    have hR := hs ru (.head _)
    have hp : en ++ cohortEntries (ru :: rn) = (en ++ ru.live) ++ cohortEntries rn := by
      simp [cohortEntries]
    rw [hp] at hS hm
    obtain ⟨cp, hC⟩ := copyEntries_progress ru.dead ru.dictionary []
      (pairwise_append.mp hS).1 (by
        simp only [length_append, CohortRun.live] at hm ⊢
        omega)
    obtain ⟨rs, h1⟩ := ih (fun r hr => hs r (.tail _ hr)) _ (ms ++ [cp.2]) hS hm
    refine ⟨rs, ?_⟩
    simp only [map_cons, CohortRun.entry, copyDictionaries, hR.stored, packed,
      validateDictionary_ok hR.keysSorted hR.idsNodup, Except.mapError, bind_ok, Except.ok.injEq,
      exists_eq_left']
    refine ⟨cp, hC, ?_⟩
    obtain rfl := copyEntries_ok hC
    exact h1

section
omit [ShardHash]

theorem cohortMaps_mapsTo (b : Dictionary) (rn : List CohortRun) :
    List.Forall₂ (fun r map => MapsTo r.dictionary (b ++ cohortEntries rn) (isDead r.dead) map) rn
      (cohortMaps b.length rn) := by
  induction rn generalizing b with
  | nil => exact .nil
  | cons r rn ih =>
    have hS : b ++ cohortEntries (r :: rn) = (b ++ r.live) ++ cohortEntries rn := by
      simp [cohortEntries]
    rw [hS]
    refine .cons (numbering_mapsTo r.dead r.dictionary b (cohortEntries rn)) ?_
    simpa using ih (b ++ r.live)

def cohortInputs (p : Packed) (runs : List CohortRun) (maps : List (List (Option Nat))) (family : Family) (shard : Nat) :
    List CompactionInput :=
  (runs.zip maps).filterMap fun pair =>
    (p.segments[segmentKey family shard pair.1.runMeta.runId]?).map fun segment =>
      ⟨⟨segment, pair.2⟩, pair.1.dictionary, isDead pair.1.dead⟩

theorem cohortSegments_eq (p : Packed) (rn : List CohortRun) (ms : List (List (Option Nat))) (f : Family)
    (sh : Nat) : cohortSegments p (rn.map CohortRun.runMeta) ms f sh =
      (cohortInputs p rn ms f sh).map CompactionInput.source := by
  unfold cohortSegments cohortInputs
  rw [List.map_filterMap, List.zip_map_left, List.filterMap_map]
  congr 1
  funext pair
  simp [Function.comp_def]

end

def CohortRun.PostsLive (p : Packed) (run : CohortRun) (family : Family) (shard : Nat) (pfx : Bytes) (event : RunEvent) :
    Prop :=
  ∃ segment, p.segments[segmentKey family shard run.runMeta.runId]? = some segment ∧
    segment.Posts run.dictionary pfx event ∧ isDead run.dead event.eventKey = false

theorem Cohort.compactable (h : Cohort p rn) (f : Family) (sh : Nat) :
    Compactable f sh (cohortEntries rn) (cohortInputs p rn (cohortMaps 0 rn) f sh) := by
  have hm := List.forall₂_iff_zip.mp (cohortMaps_mapsTo [] rn)
  have hI : ∀ i ∈ cohortInputs p rn (cohortMaps 0 rn) f sh, ∃ pa ∈ rn.zip (cohortMaps 0 rn),
      ∃ segment, p.segments[segmentKey f sh pa.1.runMeta.runId]? = some segment ∧
        i = ⟨⟨segment, pa.2⟩, pa.1.dictionary, isDead pa.1.dead⟩ := by
    intro i hM
    obtain ⟨pa, hp, hS⟩ := mem_filterMap.mp hM
    obtain ⟨segment, hs, rfl⟩ := map_eq_some_iff.mp hS
    exact ⟨pa, hp, segment, hs, rfl⟩
  refine ⟨fun i hM => ?_, fun i hM => ?_, ?_⟩
  · obtain ⟨pa, hp, segment, hs, rfl⟩ := hI i hM
    exact (h.stored pa.1 (List.of_mem_zip hp).1).segmentOk f sh segment hs
  · obtain ⟨pa, hp, segment, -, rfl⟩ := hI i hM
    exact hm.2 hp
  have hP : (rn.zip (cohortMaps 0 rn)).Pairwise
      (fun a b => ∀ e ∈ a.1.dictionary, ∀ e' ∈ b.1.dictionary, e.1 < e'.1) := by
    have hF : (rn.zip (cohortMaps 0 rn)).map Prod.fst = rn :=
      List.map_fst_zip (cohortMaps_mapsTo [] rn).length_eq.le
    have ho := h.ordered
    rwa [← hF, pairwise_map] at ho
  refine List.pairwise_filterMap.mpr (hP.imp fun {a b} hL i hI i' hI' => ?_)
  obtain ⟨segment, -, rfl⟩ := map_eq_some_iff.mp hI
  obtain ⟨segment', -, rfl⟩ := map_eq_some_iff.mp hI'
  exact fun e hE e' hE' => ne_of_lt (hL e hE e' hE')

section
omit [ShardHash]

theorem postsLive_cohortInputs
    (hL : rn.length ≤ maps.length) (f : Family) (sh : Nat) (pf : Bytes) (ev : RunEvent) :
    PostsLive (cohortInputs p rn maps f sh) pf ev ↔
      ∃ r ∈ rn, r.PostsLive p f sh pf ev := by
  constructor
  · rintro ⟨i, hM, hP, hl⟩
    obtain ⟨pa, hp, hS⟩ := mem_filterMap.mp hM
    obtain ⟨segment, hs, rfl⟩ := map_eq_some_iff.mp hS
    exact ⟨pa.1, (List.of_mem_zip hp).1, segment, hs, hP, hl⟩
  · rintro ⟨r, hR, segment, hs, hP, hl⟩
    have hF : r ∈ (rn.zip maps).map Prod.fst := by rwa [List.map_fst_zip hL]
    obtain ⟨pa, hp, rfl⟩ := mem_map.mp hF
    exact ⟨_, mem_filterMap.mpr ⟨pa, hp, by simp [hs]; rfl⟩, hP, hl⟩

structure OnlySegmentsOf (runId : Nat) (p p' : Packed) : Prop where
  runMeta : p'.runMeta = p.runMeta
  dictionary : p'.dictionary = p.dictionary
  byMin : p'.byMin = p.byMin
  deaths : p'.deaths = p.deaths
  nextRunId : p'.nextRunId = p.nextRunId
  segments : ∀ family shard id : Nat, id ≠ runId → p'.segments[(family, shard, id)]? = p.segments[(family, shard, id)]?

theorem OnlySegmentsOf.trans (h : OnlySegmentsOf rid p q) (h' : OnlySegmentsOf rid q r) :
    OnlySegmentsOf rid p r where
  runMeta := h'.runMeta.trans h.runMeta
  dictionary := h'.dictionary.trans h.dictionary
  byMin := h'.byMin.trans h.byMin
  deaths := h'.deaths.trans h.deaths
  nextRunId := h'.nextRunId.trans h.nextRunId
  segments f sh id hN := (h'.segments f sh id hN).trans (h.segments f sh id hN)

theorem onlySegmentsOf_insert (p : Packed) (fm : Family) (sh r : Nat) (sg : Segment) :
    OnlySegmentsOf r p { p with segments := p.segments.insert (segmentKey fm sh r) sg } := by
  refine ⟨rfl, rfl, rfl, rfl, rfl, fun f s id hN => ?_⟩
  rw [get_insert, if_neg]
  rintro hE
  exact hN (congrArg (fun k : Nat × Nat × Nat => k.2.2) hE).symm

theorem OnlySegmentsOf.cohortInputs (h : OnlySegmentsOf r p p')
    (hN : ∀ ru ∈ rn, ru.runMeta.runId ≠ r) (ms : List (List (Option Nat))) (f : Family) (sh : Nat) :
    cohortInputs p' rn ms f sh = cohortInputs p rn ms f sh := by
  refine List.filterMap_congr fun pa hP => ?_
  rw [segmentKey, h.segments _ _ _ (hN pa.1 (List.of_mem_zip hP).1)]

end

structure SegmentsWritten (p : Packed) (runs : List CohortRun) (runId : Nat) (shards : List (Family × Nat))
    (q : Packed) (count : Nat) (q' : Packed) (count' : Nat) : Prop where
  only : OnlySegmentsOf runId q q'
  compacted : ∀ pair ∈ shards, Compacted pair.1 pair.2 (cohortEntries runs)
    (cohortInputs p runs (cohortMaps 0 runs) pair.1 pair.2) q'.segments[segmentKey pair.1 pair.2 runId]?
  others : ∀ family shard, (family, shard) ∉ shards →
    q'.segments[segmentKey family shard runId]? = q.segments[segmentKey family shard runId]?
  count_le : count ≤ count'
  count_lt : ∀ pair ∈ shards, (q'.segments[segmentKey pair.1 pair.2 runId]?).isSome → count < count'

theorem count_pos_of_segmentOk {g : Segment} (h : SegmentOk dict f sh g) (hN : g.records ≠ []) :
    0 < (g.records.map fun r => r.postings.length).sum := by
  obtain ⟨r, rest, hR⟩ := List.exists_cons_of_ne_nil hN
  have hP := List.length_pos_iff.mpr (h.record r (by simp [hR])).nonempty
  rw [hR, map_cons, List.sum_cons]
  omega

omit [ShardHash] in
theorem segmentKey_inj
    (h : segmentKey f sh r = segmentKey f' sh' r) : (f, sh) = (f', sh') := by
  simp only [segmentKey, Prod.mk.injEq] at h
  rw [Family.toU8_injective h.1, h.2.1]

theorem compactSegments_ok (h : Cohort p rn)
    (hN : ∀ ru ∈ rn, ru.runMeta.runId ≠ r) (hd : sr.Nodup)
    (hn : OnlySegmentsOf r p q)
    (hF : ∀ pa ∈ sr, q.segments[segmentKey pa.1 pa.2 r]? = none)
    (ho : compactSegments (rn.map CohortRun.runMeta) (cohortMaps 0 rn) (cohortEntries rn) r sr q count =
      .ok (q', count')) : SegmentsWritten p rn r sr q count q' count' := by
  induction sr generalizing q count with
  | nil =>
    cases ho
    exact ⟨⟨rfl, rfl, rfl, rfl, rfl, fun _ _ _ _ => rfl⟩, by simp, fun _ _ _ => rfl, le_rfl, by simp⟩
  | cons pa sr ih =>
    obtain ⟨fm, sh⟩ := pa
    obtain ⟨hY, hR⟩ := nodup_cons.mp hd
    have hf : ∀ pa ∈ sr, q.segments[segmentKey pa.1 pa.2 r]? = none := fun pa hp =>
      hF pa (.tail _ hp)
    simp only [compactSegments, packed, bind_ok, mapError_ok, cohortSegments_eq,
      hn.cohortInputs hN] at ho
    obtain ⟨rs, hr, ho⟩ := ho
    have hC := compactSegment_ok (h.compactable fm sh) hr
    cases rs with
    | none =>
      have hT := ih hR hn hf ho
      have hH := (hT.others fm sh hY).trans (hF _ (.head _))
      refine ⟨hT.only, ?_, fun f s hns => hT.others f s fun hm => hns (.tail _ hm),
        hT.count_le, ?_⟩
      · rintro pa hp
        rcases mem_cons.mp hp with rfl | hp
        · rwa [hH]
        · exact hT.compacted pa hp
      rintro pa hp hS
      rcases mem_cons.mp hp with rfl | hp
      · rw [hH] at hS
        cases hS
      · exact hT.count_lt pa hp hS
    | some g =>
      have hs := onlySegmentsOf_insert q fm sh r g
      have hT := ih hR (hn.trans hs) (fun pa hp => by
        rw [get_insert, if_neg]
        · exact hf pa hp
        · intro hE
          exact hY (segmentKey_inj hE ▸ hp)) ho
      have hH := hT.others fm sh hY
      rw [get_insert, if_pos rfl] at hH
      have hP := count_pos_of_segmentOk (hC.1 g rfl).1 (hC.1 g rfl).2
      have hL := hT.count_le
      refine ⟨hs.trans hT.only, ?_, fun f s hns => ?_, by omega, fun pa hp hS => by omega⟩
      · rintro pa hp
        rcases mem_cons.mp hp with rfl | hp
        · rwa [hH]
        · exact hT.compacted pa hp
      · rw [hT.others f s fun hm => hns (.tail _ hm), get_insert, if_neg]
        intro hE
        exact hns (segmentKey_inj hE ▸ mem_cons_self)

theorem compactSegments_progress (h : Cohort p rn)
    (hN : ∀ ru ∈ rn, ru.runMeta.runId ≠ r) (sr : List (Family × Nat)) (count : Nat)
    (ho : OnlySegmentsOf r p q) (hR : ∀ (segment : Nat × Nat) (ms : List Membership), ms.Nodup →
      (∀ m ∈ ms, segmentOf m = segment ∧ ∃ ru ∈ rn, ru.PostsLive p m.family m.shard m.pfx m.event) →
      runBytes ms ≤ u32Max) :
    ∃ rs, compactSegments (rn.map CohortRun.runMeta) (cohortMaps 0 rn) (cohortEntries rn) r sr q count =
      .ok rs := by
  induction sr generalizing q count with
  | nil => exact ⟨_, rfl⟩
  | cons pa sr ih =>
    obtain ⟨f, sh⟩ := pa
    have hM : rn.length ≤ (cohortMaps 0 rn).length := (cohortMaps_mapsTo [] rn).length_eq.le
    obtain ⟨rs, hr⟩ := compactSegment_progress (h.compactable f sh) (by
      intro ms hn hP
      refine hR (f.toU8, sh) ms hn fun m hm => ?_
      obtain ⟨rfl, rfl, hL⟩ := hP m hm
      exact ⟨rfl, (postsLive_cohortInputs hM _ _ _ _).mp hL⟩)
    simp only [compactSegments, packed, bind_ok, mapError_ok, cohortSegments_eq,
      ho.cohortInputs hN]
    cases rs with
    | none =>
      obtain ⟨fn, hF⟩ := ih count ho
      exact ⟨fn, none, hr, hF⟩
    | some g =>
      obtain ⟨fn, hF⟩ := ih _ (ho.trans (onlySegmentsOf_insert q f sh r g))
      exact ⟨fn, some g, hr, hF⟩

section
omit [ShardHash]

theorem mem_allShards : (f, shard) ∈ allShards ↔ shard ≤ shardMask := by
  simp only [allShards, mem_flatMap, mem_map, List.mem_range, Prod.mk.injEq]
  constructor
  · rintro ⟨_, -, _, hl, -, rfl⟩
    omega
  · intro hL
    exact ⟨f, Family.mem_all f, shard, by omega, rfl, rfl⟩

theorem allShards_nodup : allShards.Nodup := by
  have hF : Family.all.Nodup := by decide
  exact hF.product (List.nodup_range (n := shardMask + 1))

end

theorem Cohort.entries_sorted (h : Cohort p rn) : (cohortEntries rn).Pairwise (fun a b => a.1 < b.1) := by
  refine List.pairwise_flatMap.mpr ⟨fun r hR => (h.stored r hR).keysSorted.filter _, ?_⟩
  exact h.ordered.imp fun hL a ha b hb => hL a (mem_filter.mp ha).1 b (mem_filter.mp hb).1

structure Merged (p : Packed) (runs : List CohortRun) (output : CompactionOutput) (p' : Packed) : Prop where
  runId_eq : output.runId = p.nextId
  first : (cohortEntries runs).head?.map Prod.fst = some output.minEventKey
  last : (cohortEntries runs).getLast?.map Prod.fst = some output.maxEventKey
  liveEvents_eq : output.liveEvents = (cohortEntries runs).length
  runMeta : p'.runMeta = p.runMeta
  dictionary : p'.dictionary = p.dictionary.insert p.nextId (cohortEntries runs)
  byMin : p'.byMin = p.byMin
  deaths : p'.deaths = p.deaths
  nextRunId : p'.nextRunId = some (p.nextId + 1)
  segments : ∀ family shard id : Nat, id ≠ p.nextId → p'.segments[(family, shard, id)]? = p.segments[(family, shard, id)]?
  segmentOk : ∀ (family : Family) (shard : Nat) (segment : Segment),
    p'.segments[segmentKey family shard p.nextId]? = some segment → SegmentOk (cohortEntries runs) family shard segment
  posts_iff : ∀ (family : Family) (shard : Nat) (pfx : Bytes) (event : RunEvent), shard ≤ shardMask →
    ((∃ segment, p'.segments[segmentKey family shard p.nextId]? = some segment ∧
      segment.Posts (cohortEntries runs) pfx event) ↔ ∃ run ∈ runs, run.PostsLive p family shard pfx event)

def Packed.withDictionary (p : Packed) (dictionary : Dictionary) : Packed :=
  { p with nextRunId := some (p.nextId + 1), dictionary := p.dictionary.insert p.nextId dictionary }

theorem Cohort.withDictionary (h : Cohort p rn)
    (hO : ∀ r ∈ rn, r.runMeta.runId < p.nextId) (dc : Dictionary) :
    Cohort (p.withDictionary dc) rn := by
  refine ⟨fun r hR => ?_, h.ordered⟩
  have hS := h.stored r hR
  refine ⟨?_, hS.keysSorted, hS.idsNodup, hS.segmentOk⟩
  have hN := hO r hR
  rw [Packed.withDictionary, get_insert, if_neg (by omega)]
  exact hS.stored

theorem merged_of_segmentsWritten (hi : Indexed p)
    {first last : EventKey × Nat} (hF : (cohortEntries rn).head? = some first)
    (hL : (cohortEntries rn).getLast? = some last)
    (h : SegmentsWritten (p.withDictionary (cohortEntries rn)) rn p.nextId allShards
      (p.withDictionary (cohortEntries rn)) 0 p' count) :
    Merged p rn ⟨p.nextId, first.1, last.1, (cohortEntries rn).length⟩ p' where
  runId_eq := rfl
  first := by simp [hF]
  last := by simp [hL]
  liveEvents_eq := rfl
  runMeta := h.only.runMeta
  dictionary := h.only.dictionary
  byMin := h.only.byMin
  deaths := h.only.deaths
  nextRunId := h.only.nextRunId
  segments := h.only.segments
  segmentOk f sh g hA := by
    by_cases hM : (f, sh) ∈ allShards
    · exact ((h.compacted _ hM).1 g hA).1
    · rw [h.others f sh hM] at hA
      exact absurd (hi.segments hA) (lt_irrefl _)
  posts_iff f sh pfx ev hl := by
    rw [(h.compacted (f, sh) (mem_allShards.mpr hl)).2 pfx ev]
    exact postsLive_cohortInputs (cohortMaps_mapsTo [] rn).length_eq.le f sh pfx ev

theorem streamCompactionCohort_ok (hm : MetasOk p.runMeta) (hi : Indexed p)
    (h : Cohort p rn) (hO : ∀ r ∈ rn, r.runMeta.runId < p.nextId)
    (ho : streamCompactionCohort p (rn.map CohortRun.entry) = .ok (o, p')) :
    (o = none ∧ p' = p ∧ cohortEntries rn = []) ∨ ∃ wr, o = some wr ∧ Merged p rn wr p' := by
  simp only [streamCompactionCohort, bind_ok] at ho
  obtain ⟨cp, hC, ho⟩ := ho
  obtain rfl := copyDictionaries_ok h.stored hC
  split at ho
  · rename_i fr last hF hL
    simp only [packed, bind_ok, mapError_ok, pure_ok,
      allocateRunId_ok hm hi] at ho
    obtain ⟨dc, hD, _, ⟨-, rfl⟩, ⟨q, count⟩, hS, -, -, hr⟩ := ho
    obtain rfl := encodeDictionary_ok hD
    cases hr
    have hM : (rn.map CohortRun.entry).map Prod.fst = rn.map CohortRun.runMeta := by
      rw [map_map]
      rfl
    rw [hM] at hS
    have hW := compactSegments_ok (h.withDictionary hO (cohortEntries rn))
      (fun r hR => (hO r hR).ne) allShards_nodup ⟨rfl, rfl, rfl, rfl, rfl, fun _ _ _ _ => rfl⟩
      (fun pa _ => eq_none_iff_forall_ne_some.mpr fun g hA =>
        absurd (hi.segments hA) (lt_irrefl _)) hS
    exact .inr ⟨_, rfl, merged_of_segmentsWritten hi hF hL hW⟩
  · rename_i hN
    cases ho
    refine .inl ⟨rfl, rfl, ?_⟩
    cases hE : cohortEntries rn with
    | nil => rfl
    | cons e rs =>
      obtain ⟨last, hL⟩ := List.getLast?_isSome.mpr (List.cons_ne_nil e rs) |> isSome_iff_exists.mp
      exact absurd hL (by simpa [hE] using hN e last (by simp [hE]))

theorem streamCompactionCohort_progress (hm : MetasOk p.runMeta) (hi : Indexed p)
    (h : Cohort p rn) (hO : ∀ r ∈ rn, r.runMeta.runId < p.nextId) (hp : p.nextId + 1 ≤ u64Max)
    (hL : (cohortEntries rn).length ≤ u32Max) (hr : ∀ (segment : Nat × Nat) (ms : List Membership), ms.Nodup →
      (∀ m ∈ ms, segmentOf m = segment ∧ ∃ r ∈ rn, r.PostsLive p m.family m.shard m.pfx m.event) →
      runBytes ms ≤ u32Max)
    (hP : ∀ e ∈ cohortEntries rn, ∃ ev shard, shard ≤ shardMask ∧
      ∃ r ∈ rn, r.PostsLive p .global shard [] ev) :
    ∃ rs, streamCompactionCohort p (rn.map CohortRun.entry) = .ok rs := by
  obtain ⟨cp, hC⟩ := copyDictionaries_progress h.stored [] [] h.entries_sorted hL
  obtain rfl := copyDictionaries_ok h.stored hC
  simp only [streamCompactionCohort, hC, bind_ok, Except.ok.injEq, exists_eq_left', nil_append]
  split
  · rename_i fr last hF hl
    have hM : (rn.map CohortRun.entry).map Prod.fst = rn.map CohortRun.runMeta := by
      rw [map_map]
      rfl
    have hq := h.withDictionary hO (cohortEntries rn)
    have hN : ∀ r ∈ rn, r.runMeta.runId ≠ p.nextId := fun r hR => (hO r hR).ne
    have hS : OnlySegmentsOf p.nextId (p.withDictionary (cohortEntries rn)) (p.withDictionary (cohortEntries rn)) :=
      ⟨rfl, rfl, rfl, rfl, rfl, fun _ _ _ _ => rfl⟩
    obtain ⟨⟨q, count⟩, hs⟩ := compactSegments_progress hq hN allShards 0 hS hr
    have hW := compactSegments_ok hq hN allShards_nodup hS
      (fun pa _ => eq_none_iff_forall_ne_some.mpr fun g hAt =>
        absurd (hi.segments hAt) (lt_irrefl _)) hs
    have hc : count ≠ 0 := by
      obtain ⟨ev, shard, hE, hv⟩ := hP fr (List.mem_of_head? hF)
      obtain ⟨g, hAt, -⟩ := ((merged_of_segmentsWritten hi hF hl hW).posts_iff .global shard [] ev
        hE).mpr hv
      have := hW.count_lt (.global, shard) (mem_allShards.mpr hE) (by simp [hAt])
      omega
    refine ⟨(some ⟨p.nextId, fr.1, last.1, (cohortEntries rn).length⟩, q), ?_⟩
    simp only [packed, bind_ok, mapError_ok, pure_ok,
      allocateRunId_ok hm hi, refuseIf_ok]
    exact ⟨cohortEntries rn, by simp [encodeDictionary, hL, pure, Except.pure], _, ⟨hp, rfl⟩, (q, count),
      by rw [hM]; exact hs, (), hc, rfl⟩
  · exact ⟨_, rfl⟩

end NmpStore.Postings

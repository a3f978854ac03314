import NmpStore.Postings.Cursor
import NmpStore.Postings.Flush

/-! # A scan presents the live events

Whatever history of flushes produced the catalog, a scan hands its callback the live events with a membership
in one of the prefixes, inside the window and after the position, each once and
in canonical order, until the limit is reached.
-/

namespace NmpStore.Postings

variable [ShardHash]

variable {segment : Segment} {run : Run} {p : Packed}

section
omit [ShardHash]

theorem segmentPrefix_some (hD : segment.records.Pairwise (fun a b => compare a.pfx b.pfx = .lt)) :
    segmentPrefix segment pfx = some postings ↔ ⟨pfx, postings⟩ ∈ segment.records := by
  have ho : ∀ i j, i < j → (hj : j < segment.records.length) → ∀ hi : i < segment.records.length,
      compare segment.records[i].pfx segment.records[j].pfx = .lt := fun i j hij hj hi =>
    List.pairwise_iff_getElem.mp hD i j hi hj hij
  have hS : ∀ i (hi : i < segment.records.length),
      compare ((segment.records[i]?.map PrefixRecord.pfx).getD []) pfx = compare segment.records[i].pfx pfx := by
    intro i hi
    simp [hi]
  have ha : BinarySearch.Ascending segment.records.length
      (fun i => compare ((segment.records[i]?.map PrefixRecord.pfx).getD []) pfx) := by
    refine ⟨fun i j hij hj hL => ?_, fun i j hij hj hG => ?_⟩
    · rcases hij.lt_or_eq with hij | rfl
      · rw [hS j hj] at hL
        rw [hS i (hij.trans hj)]
        exact Std.TransCmp.lt_trans (ho i j hij hj _) hL
      · exact hL
    · rcases hij.lt_or_eq with hij | rfl
      · rw [hS i (hij.trans hj), Std.OrientedCmp.gt_iff_lt] at hG
        rw [hS j hj, Std.OrientedCmp.gt_iff_lt]
        exact Std.TransCmp.lt_trans hG (ho i j hij hj _)
      · exact hG
  unfold segmentPrefix
  constructor
  · intro h
    have hn := BinarySearch.binarySearchIndex_answers ha
    split at h
    · rename_i i hR
      rw [hR] at hn
      obtain ⟨hi, hE⟩ := hn
      replace hE := Std.compare_eq_iff_eq.mp ((hS i hi).symm.trans hE)
      rw [getElem?_eq_getElem hi, map_some, Option.some.injEq] at h
      rw [← hE, ← h]
      exact List.getElem_mem hi
    · cases h
  · intro hM
    obtain ⟨i, hi, hA⟩ := List.mem_iff_getElem.mp hM
    obtain ⟨j, hR, hj, hE⟩ := BinarySearch.exists_ok_of_eq ha hi (by rw [hS i hi, hA]; simp)
    rw [hS j hj, Std.compare_eq_iff_eq] at hE
    have hij : i = j := by
      rcases Nat.lt_trichotomy i j with hij | hij | hij
      · have hL := ho i j hij hj hi
        simp [hA, hE] at hL
      · exact hij
      · have hL := ho j i hij hi hj
        simp [hA, hE] at hL
    subst hij
    rw [hR]
    simp [hi, hA]

theorem checkPostings_ok (hR : Reads dict ps es)
    (hS : es.Pairwise (fun a b => a.rank < b.rank))
    (hP : ∀ pr, pv = some pr → ∀ ev ∈ es, pr.rank < ev.rank) :
    checkPostings dict pv ps = .ok () := by
  induction hR generalizing pv with
  | nil => rfl
  | cons hr _ ih =>
    rename_i pt ev ps es _
    obtain ⟨hF, he⟩ := pairwise_cons.mp hS
    have hI : ¬ pv.any (fun pr => canonicalOrder pr ev ≠ .lt) = true := by
      cases pv with
      | none => simp
      | some pr => simpa [canonicalOrder_eq_lt_iff] using hP pr rfl ev (.head _)
    rw [checkPostings, hr]
    simp only [Except.refuseIf, if_neg hI, bind, Except.bind, pure, Except.pure]
    exact ih he fun pr hp o hX => Option.some.inj hp ▸ hF o hX

end

theorem SegmentOk.validateSegment_ok
    (h : SegmentOk dict fam sh segment) : validateSegment segment dict = .ok () := by
  rw [validateSegment, h.validatePrefixDirectory_ok]
  refine forM_ok.mpr fun rc hR => ?_
  exact checkPostings_ok (reads_resolve (h.record rc hR).bounded) (h.record rc hR).sorted (by simp)

theorem RunOk.resolve_precedes (h : RunOk run) (hR : RecordOk run.dictionary fam shard record) :
    (resolve run.dictionary record.postings).Pairwise RunEvent.Precedes := by
  refine hR.sorted.imp_of_mem fun {a b} ha hb hL => ?_
  rw [RunEvent.rank_lt_iff] at hL
  rcases hL with hN | ⟨hT, hI | ⟨hI, hK⟩⟩
  · exact .inl hN
  · exact .inr ⟨hT, hI⟩
  · have hS := inj_on_of_nodup_map h.idsNodup (key_mem_of_mem_resolve ha) (key_mem_of_mem_resolve hb) hI
    exact absurd (Prod.ext_iff.mp hS).1 (ne_of_lt hK)

def LoadedRun.lists (scan : PackedScan) (loaded : LoadedRun) : List (List Posting) :=
  loaded.segments.flatMap fun segment => scan.prefixes.filterMap (segmentPrefix segment)

def LoadedRun.stream (scan : PackedScan) (loaded : LoadedRun) (list : List Posting) : List RunEvent :=
  (resolve loaded.dictionary list).filter fun event =>
    Wanted scan.before scan.since scan.untilTime event ∧ ¬ isDead loaded.dead event.eventKey

structure LoadedRun.Of (scan : PackedScan) (run : Run) (loaded : LoadedRun) : Prop where
  dictionary : loaded.dictionary = run.dictionary
  dead : ∀ key, isDead loaded.dead key = true ↔ key ∈ run.deadKeys
  segments : ∀ segment ∈ loaded.segments, ∃ shard, run.segment scan.family.toU8 shard = some segment

theorem loadRun_ok (hp : CatalogOk p) (sc : PackedScan) (sr : List Nat)
    (hR : p.run? m.runId = some run) : ∃ loaded, loadRun p sc sr m = .ok loaded ∧
      (∀ l, loaded = some l → l.Of sc run) ∧
      ∀ sh ∈ sr, ∀ segment, run.segment sc.family.toU8 sh = some segment →
        segmentMatches sc.prefixes segment → ∃ l, loaded = some l ∧ segment ∈ l.segments := by
  obtain ⟨-, hD, -, hs⟩ := run?_some.mp hR
  have ho := hp.runOk hR
  have hA : ∀ sh, p.segments[segmentKey sc.family sh m.runId]? = run.segment sc.family.toU8 sh := fun sh => by
    rw [hs]
    rfl
  have hM : ∀ segment, segment ∈ sr.filterMap (fun sh => p.segments[segmentKey sc.family sh m.runId]?) ↔
      ∃ sh ∈ sr, run.segment sc.family.toU8 sh = some segment := fun segment => by
    simp only [mem_filterMap, hA]
  unfold loadRun
  generalize hc : sr.filterMap (fun sh => p.segments[segmentKey sc.family sh m.runId]?) = candidates
  rw [hc] at hM
  by_cases hN : candidates.isEmpty = true
  · refine ⟨none, by simp [hN], by simp, fun sh hH segment hS _ => ?_⟩
    rw [List.isEmpty_iff.mp hN] at hM
    cases (hM segment).mpr ⟨sh, hH, hS⟩
  have hO : packed (validateOrder run.dictionary) = .ok run.dictionary := by
    rw [packed, mapError_ok, validateOrder, if_pos ho.keysSorted.isChain]
    rfl
  have hV : (forM candidates fun segment => packed (validateSegment segment run.dictionary)) = .ok () := by
    refine forM_ok.mpr fun segment hC => ?_
    obtain ⟨sh, -, hS⟩ := (hM segment).mp hC
    rw [packed, mapError_ok]
    exact (ho.segmentOk _ _ _ hS).validateSegment_ok
  by_cases hI : (candidates.filter (segmentMatches sc.prefixes)).isEmpty = true
  · refine ⟨none, by simp [hN, hD, hO, hV, hI], by simp, fun sh hH segment hS hm => ?_⟩
    rw [List.isEmpty_iff, filter_eq_nil_iff] at hI
    exact absurd hm (hI segment ((hM segment).mpr ⟨sh, hH, hS⟩))
  refine ⟨some ⟨run.dictionary, candidates.filter (segmentMatches sc.prefixes), runDeaths p m.runId⟩,
    by simp [hN, hD, hO, hV, hI, loadRunDeaths_eq], ?_, fun sh hH segment hS hm => ?_⟩
  · rintro l ⟨⟩
    refine ⟨rfl, isDead_runDeaths hR, fun segment hl => ?_⟩
    obtain ⟨sh, -, hS⟩ := (hM segment).mp (mem_filter.mp hl).1
    exact ⟨sh, hS⟩
  · exact ⟨_, rfl, mem_filter.mpr ⟨(hM segment).mpr ⟨sh, hH, hS⟩, hm⟩⟩

section Loaded

variable {run : Run} {loaded : LoadedRun} {list : List Posting}

theorem LoadedRun.Of.record (h : loaded.Of scan run) (ho : RunOk run) (hL : list ∈ loaded.lists scan) :
    ∃ pf ∈ scan.prefixes, ∃ shard segment, run.segment scan.family.toU8 shard = some segment ∧
      ⟨pf, list⟩ ∈ segment.records ∧ RecordOk run.dictionary scan.family shard ⟨pf, list⟩ := by
  obtain ⟨segment, hs, hL⟩ := mem_flatMap.mp hL
  obtain ⟨pf, hP, hF⟩ := mem_filterMap.mp hL
  obtain ⟨shard, hO⟩ := h.segments segment hs
  have hS := ho.segmentOk _ _ _ hO
  have hR := (segmentPrefix_some hS.directory).mp hF
  exact ⟨pf, hP, shard, segment, hO, hR, hS.record _ hR⟩

omit [ShardHash] in
theorem LoadedRun.Of.mem_stream (h : loaded.Of scan run) :
    ev ∈ loaded.stream scan list ↔ ev ∈ resolve run.dictionary list ∧
      Wanted scan.before scan.since scan.untilTime ev ∧ ev.eventKey ∉ run.deadKeys := by
  simp only [LoadedRun.stream, h.dictionary, mem_filter, decide_eq_true_eq, h.dead]

theorem LoadedRun.Of.stream_sorted (h : loaded.Of scan run) (ho : RunOk run)
    (hL : list ∈ loaded.lists scan) : (loaded.stream scan list).Pairwise fun a b => a.rank ≤ b.rank := by
  obtain ⟨pf, -, shard, segment, -, -, hR⟩ := h.record ho hL
  have hS : (resolve run.dictionary list).Pairwise fun a b => a.rank ≤ b.rank := hR.sorted.imp le_of_lt
  rw [← h.dictionary] at hS
  exact hS.filter _

theorem LoadedRun.Of.runSources_ok (h : loaded.Of scan run) (ho : RunOk run)
    (hT : ∀ fm pf ev, run.PostsLive fm pf ev → ev.createdAt ≤ u64Max) :
    ∃ sr, runSources scan loaded = .ok sr ∧
      List.Forall₂ ScanSource.Gives sr ((loaded.lists scan).map (loaded.stream scan)) := by
  have hE : ∀ list ∈ loaded.lists scan, ∃ src,
      (do let c ← packed (cursor loaded.dictionary list scan.before scan.since scan.untilTime)
          pure (ScanSource.mk c loaded.dead) : Result ScanSource) = .ok src ∧
        src.Gives (loaded.stream scan list) := fun list hL => by
    obtain ⟨pf, -, shard, segment, hs, hM, hR⟩ := h.record ho hL
    have hO : ∀ ev ∈ resolve run.dictionary list, ¬ isDead loaded.dead ev.eventKey → ev.createdAt ≤ u64Max :=
      fun ev he hl => hT scan.family pf ev
        ⟨⟨segment, hR.inShard ▸ hs, _, hM, rfl, he⟩, fun hD => hl ((h.dead _).mpr hD)⟩
    obtain ⟨c, hC, hG⟩ := exists_source (reads_resolve hR.bounded) (ho.resolve_precedes hR) loaded.dead
      hO scan.before scan.since scan.untilTime
    rw [h.dictionary]
    have hP : packed (cursor run.dictionary list scan.before scan.since scan.untilTime) = .ok c := by
      rw [packed, mapError_ok]
      exact hC
    refine ⟨⟨c, loaded.dead⟩, by rw [hP]; rfl, ?_⟩
    unfold LoadedRun.stream
    rwa [h.dictionary]
  obtain ⟨sr, hS, hG⟩ := Except.mapM_spec hE
  exact ⟨sr, hS, List.forall₂_map_right_iff.mpr hG.flip⟩

end Loaded

structure ScanStreams (p : Packed) (scan : PackedScan) (streams : List (List RunEvent)) : Prop where
  sorted : ∀ stream ∈ streams, stream.Pairwise fun a b => a.rank ≤ b.rank
  mem_iff : ∀ event, event ∈ streams.flatten ↔ (∃ pfx ∈ scan.prefixes, p.PostsLive scan.family pfx event) ∧
    Wanted scan.before scan.since scan.untilTime event

theorem scanStreams_of_loaded (hp : CatalogOk p) {rn : List LoadedRun}
    (ho : ∀ loaded ∈ rn, ∃ runId run, p.run? runId = some run ∧ loaded.Of scan run)
    (hA : ∀ {runId : Nat} {run : Run}, p.run? runId = some run → ∀ pf ∈ scan.prefixes, ∀ segment,
      run.segment scan.family.toU8 (shardFor scan.family pf) = some segment → segmentMatches scan.prefixes segment →
      ∃ loaded ∈ rn, loaded.Of scan run ∧ segment ∈ loaded.segments) :
    ScanStreams p scan (rn.map fun loaded => (loaded.lists scan).map (loaded.stream scan)).flatten where
  sorted stream hS := by
    simp only [mem_flatten, mem_map] at hS
    obtain ⟨_, ⟨loaded, hl, rfl⟩, hS⟩ := hS
    obtain ⟨list, hI, rfl⟩ := mem_map.mp hS
    obtain ⟨runId, run, hR, hs⟩ := ho loaded hl
    exact hs.stream_sorted (hp.runOk hR) hI
  mem_iff ev := by
    simp only [mem_flatten, mem_map]
    constructor
    · rintro ⟨_, ⟨_, ⟨loaded, hl, rfl⟩, hS⟩, hE⟩
      obtain ⟨list, hI, rfl⟩ := mem_map.mp hS
      obtain ⟨runId, run, hR, hs⟩ := ho loaded hl
      obtain ⟨pf, hP, shard, segment, hO, hM, hc⟩ := hs.record (hp.runOk hR) hI
      obtain ⟨hr, hW, hL⟩ := hs.mem_stream.mp hE
      exact ⟨⟨pf, hP, runId, run, hR, ⟨segment, hc.inShard ▸ hO, _, hM, rfl, hr⟩, hL⟩, hW⟩
    · rintro ⟨⟨pf, hP, runId, run, hR, ⟨segment, hO, record, hM, rfl, hr⟩, hL⟩, hW⟩
      have hF := (segmentPrefix_some ((hp.runOk hR).segmentOk _ _ _ hO).directory).mpr hM
      have hm : segmentMatches scan.prefixes segment := List.any_eq_true.mpr ⟨_, hP, by rw [hF]; rfl⟩
      obtain ⟨loaded, hl, hs, he⟩ := hA hR _ hP segment hO hm
      have hI : record.postings ∈ loaded.lists scan :=
        mem_flatMap.mpr ⟨segment, he, mem_filterMap.mpr ⟨_, hP, hF⟩⟩
      exact ⟨_, ⟨_, ⟨loaded, hl, rfl⟩, mem_map.mpr ⟨_, hI, rfl⟩⟩, hs.mem_stream.mpr ⟨hr, hW, hL⟩⟩

theorem scanSources_ok (hp : CatalogOk p) (sc : PackedScan)
    (hT : ∀ fm pf ev, p.PostsLive fm pf ev → ev.createdAt ≤ u64Max) :
    ∃ sources st, scanSources p sc = .ok sources ∧ List.Forall₂ ScanSource.Gives sources st ∧
      ScanStreams p sc st := by
  have hr : ∀ m ∈ p.metas, ∃ run, p.run? m.runId = some run := fun m hm =>
    (hp.indexed.exists_run ((mem_metas hp.metas).mp hm)).imp fun _ h => h.1
  let sr := sortedKeys (sc.prefixes.map (shardFor sc.family))
  obtain ⟨loaded, hD, hE⟩ := Except.mapM_spec (f := loadRun p sc sr)
    (R := fun m loaded => ∀ run, p.run? m.runId = some run → (∀ l, loaded = some l → l.Of sc run) ∧
      ∀ sh ∈ sr, ∀ segment, run.segment sc.family.toU8 sh = some segment →
        segmentMatches sc.prefixes segment → ∃ l, loaded = some l ∧ segment ∈ l.segments) (l := p.metas)
    fun m hm => by
      obtain ⟨run, hR⟩ := hr m hm
      obtain ⟨loaded, hL, hS⟩ := loadRun_ok hp sc sr hR
      exact ⟨loaded, hL, fun run' hR' => Option.some.inj (hR.symm.trans hR') ▸ hS⟩
  have hf : ∀ l ∈ loaded.filterMap id, ∃ rd run, p.run? rd = some run ∧ l.Of sc run := fun l hl => by
    obtain ⟨o, ho, rfl⟩ := mem_filterMap.mp hl
    obtain ⟨m, hm, hS⟩ := Grouping.exists_of_mem_right hE ho
    obtain ⟨run, hR⟩ := hr m hm
    exact ⟨_, run, hR, (hS run hR).1 l rfl⟩
  obtain ⟨sources, hO, hG⟩ := Except.mapM_spec (f := runSources sc)
    (R := fun l sources => List.Forall₂ ScanSource.Gives sources ((l.lists sc).map (l.stream sc)))
    (l := loaded.filterMap id) fun l hl => by
      obtain ⟨rd, run, hR, hS⟩ := hf l hl
      exact hS.runSources_ok (hp.runOk hR) fun fm pf ev hP =>
        hT fm pf ev ⟨rd, run, hR, hP⟩
  have hA := List.rel_flatten (List.forall₂_map_right_iff.mpr hG.flip)
  refine ⟨sources.flatten, _, ?_, hA, scanStreams_of_loaded hp hf fun {rd run} hR pf hX segment h1 hM => ?_⟩
  · have hC := loadRunCatalog_eq hp.metas hp.indexed
    simp only [scanSources, hC, run_ok]
    exact ⟨_, rfl, loaded, hD, sources, hO, rfl⟩
  have hI := hp.runId_eq hR
  have he : run.runMeta ∈ p.metas := (mem_metas hp.metas).mpr (hI ▸ (run?_some.mp hR).1)
  obtain ⟨o, ho, hS⟩ := Grouping.exists_of_mem_left hE he
  have hh : shardFor sc.family pf ∈ sr := mem_sortedKeys.mpr (mem_map.mpr ⟨pf, hX, rfl⟩)
  obtain ⟨hs, hF⟩ := hS run (hI ▸ hR)
  obtain ⟨l, rfl, hg⟩ := hF _ hh segment h1 hM
  exact ⟨l, mem_filterMap.mpr ⟨some l, ho, rfl⟩, hs l rfl, hg⟩

section Present

variable {τ T : Type}

omit [ShardHash]

/-- Hand the events to the callback one after another and stop with the accepted event that reaches the limit. -/
def presentFrom (limit : Option Nat) (project : EventKey → Nat → StateT τ (Result) (Option T)) :
    List T → List RunEvent → StateT τ (Result) (List T)
  | output, [] => pure output
  | output, event :: events => do
    match ← project event.eventKey event.id with
    | none => presentFrom limit project output events
    | some projected =>
      if limit = some (output.length + 1) then pure (output ++ [projected])
      else presentFrom limit project (output ++ [projected]) events

def present (limit : Option Nat) (project : EventKey → Nat → StateT τ (Result) (Option T))
    (events : List RunEvent) : StateT τ (Result) (List T) :=
  if limit = some 0 then pure [] else presentFrom limit project [] events

def fresh : List EventKey → List RunEvent → List RunEvent
  | _, [] => []
  | seen, event :: events =>
    if event.eventKey ∈ seen then fresh seen events else event :: fresh (event.eventKey :: seen) events

theorem fresh_sublist (se : List EventKey) (es : List RunEvent) : (fresh se es).Sublist es := by
  induction es generalizing se with
  | nil => exact .slnil
  | cons ev es ih =>
    rw [fresh]
    split
    · exact (ih se).cons _
    · exact (ih _).cons_cons _

theorem fresh_keys (se : List EventKey) (es : List RunEvent) :
    ((fresh se es).map RunEvent.eventKey).Nodup ∧ ∀ ev ∈ fresh se es, ev.eventKey ∉ se := by
  induction es generalizing se with
  | nil => simp [fresh]
  | cons ev es ih =>
    rw [fresh]
    split
    · exact ih se
    rename_i hN
    obtain ⟨hn, hF⟩ := ih (ev.eventKey :: se)
    refine ⟨nodup_cons.mpr ⟨fun hM => ?_, hn⟩, fun o hX => ?_⟩
    · obtain ⟨o, hX, hE⟩ := mem_map.mp hM
      exact hF o hX (hE ▸ mem_cons_self)
    rcases mem_cons.mp hX with rfl | hX
    · exact hN
    · exact fun hS => hF o hX (.tail _ hS)

theorem mem_fresh (hK : ∀ a ∈ es, ∀ b ∈ es, a.eventKey = b.eventKey → a = b) :
    ev ∈ fresh se es ↔ ev ∈ es ∧ ev.eventKey ∉ se := by
  induction es generalizing se with
  | nil => simp [fresh]
  | cons fr es ih =>
    have hR : ∀ se, ev ∈ fresh se es ↔ ev ∈ es ∧ ev.eventKey ∉ se := fun se =>
      ih fun a ha b hb => hK a (.tail _ ha) b (.tail _ hb)
    have hF : ev ∈ es → ev.eventKey = fr.eventKey → ev = fr := fun hE =>
      hK ev (.tail _ hE) fr (.head _)
    rw [fresh]
    split <;> simp only [mem_cons, hR] <;> grind

theorem forIn_visitHead (lm : Option Nat) (pro : EventKey → Nat → StateT τ (Result) (Option T))
    (es : List RunEvent) (se : List EventKey) (ot : List T) :
    (do let st ← forIn es (⟨se, ot⟩ : ScanState T) (visitHead lm pro)
        pure st.output) = presentFrom lm pro ot (fresh se es) := by
  induction es generalizing se ot with
  | nil => simp [fresh, presentFrom]
  | cons ev es ih =>
    rw [List.forIn_cons, visitHead, fresh]
    split
    · simpa using ih se ot
    simp only [presentFrom, bind_assoc]
    refine bind_congr fun pr => ?_
    cases pr with
    | none => simpa using ih (ev.eventKey :: se) ot
    | some pr =>
      simp only [length_append, List.length_singleton]
      split
      · simp
      · simpa using ih (ev.eventKey :: se) (ot ++ [pr])

end Present

structure Presents (live : PendingEvents) (scan : PackedScan) (events : List RunEvent) : Prop where
  ordered : events.Pairwise RunEvent.Precedes
  mem_iff : ∀ event, event ∈ events ↔ (∃ pfx ∈ scan.prefixes, Pends live scan.family pfx event) ∧
    Wanted scan.before scan.since scan.untilTime event

section Scans

variable {p : Packed} {last : Nat}

section
omit [ShardHash]

theorem Pends.key_inj
    (ha : Pends live fam pfx a) (hb : Pends live fam' pfx' b) (hK : a.eventKey = b.eventKey) : a = b := by
  obtain ⟨pn, hAt, rfl, -⟩ := ha
  obtain ⟨pn', hAt', rfl, -⟩ := hb
  rw [hK, hAt'] at hAt
  rw [Option.some.inj hAt]

theorem flatten_length_le (h : List.Forall₂ ScanSource.Gives srcs strs) :
    strs.flatten.length ≤ (srcs.map fun sr => sr.cursor.list.length).sum := by
  induction h with
  | nil => simp
  | cons hG _ ih =>
    have hH := hG.length_le
    simp only [List.flatten_cons, length_append, map_cons, List.sum_cons]
    omega

def mergedStreams (streams : List (List RunEvent)) : List RunEvent :=
  streams.flatten.insertionSort fun a b => a.rank ≤ b.rank

theorem mergedStreams_sorted (st : List (List RunEvent)) :
    (mergedStreams st).Pairwise fun a b => a.rank ≤ b.rank := by
  have hT : Std.Total fun a b : RunEvent => a.rank ≤ b.rank := ⟨fun a b => le_total a.rank b.rank⟩
  have ht : IsTrans RunEvent fun a b => a.rank ≤ b.rank := ⟨fun _ _ _ => le_trans⟩
  exact List.pairwise_insertionSort _ _

theorem merge_eq_mergedStreams {τ β : Type} (hG : List.Forall₂ ScanSource.Gives srcs strs)
    (hS : ∀ st ∈ strs, st.Pairwise fun a b => a.rank ≤ b.rank)
    (vs : RunEvent → β → StateT τ (Result) (ForInStep β)) (sr : β) :
    KWayMerge.merge nextScanEvent RunEvent.rank vs (srcs.map fun sc => sc.cursor.list.length).sum srcs sr =
      forIn (mergedStreams strs) sr vs := by
  obtain ⟨ot, hP, hU, hL⟩ := KWayMerge.merge_eq_forIn (nextScanEvent_streams τ) RunEvent.rank hG hS
    (flatten_length_le hG)
  have hs : ot = mergedStreams strs :=
    (hP.trans (perm_insertionSort _ _).symm).eq_of_pairwise
      (fun a b _ _ hb hba => RunEvent.rank_injective (le_antisymm hb hba)) hU (mergedStreams_sorted strs)
  rw [hL vs sr, hs]

end

theorem Flushed.presents (h : Flushed p live last)
    (hS : ScanStreams p scan strs) : Presents live scan (fresh [] (mergedStreams strs)) := by
  have hM : ∀ ev, ev ∈ mergedStreams strs ↔ (∃ pf ∈ scan.prefixes, Pends live scan.family pf ev) ∧
      Wanted scan.before scan.since scan.untilTime ev := fun ev => by
    rw [mergedStreams, List.mem_insertionSort, hS.mem_iff]
    simp only [h.refines]
  have hK : ∀ a ∈ mergedStreams strs, ∀ b ∈ mergedStreams strs, a.eventKey = b.eventKey → a = b := fun a ha b hb => by
    obtain ⟨⟨pf, -, hP⟩, -⟩ := (hM a).mp ha
    obtain ⟨⟨pf', -, hP'⟩, -⟩ := (hM b).mp hb
    exact hP.key_inj hP'
  refine ⟨?_, fun ev => by rw [mem_fresh hK, hM]; simp⟩
  have hB := fresh_sublist [] (mergedStreams strs)
  have hN := pairwise_map.mp (fresh_keys [] (mergedStreams strs)).1
  refine (((mergedStreams_sorted strs).sublist hB).and hN).imp_of_mem fun {a b} ha hb ho => ?_
  obtain ⟨⟨_, _, pending, hAt, rfl, -⟩, -⟩ := (hM a).mp (hB.subset ha)
  obtain ⟨⟨_, _, pending', hAt', rfl, -⟩, -⟩ := (hM b).mp (hB.subset hb)
  have hL : pending.event.rank < pending'.event.rank := lt_of_le_of_ne ho.1 fun hE =>
    ho.2 (congrArg RunEvent.eventKey (RunEvent.rank_injective hE))
  rcases RunEvent.rank_lt_iff.mp hL with hn | ⟨hT, hI | ⟨hI, -⟩⟩
  · exact .inl hn
  · exact .inr ⟨hT, hI⟩
  · exact absurd (h.ids _ _ _ _ hAt hAt' hI) ho.2

theorem Flushed.scanPacked_eq (h : Flushed p live last) (sc : PackedScan) : ∃ es, Presents live sc es ∧
      ∀ {τ T : Type} (pr : EventKey → Nat → StateT τ (Result) (Option T)),
        scanPacked p sc pr = present sc.limit pr es := by
  have hT : ∀ fm pf ev, p.PostsLive fm pf ev → ev.createdAt ≤ u64Max := fun fm pf ev hP => by
    obtain ⟨pn, hAt, rfl, -⟩ := (h.refines fm pf ev).mp hP
    exact h.times _ _ hAt
  obtain ⟨sr, streams, hs, hG, hS⟩ := scanSources_ok h.catalogOk sc hT
  refine ⟨_, h.presents hS, fun {τ T} pr => ?_⟩
  unfold scanPacked present
  by_cases hZ : sc.limit = some 0
  · rw [if_pos hZ, if_pos hZ]
  · rw [if_neg hZ, if_neg hZ, hs, ← forIn_visitHead, ← merge_eq_mergedStreams hG hS.sorted]
    rfl

/-- Whatever history of flushes produced the catalog, a scan presents the wanted live events. -/
theorem scan_presents_live (h : Reaches p live last) (scan : PackedScan) :
    ∃ events, Presents live scan events ∧
      ∀ {τ T : Type} (project : EventKey → Nat → StateT τ (Result) (Option T)),
        scanPacked p scan project = present scan.limit project events :=
  h.flushed.scanPacked_eq scan

def tagScan : PackedScan := ⟨.tag, [tagIndexPrefix 112 [1]], 0, u64Max, none, some 1⟩

omit [ShardHash] in
theorem scan_laterNotes : ∃ p events, @Reaches oneShard p (laterNotes.apply (firstNotes.apply ∅)) 3 ∧
    Presents (laterNotes.apply (firstNotes.apply ∅)) tagScan events ∧
    ∀ (project : EventKey → Nat → StateT (List EventKey) (Result) (Option Nat)),
      @scanPacked oneShard _ _ p tagScan project = present (some 1) project events := by
  let _ := oneShard
  obtain ⟨p, hReaches⟩ := reaches_laterNotes
  obtain ⟨events, hPresents, hScan⟩ := scan_presents_live hReaches tagScan
  exact ⟨p, events, hReaches, hPresents, fun project => hScan project⟩

end Scans

end NmpStore.Postings

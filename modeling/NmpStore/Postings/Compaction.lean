import NmpStore.Postings.Capacity
import NmpStore.Postings.Walk

/-! # What a compacted segment stands for

Each source of a compaction has its own dictionary, a set of dead keys and a map from its ordinals to the output
dictionary.
-/

namespace NmpStore.Postings

structure MapsTo (dictionary output : Dictionary) (dead : EventKey → Bool) (ordinalMap : List (Option Nat)) : Prop where
  length_eq : ordinalMap.length = dictionary.length
  dead_none : ∀ (ordinal : Nat) (entry : EventKey × Nat), dictionary[ordinal]? = some entry → dead entry.1 = true →
    ordinalMap[ordinal]? = some none
  live_some : ∀ (ordinal : Nat) (entry : EventKey × Nat), dictionary[ordinal]? = some entry → dead entry.1 = false →
    ∃ copy, ordinalMap[ordinal]? = some (some copy) ∧ output[copy]? = some entry

def liveEvents (dictionary : Dictionary) (dead : EventKey → Bool) (postings : List Posting) : List RunEvent :=
  (resolve dictionary postings).filter (fun event => !dead event.eventKey)

def liveEntries (output : Dictionary) (ordinalMap : List (Option Nat)) (postings : List Posting) : List (RunEvent × Nat) :=
  postings.filterMap fun posting => do
    let copy ← (← ordinalMap[posting.ordinal]?)
    let entry ← output[copy]?
    pure (⟨posting.createdAt, entry.2, entry.1⟩, copy)

def Readable (output : Dictionary) (ordinalMap : List (Option Nat)) (postings : List Posting) : Prop :=
  ∀ posting ∈ postings, ordinalMap[posting.ordinal]? = some none ∨
    ∃ copy entry, ordinalMap[posting.ordinal]? = some (some copy) ∧ output[copy]? = some entry

variable {dead : EventKey → Bool}

theorem MapsTo.readable (h : MapsTo dict o dead ordMap)
    (hB : ∀ ps ∈ p, ps.ordinal < dict.length) : Readable o ordMap p := by
  intro ps hP
  have hL := hB ps hP
  have hA := getElem?_eq_getElem hL
  cases hD : dead dict[ps.ordinal].1 with
  | true => exact .inl (h.dead_none _ _ hA hD)
  | false =>
    obtain ⟨cp, hC, hE⟩ := h.live_some _ _ hA hD
    exact .inr ⟨cp, _, hC, hE⟩

theorem MapsTo.liveEntries_fst (h : MapsTo dict o dead ordMap)
    (hB : ∀ ps ∈ p, ps.ordinal < dict.length) :
    (liveEntries o ordMap p).map Prod.fst = liveEvents dict dead p := by
  induction p with
  | nil => rfl
  | cons ps p ih =>
    have hR := ih fun q hq => hB q (.tail _ hq)
    have hL := hB ps (.head _)
    have hAt := getElem?_eq_getElem hL
    unfold liveEntries liveEvents resolve at hR ⊢
    simp only [List.filterMap_cons, hAt, map_some, List.filter_cons]
    cases hD : dead dict[ps.ordinal].1 with
    | true =>
      simp only [h.dead_none _ _ hAt hD]
      simpa using hR
    | false =>
      obtain ⟨cp, hC, hE⟩ := h.live_some _ _ hAt hD
      simp only [hC, Option.bind_eq_bind, bind_some, hE, Option.pure_def]
      simpa using hR

theorem getElem?_of_mem_liveEntries (h : ent ∈ liveEntries o ordMap p) :
    o[ent.2]? = some (ent.1.eventKey, ent.1.id) := by
  obtain ⟨ps, -, hS⟩ := mem_filterMap.mp h
  simp only [Option.bind_eq_bind, bind_eq_some_iff, Option.pure_def, Option.some.injEq] at hS
  obtain ⟨_, -, copy, -, e, hAt, rfl⟩ := hS
  exact hAt

def Unread (output : Dictionary) (list : CompactionList) (entries : List (RunEvent × Nat)) : Prop :=
  Readable output list.ordinalMap list.postings ∧ entries = liveEntries output list.ordinalMap list.postings

theorem nextCompactionPosting_streams (o : Dictionary) : KWayMerge.Streams (fun list : CompactionList =>
      nextCompactionPosting o list.ordinalMap list.postings) (Unread o) := by
  rintro ⟨od, p⟩ en ⟨hR, rfl⟩
  induction p with
  | nil => exact ⟨⟨od, []⟩, by simp [nextCompactionPosting, liveEntries], hR, by simp [liveEntries]⟩
  | cons ps p ih =>
    have hr : Readable o od p := fun q hq => hR q (.tail _ hq)
    rcases hR ps (.head _) with hD | ⟨cp, entry, hC, hE⟩
    · obtain ⟨s', hN, hU⟩ := ih hr
      have hS : liveEntries o od (ps :: p) = liveEntries o od p := by
        simp [liveEntries, hD]
      exact ⟨s', by simpa [nextCompactionPosting, hD, hS] using hN, by simpa [hS] using hU⟩
    have hT : liveEntries o od (ps :: p) =
        (⟨ps.createdAt, entry.2, entry.1⟩, cp) :: liveEntries o od p := by
      simp [liveEntries, hC, hE]
    refine ⟨⟨od, p⟩, ?_, hr, by simp [hT]⟩
    simp [nextCompactionPosting, hC, dictionaryEvent, hE, hT]

def writtenPosting (entry : RunEvent × Nat) : Posting := ⟨entry.1.createdAt, entry.2⟩

/-- Over entries in strict order with distinct ordinals the writer drops nothing; it stops only when the
postings of the prefix no longer fit their 32-bit count. -/
theorem forIn_visitCompactionPosting (en : List (RunEvent × Nat)) (done : CompactedPostings)
    (hs : en.Pairwise (fun a b => a.1.rank < b.1.rank ∧ a.2 ≠ b.2))
    (hP : ∀ pr, done.previous = some pr → ∀ e ∈ en, pr.1.rank < e.1.rank ∧ pr.2 ≠ e.2) :
    (do let done ← forIn en done visitCompactionPosting
        pure done.postings : Except String (List Posting)) =
      if en = [] ∨ done.postings.length + en.length ≤ u32Max then
        .ok (done.postings ++ en.map writtenPosting)
      else .error "posting count exceeds u32" := by
  induction en generalizing done with
  | nil => simp [pure, Except.pure]
  | cons et en ih =>
    obtain ⟨hf, hR⟩ := pairwise_cons.mp hs
    have hN : ¬ done.previous.map Prod.snd = some et.2 := by
      intro hm
      obtain ⟨pr, hp, hE⟩ := map_eq_some_iff.mp hm
      exact (hP pr hp et (.head _)).2 hE
    have hI : ¬ done.previous.any (fun pr => canonicalOrder pr.1 et.1 ≠ .lt) = true := by
      rw [any_eq_true]
      rintro ⟨pr, hp, hY⟩
      have := canonicalOrder_eq_lt_iff.mpr (hP pr hp et (.head _)).1
      simp [this] at hY
    by_cases hF : done.postings.length + 1 > u32Max
    · have hn : ¬ (et :: en = [] ∨ done.postings.length + (et :: en).length ≤ u32Max) := by
        simp only [length_cons, reduceCtorEq, false_or]
        omega
      rw [if_neg hn]
      simp only [List.forIn_cons, visitCompactionPosting, if_neg hN, if_neg hI, if_pos hF]
      rfl
    have hS := ih ⟨done.postings ++ [writtenPosting et], some et⟩ hR (by
      rintro pr hp e he
      cases hp
      exact hf e he)
    have hC : (en = [] ∨ (done.postings ++ [writtenPosting et]).length + en.length ≤ u32Max) ↔
        (et :: en = [] ∨ done.postings.length + (et :: en).length ≤ u32Max) := by
      simp only [length_append, length_cons, List.length_nil, reduceCtorEq, false_or]
      constructor
      · rintro (rfl | h)
        · simp only [List.length_nil]
          omega
        · omega
      · intro h
        exact .inr (by omega)
    simp only [List.forIn_cons, visitCompactionPosting, if_neg hN, if_neg hI, if_neg hF, pure_bind]
    simp only [hC] at hS
    simpa [writtenPosting] using hS

def listEntries (output : Dictionary) (sources : List CompactionSegmentSource) (lists : List (Nat × List Posting)) :
    List (RunEvent × Nat) :=
  lists.flatMap fun list => liveEntries output (ordinalMapOf sources list.1) list.2

structure Mergeable (output : Dictionary) (sources : List CompactionSegmentSource) (lists : List (Nat × List Posting)) :
    Prop where
  readable : ∀ list ∈ lists, Readable output (ordinalMapOf sources list.1) list.2
  sorted : ∀ list ∈ lists, (liveEntries output (ordinalMapOf sources list.1) list.2).Pairwise
    (fun a b => a.1.rank ≤ b.1.rank)
  keysNodup : ((listEntries output sources lists).map (fun entry => entry.1.eventKey)).Nodup

theorem mergePostings_eq (h : Mergeable out srcs lists) :
    ∃ m : List (RunEvent × Nat), m.Perm (listEntries out srcs lists) ∧
      m.Pairwise (fun a b => a.1.rank < b.1.rank ∧ a.2 ≠ b.2) ∧ mergePostings out srcs lists =
        if m = [] ∨ m.length ≤ u32Max then .ok (m.map writtenPosting)
        else .error "posting count exceeds u32" := by
  let st := lists.map fun list => liveEntries out (ordinalMapOf srcs list.1) list.2
  have hD : List.Forall₂ (Unread out)
      (lists.map fun list => (⟨ordinalMapOf srcs list.1, list.2⟩ : CompactionList)) st := by
    rw [List.forall₂_map_left_iff, List.forall₂_map_right_iff]
    exact forall₂_same.mpr fun list hI => ⟨h.readable list hI, rfl⟩
  have hs : ∀ l ∈ st, l.Pairwise (fun a b => a.1.rank ≤ b.1.rank) := by
    intro l hl
    obtain ⟨list, hI, rfl⟩ := mem_map.mp hl
    exact h.sorted list hI
  have hF : st.flatten = listEntries out srcs lists := (List.flatMap_def ..).symm
  have hf : st.flatten.length ≤ (lists.flatMap Prod.snd).length := by
    rw [hF, listEntries, List.length_flatMap, List.length_flatMap]
    exact List.sum_le_sum fun list _ => List.length_filterMap_le ..
  obtain ⟨m, hP, hLe, hL⟩ := KWayMerge.merge_eq_forIn (nextCompactionPosting_streams out)
    (fun en => en.1.rank) hD hs hf
  have hk : (m.map (fun en => en.1.eventKey)).Nodup := (hP.map _).nodup_iff.mpr h.keysNodup
  have hT : m.Pairwise (fun a b => a.1.rank < b.1.rank ∧ a.2 ≠ b.2) := by
    refine (hLe.and (pairwise_map.mp hk)).imp_of_mem ?_
    intro a b ha hb ⟨hab, hK⟩
    refine ⟨lt_of_le_of_ne hab fun hE => hK (by rw [RunEvent.rank_injective hE]), fun ho => hK ?_⟩
    have hU : ∀ e ∈ m, out[e.2]? = some (e.1.eventKey, e.1.id) := by
      intro e he
      obtain ⟨list, -, hM⟩ := mem_flatMap.mp (hP.mem_iff.mp he)
      exact getElem?_of_mem_liveEntries hM
    have hS := (hU a ha).symm.trans ((congrArg (fun o => out[o]?) ho).trans (hU b hb))
    simp only [Option.some.injEq, Prod.mk.injEq] at hS
    exact hS.1
  refine ⟨m, hP, hT, ?_⟩
  rw [mergePostings, hL]
  simpa using forIn_visitCompactionPosting m {} hT (by simp)

theorem postingListHasLive_eq (h : Readable o ordMap p) :
    postingListHasLive ordMap p = .ok (!(liveEntries o ordMap p).isEmpty) := by
  induction p with
  | nil => rfl
  | cons ps p ih =>
    have hR : Readable o ordMap p := fun q hq => h q (.tail _ hq)
    rcases h ps (.head _) with hD | ⟨cp, entry, hC, hE⟩
    · have hS : liveEntries o ordMap (ps :: p) = liveEntries o ordMap p := by
        simp [liveEntries, hD]
      rw [postingListHasLive, hD, hS]
      exact ih hR
    · simp [postingListHasLive, hC, liveEntries, hE, pure, Except.pure]

theorem hasLive_eq (h : ∀ list ∈ li, Readable o (ordinalMapOf srcs list.1) list.2) :
    hasLive srcs li = .ok (!(listEntries o srcs li).isEmpty) := by
  suffices hL : ∀ lv, li.foldlM (fun lv list => do
      let fd ← postingListHasLive (ordinalMapOf srcs list.1) list.2
      pure (lv || fd)) lv = (.ok (lv || !(listEntries o srcs li).isEmpty) : Except String Bool) by
    simpa [hasLive] using hL false
  induction li with
  | nil => simp [listEntries, pure, Except.pure]
  | cons list li ih =>
    intro lv
    have hR := ih fun l hl => h l (.tail _ hl)
    rw [foldlM_cons, postingListHasLive_eq (h list (.head _))]
    refine (hR _).trans ?_
    simp only [listEntries, flatMap_cons, Bool.or_assoc]
    cases liveEntries o (ordinalMapOf srcs list.1) list.2 <;> simp

def liveWalk (output : Dictionary) (sources : List CompactionSegmentSource)
    (walk : List MergedPrefix) : List MergedPrefix :=
  walk.filter fun entry => !(listEntries output sources entry.2).isEmpty

theorem countLiveCompactionPrefixes_eq (h : ∀ en ∈ wl, Mergeable o srcs en.2) :
    countLiveCompactionPrefixes srcs wl = .ok (liveWalk o srcs wl).length := by
  suffices hL : ∀ cn, wl.foldlM (fun cn en => do
      let live ← hasLive srcs en.2
      pure (if live then cn + 1 else cn)) cn =
        (.ok (cn + (liveWalk o srcs wl).length) : Except String Nat) by
    simpa [countLiveCompactionPrefixes] using hL 0
  induction wl with
  | nil => simp [liveWalk, pure, Except.pure]
  | cons en wl ih =>
    intro cn
    have hR := ih fun e he => h e (.tail _ he)
    rw [foldlM_cons, hasLive_eq (h en (.head _)).readable]
    refine (hR _).trans ?_
    unfold liveWalk
    rw [List.filter_cons]
    split <;> simp_all
    omega

def Written (output : Dictionary) (sources : List CompactionSegmentSource)
    (entry : MergedPrefix) (record : PrefixRecord) : Prop :=
  record.pfx = entry.1 ∧ ∃ merged : List (RunEvent × Nat), merged.Perm (listEntries output sources entry.2) ∧
    merged.Pairwise (fun a b => a.1.rank < b.1.rank ∧ a.2 ≠ b.2) ∧ merged ≠ [] ∧
    record.postings = merged.map writtenPosting

theorem compactRecords_ok (h : ∀ en ∈ wl, Mergeable o srcs en.2)
    (ho : compactRecords o srcs len wl = .ok recs) :
    List.Forall₂ (Written o srcs) (liveWalk o srcs wl) recs := by
  induction wl generalizing len recs with
  | nil =>
    obtain rfl : [] = recs := by simpa [compactRecords] using ho
    exact .nil
  | cons en wl ih =>
    obtain ⟨p, list⟩ := en
    have hM := h _ (.head _)
    have hR : ∀ e ∈ wl, Mergeable o srcs e.2 := fun e he => h e (.tail _ he)
    unfold liveWalk at ih ⊢
    simp only [compactRecords, hasLive_eq hM.readable] at ho
    cases hL : (listEntries o srcs list).isEmpty with
    | true =>
      simp only [hL, Bool.not_true] at ho
      rw [List.filter_cons_of_neg (by simp [hL])]
      exact ih hR ho
    | false =>
      simp only [hL, Bool.not_false] at ho
      rw [List.filter_cons_of_pos (by simp [hL])]
      obtain ⟨merged, hp, hS, hE⟩ := mergePostings_eq hM
      obtain ⟨lv, hl, ho⟩ := bind_ok.mp ho
      cases hl
      simp only [↓reduceIte, run_ok] at ho
      obtain ⟨-, -, -, -, postings, hP, -, -, rest, hr, rfl⟩ := ho
      rw [hE] at hP
      split at hP
      · cases hP
        refine .cons ⟨rfl, merged, hp, hS, ?_, rfl⟩ (ih hR hr)
        rintro rfl
        rw [List.nil_perm.mp hp] at hL
        cases hL
      · cases hP

section Segment

variable [ShardHash]

structure CompactionInput where
  source : CompactionSegmentSource
  dictionary : Dictionary
  dead : EventKey → Bool

/-- Inputs of one compaction: sound segments, ordinal maps into one output dictionary, no key shared. -/
structure Compactable (family : Family) (shard : Nat) (output : Dictionary) (inputs : List CompactionInput) : Prop where
  segmentOk : ∀ input ∈ inputs, SegmentOk input.dictionary family shard input.source.segment
  mapsTo : ∀ input ∈ inputs, MapsTo input.dictionary output input.dead input.source.ordinalMap
  disjoint : inputs.Pairwise (fun a b => ∀ entry ∈ a.dictionary, ∀ entry' ∈ b.dictionary, entry.1 ≠ entry'.1)

def PostsLive (inputs : List CompactionInput) (pfx : Bytes) (event : RunEvent) : Prop :=
  ∃ input ∈ inputs, input.source.segment.Posts input.dictionary pfx event ∧ input.dead event.eventKey = false

variable {inputs : List CompactionInput}

section
omit [ShardHash]

theorem key_mem_of_mem_resolve (h : ev ∈ resolve dict p) : (ev.eventKey, ev.id) ∈ dict := by
  obtain ⟨ps, -, hS⟩ := mem_filterMap.mp h
  obtain ⟨e, hAt, rfl⟩ := map_eq_some_iff.mp hS
  exact mem_of_getElem? hAt

theorem Walked.record_of_mem (hW : Walked (inputs.map fun i => i.source.segment.records) walk)
    (hE : e ∈ walk)
    (hL : list ∈ e.2) : ∃ i, inputs[list.1]? = some i ∧ ⟨e.1, list.2⟩ ∈ i.source.segment.records ∧
      ordinalMapOf (inputs.map CompactionInput.source) list.1 = i.source.ordinalMap := by
  obtain ⟨dr, hAt, hR⟩ := (hW.lists e hE list.1 list.2).mp hL
  simp only [List.getElem?_map, map_eq_some_iff] at hAt
  obtain ⟨i, hI, rfl⟩ := hAt
  exact ⟨i, hI, hR, by simp [ordinalMapOf, hI]⟩

end

theorem Compactable.mergeable (h : Compactable f sh o inputs)
    (hW : Walked (inputs.map fun i => i.source.segment.records) walk)
    (hE : ent ∈ walk) :
    Mergeable o (inputs.map CompactionInput.source) ent.2 := by
  have hF : ∀ list ∈ ent.2, ∃ i, inputs[list.1]? = some i ∧ i ∈ inputs ∧
      RecordOk i.dictionary f sh ⟨ent.1, list.2⟩ ∧
      ordinalMapOf (inputs.map CompactionInput.source) list.1 = i.source.ordinalMap ∧
      (liveEntries o i.source.ordinalMap list.2).map Prod.fst =
        liveEvents i.dictionary i.dead list.2 := by
    intro list hL
    obtain ⟨i, hAt, hR, hA⟩ := hW.record_of_mem hE hL
    have hM := mem_of_getElem? hAt
    have hOk := (h.segmentOk i hM).record _ hR
    exact ⟨i, hAt, hM, hOk, hA, (h.mapsTo i hM).liveEntries_fst hOk.bounded⟩
  refine ⟨?_, ?_, ?_⟩
  · intro list hL
    obtain ⟨i, -, hM, hOk, hA, -⟩ := hF list hL
    rw [hA]
    exact (h.mapsTo i hM).readable hOk.bounded
  · intro list hL
    obtain ⟨i, -, -, hOk, hA, hl⟩ := hF list hL
    rw [hA]
    have hS : (liveEvents i.dictionary i.dead list.2).Pairwise (fun a b => a.rank ≤ b.rank) :=
      (hOk.sorted.filter _).imp le_of_lt
    rw [← hl, pairwise_map] at hS
    exact hS
  have hk : ∀ list ∈ ent.2, ∃ i, inputs[list.1]? = some i ∧
      ((liveEntries o (ordinalMapOf (inputs.map CompactionInput.source) list.1) list.2).map
        (fun e => e.1.eventKey)).Nodup ∧
      ∀ k ∈ (liveEntries o (ordinalMapOf (inputs.map CompactionInput.source) list.1) list.2).map
        (fun e => e.1.eventKey), ∃ id, (k, id) ∈ i.dictionary := by
    intro list hL
    obtain ⟨i, hAt, -, hOk, hA, hl⟩ := hF list hL
    have hm : (liveEntries o (ordinalMapOf (inputs.map CompactionInput.source) list.1) list.2).map
        (fun e => e.1.eventKey) = (liveEvents i.dictionary i.dead list.2).map RunEvent.eventKey := by
      rw [hA, ← hl, map_map]
      rfl
    rw [hm]
    refine ⟨i, hAt, hOk.keysNodup.sublist (List.filter_sublist.map _), fun k hK => ?_⟩
    obtain ⟨ev, he, rfl⟩ := mem_map.mp hK
    exact ⟨ev.id, key_mem_of_mem_resolve (mem_filter.mp he).1⟩
  rw [listEntries, List.map_flatMap, List.nodup_flatMap]
  refine ⟨fun list hL => ?_, ?_⟩
  · obtain ⟨-, -, hD, -⟩ := hk list hL
    exact hD
  refine (pairwise_map.mp (hW.sources ent hE)).imp_of_mem fun {a b} ha hb hN k hka hkb => ?_
  obtain ⟨i, hAt, -, hn⟩ := hk a ha
  obtain ⟨i', hAt', -, hn'⟩ := hk b hb
  obtain ⟨id, hI⟩ := hn k hka
  obtain ⟨id', hI'⟩ := hn' k hkb
  obtain ⟨hi, rfl⟩ := getElem?_eq_some_iff.mp hAt
  obtain ⟨hj, rfl⟩ := getElem?_eq_some_iff.mp hAt'
  have hP := List.pairwise_iff_getElem.mp h.disjoint
  rcases Nat.lt_or_gt_of_ne hN with hlt | hlt
  · exact hP _ _ hi hj hlt _ hI _ hI' rfl
  · exact hP _ _ hj hi hlt _ hI' _ hI rfl

theorem Compactable.posts_iff (h : Compactable f sh o inputs)
    (hW : Walked (inputs.map fun ip => ip.source.segment.records) walk) :
    (∃ e ∈ walk, e.1 = p ∧
      ev ∈ (listEntries o (inputs.map CompactionInput.source) e.2).map Prod.fst) ↔
      PostsLive inputs p ev := by
  simp only [listEntries, List.map_flatMap, mem_flatMap]
  constructor
  · rintro ⟨e, hE, rfl, list, hl, he⟩
    obtain ⟨ip, hAt, hr, hm⟩ := hW.record_of_mem hE hl
    have hM := mem_of_getElem? hAt
    have ho := (h.segmentOk ip hM).record _ hr
    rw [hm, (h.mapsTo ip hM).liveEntries_fst ho.bounded] at he
    obtain ⟨hR, hL⟩ := mem_filter.mp he
    exact ⟨ip, hM, ⟨_, hr, rfl, hR⟩, by simpa using hL⟩
  · rintro ⟨ip, hM, ⟨r, hr, rfl, hR⟩, hL⟩
    obtain ⟨i, hAt⟩ := List.mem_iff_getElem?.mp hM
    obtain ⟨e, hE, hP⟩ := hW.complete _ (mem_map.mpr ⟨ip, hM, rfl⟩) r hr
    have hl : (i, r.postings) ∈ e.2 :=
      (hW.lists e hE i r.postings).mpr
        ⟨ip.source.segment.records, by simp [hAt], by rw [hP]; exact hr⟩
    have ho := (h.segmentOk ip hM).record _ hr
    refine ⟨e, hE, hP, _, hl, ?_⟩
    have hm : ordinalMapOf (inputs.map CompactionInput.source) i = ip.source.ordinalMap := by
      simp [ordinalMapOf, hAt]
    simp only [hm, (h.mapsTo ip hM).liveEntries_fst ho.bounded]
    exact mem_filter.mpr ⟨hR, by simp [hL]⟩

section
omit [ShardHash]

theorem output_of_mem_listEntries (h : e ∈ listEntries o srcs lists) :
    o[e.2]? = some (e.1.eventKey, e.1.id) := by
  obtain ⟨list, -, hM⟩ := mem_flatMap.mp h
  exact getElem?_of_mem_liveEntries hM

theorem resolve_writtenPosting {m : List (RunEvent × Nat)}
    (h : ∀ en ∈ m, o[en.2]? = some (en.1.eventKey, en.1.id)) :
    resolve o (m.map writtenPosting) = m.map Prod.fst := by
  induction m with
  | nil => rfl
  | cons en m ih =>
    have hR := ih fun e he => h e (.tail _ he)
    unfold resolve at hR ⊢
    simp [writtenPosting, h en (.head _), ← hR]

end

theorem Written.recordOk {en : MergedPrefix} (h : Written o srcs en r)
    (hM : Mergeable o srcs en.2) (hS : shardFor f en.1 = sh) :
    RecordOk o f sh r ∧ ∀ ev, ev ∈ resolve o r.postings ↔
      ev ∈ (listEntries o srcs en.2).map Prod.fst := by
  obtain ⟨hf, merged, hm, hs, hN, hP⟩ := h
  have hU : ∀ e ∈ merged, o[e.2]? = some (e.1.eventKey, e.1.id) := fun e he =>
    output_of_mem_listEntries (hm.mem_iff.mp he)
  have hR := resolve_writtenPosting hU
  rw [← hP] at hR
  refine ⟨⟨?_, hf ▸ hS, ?_, ?_, ?_⟩, fun ev => ?_⟩
  · simpa [hP] using hN
  · intro ps hp
    rw [hP] at hp
    obtain ⟨e, he, rfl⟩ := mem_map.mp hp
    exact (getElem?_eq_some_iff.mp (hU e he)).1
  · rw [hR, pairwise_map]
    exact hs.imp And.left
  · rw [hR, map_map]
    exact (hm.map _).nodup_iff.mpr hM.keysNodup
  · rw [hR]
    exact (hm.map Prod.fst).mem_iff

theorem Compactable.shardFor_eq (h : Compactable f sh o inputs)
    (hW : Walked (inputs.map fun i => i.source.segment.records) walk)
    (hE : e ∈ walk) : shardFor f e.1 = sh := by
  obtain ⟨dr, hD, record, hR, hP⟩ := hW.present e hE
  obtain ⟨i, hM, rfl⟩ := mem_map.mp hD
  rw [← hP]
  exact ((h.segmentOk i hM).record record hR).inShard

theorem Compactable.walked (h : Compactable f sh o inputs) :
    Walked (inputs.map fun i => i.source.segment.records)
      (walkDirectories (inputs.map fun i => i.source.segment.records).flatten.length
        (inputs.map fun i => i.source.segment.records)) := by
  refine walkDirectories_walked _ (fun dr hD => ?_) le_rfl
  obtain ⟨i, hM, rfl⟩ := mem_map.mp hD
  exact (h.segmentOk i hM).directory

def Compacted (family : Family) (shard : Nat) (output : Dictionary) (inputs : List CompactionInput)
    (result : Option Segment) : Prop :=
  (∀ segment, result = some segment → SegmentOk output family shard segment ∧ segment.records ≠ []) ∧
    ∀ pfx event, (∃ segment, result = some segment ∧ segment.Posts output pfx event) ↔ PostsLive inputs pfx event

theorem Compactable.compacted (h : Compactable f shard o inputs)
    (hW : Walked (inputs.map fun i => i.source.segment.records) walk)
    (hR : List.Forall₂ (Written o (inputs.map CompactionInput.source))
      (liveWalk o (inputs.map CompactionInput.source) walk) recs) (hN : recs ≠ []) :
    Compacted f shard o inputs (some ⟨f, shard, recs⟩) := by
  have hM : ∀ e ∈ liveWalk o (inputs.map CompactionInput.source) walk, e ∈ walk := fun e he =>
    (mem_filter.mp he).1
  have hr : ∀ e record, e ∈ walk → Written o (inputs.map CompactionInput.source) e record →
      _ := fun e record he hw => hw.recordOk (h.mergeable hW he) (h.shardFor_eq hW he)
  refine ⟨?_, fun p ev => ?_⟩
  · intro g hS
    obtain rfl := (Option.some.inj hS).symm
    refine ⟨⟨rfl, rfl, ?_, fun record hC => ?_⟩, hN⟩
    · exact Grouping.pairwise_of_forall₂ hR
        (fun a b a' b' ha hb hL => by rw [ha.1, hb.1]; exact hL) (hW.sorted.filter _)
    · obtain ⟨e, hn, hw⟩ := Grouping.exists_of_mem_right hR hC
      exact (hr e record (hM e hn) hw).1
  rw [← h.posts_iff hW]
  constructor
  · rintro ⟨g, hS, record, hC, rfl, hv⟩
    obtain rfl := (Option.some.inj hS).symm
    obtain ⟨e, hn, hw⟩ := Grouping.exists_of_mem_right hR hC
    exact ⟨e, hM e hn, hw.1.symm, ((hr e record (hM e hn) hw).2 ev).mp hv⟩
  · rintro ⟨e, hn, rfl, hv⟩
    have hl : e ∈ liveWalk o (inputs.map CompactionInput.source) walk := by
      refine mem_filter.mpr ⟨hn, ?_⟩
      cases hE : listEntries o (inputs.map CompactionInput.source) e.2 with
      | nil => simp [hE] at hv
      | cons _ _ => rfl
    obtain ⟨record, hC, hw⟩ := Grouping.exists_of_mem_left hR hl
    exact ⟨_, rfl, record, hC, hw.1, ((hr e record hn hw).2 ev).mpr hv⟩

theorem Compactable.compacted_none (h : Compactable f sh o inputs)
    (hW : Walked (inputs.map fun i => i.source.segment.records) walk)
    (hZ : liveWalk o (inputs.map CompactionInput.source) walk = []) :
    Compacted f sh o inputs none := by
  refine ⟨by simp, fun p ev => ?_⟩
  rw [← h.posts_iff hW]
  constructor
  · rintro ⟨g, hn, -⟩
    cases hn
  · rintro ⟨e, hN, -, he⟩
    have hD := filter_eq_nil_iff.mp hZ e hN
    cases hE : listEntries o (inputs.map CompactionInput.source) e.2 with
    | nil => simp [hE] at he
    | cons _ _ => simp [hE] at hD

theorem compactSegment_ok (h : Compactable f sh o inputs)
    (ho : compactSegment f sh (inputs.map CompactionInput.source) o = .ok res) :
    Compacted f sh o inputs res := by
  have hW := h.walked
  have hM : ∀ e : MergedPrefix, e ∈ _ →
      Mergeable o (inputs.map CompactionInput.source) e.2 := fun _ he => h.mergeable hW he
  unfold compactSegment at ho
  split at ho
  · cases ho
    rename_i hE
    obtain rfl : inputs = [] := by simpa using hE
    exact ⟨by simp, by simp [PostsLive]⟩
  simp only [map_map, bind_ok] at ho
  obtain ⟨-, -, prefixCount, hc, ho⟩ := ho
  have hC := countLiveCompactionPrefixes_eq hM
  have hp := Except.ok.inj (hC.symm.trans hc)
  split at ho
  · rename_i hZ
    cases ho
    exact h.compacted_none hW (List.eq_nil_of_length_eq_zero (hp.trans hZ))
  rename_i hP
  simp only [run_ok] at ho
  obtain ⟨-, -, records, hr, -, hL, rfl⟩ := ho
  have hR := compactRecords_ok hM hr
  refine h.compacted hW hR fun hN => hP ?_
  rw [← hp, hR.length_eq, hN, List.length_nil]

theorem checkRecords_ok
    (ho : Ordered rc) (hP : ∀ p, pv = some p → ∀ r ∈ rc, compare p r.pfx = .lt)
    (hR : ∀ r ∈ rc, r.postings ≠ [] ∧ shardFor f r.pfx = sh) :
    checkRecords f sh pv rc = .ok () := by
  induction rc generalizing pv with
  | nil => rfl
  | cons re rc ih =>
    obtain ⟨hF, he⟩ := pairwise_cons.mp ho
    obtain ⟨hN, hS⟩ := hR re (.head _)
    simp only [checkRecords, bind_ok, refuseIf_ok]
    refine ⟨(), by simpa using hN, (), ?_, (), by simpa using hS,
      ih he (fun p hp r hr => ?_) fun r hr => hR r (.tail _ hr)⟩
    · rw [any_eq_true]
      rintro ⟨p, hp, hG⟩
      simp [hP p hp re (.head _)] at hG
    · cases hp
      exact hF r hr

theorem SegmentOk.validatePrefixDirectory_ok {g : Segment}
    (h : SegmentOk dict f sh g) : validatePrefixDirectory g = .ok () := by
  unfold validatePrefixDirectory
  rw [h.family_eq, h.shard_eq]
  exact checkRecords_ok h.directory (by simp) fun r hr => ⟨(h.record r hr).nonempty, (h.record r hr).inShard⟩

def writtenMemberships (family : Family) (shard : Nat) (output : Dictionary) (sources : List CompactionSegmentSource)
    (walk : List MergedPrefix) : List Membership :=
  walk.flatMap fun entry => (listEntries output sources entry.2).map fun e => ⟨family, shard, entry.1, e.1⟩

section
omit [ShardHash]

theorem recordLen_le (p : Bytes) (hn : 0 < n) : 4 + recordLen p n ≤ n * (24 + p.length) := by
  have ho : p.length ≤ n * p.length := Nat.le_mul_of_pos_left _ hn
  rw [Nat.mul_add]
  simp only [recordLen, postingEntryLen]
  omega

theorem sum_writtenMemberships (f : Family) (shard : Nat) (o : Dictionary)
    (sr : List CompactionSegmentSource) (wl : List MergedPrefix) :
    ((writtenMemberships f shard o sr wl).map membershipBytes).sum =
      (wl.map fun en => (listEntries o sr en.2).length * (24 + en.1.length)).sum := by
  induction wl with
  | nil => rfl
  | cons en wl ih =>
    unfold writtenMemberships at ih ⊢
    rw [flatMap_cons, map_append, List.sum_append, ih, map_cons, List.sum_cons, map_map]
    congr 1
    have hC : (membershipBytes ∘ fun e : RunEvent × Nat => (⟨f, shard, en.1, e.1⟩ : Membership)) =
        fun _ => 24 + en.1.length := rfl
    rw [hC, List.map_const', List.sum_replicate_nat]

def writtenLen (output : Dictionary) (sources : List CompactionSegmentSource)
    (walk : List MergedPrefix) : Nat :=
  ((liveWalk output sources walk).map fun entry => recordLen entry.1 (listEntries output sources entry.2).length).sum

theorem sum_recordLen_le (f : Family) (sh : Nat) (o : Dictionary) (sr : List CompactionSegmentSource)
    (wl : List MergedPrefix) :
    4 * (liveWalk o sr wl).length + writtenLen o sr wl ≤
      ((writtenMemberships f sh o sr (liveWalk o sr wl)).map membershipBytes).sum := by
  have hC : 4 * (liveWalk o sr wl).length = ((liveWalk o sr wl).map fun _ => 4).sum := by
    rw [List.map_const', List.sum_replicate_nat, Nat.mul_comm]
  rw [sum_writtenMemberships, hC, writtenLen, ← List.sum_map_add]
  refine List.sum_le_sum fun e hE => recordLen_le _ (List.length_pos_iff.mpr ?_)
  simpa using (mem_filter.mp hE).2

theorem compactRecords_progress (ln : Nat) (h : ∀ en ∈ wl, Mergeable o srcs en.2)
    (hL : ln + writtenLen o srcs wl ≤ u32Max) :
    ∃ records, compactRecords o srcs ln wl = .ok records := by
  induction wl generalizing ln with
  | nil => exact ⟨[], rfl⟩
  | cons en wl ih =>
    obtain ⟨p, list⟩ := en
    have hM := h _ (.head _)
    have hR : ∀ e ∈ wl, Mergeable o srcs e.2 := fun e he => h e (.tail _ he)
    unfold writtenLen liveWalk at ih hL
    simp only [compactRecords, hasLive_eq hM.readable]
    cases hl : (listEntries o srcs list).isEmpty with
    | true =>
      rw [List.filter_cons_of_neg (by simp [hl])] at hL
      exact ih ln hR hL
    | false =>
      rw [List.filter_cons_of_pos (by simp [hl]), map_cons, List.sum_cons] at hL
      simp only [recordLen, postingEntryLen] at hL
      obtain ⟨m, hP, -, hE⟩ := mergePostings_eq hM
      have hC := hP.length_eq
      rw [if_pos (.inr (by simp only [hC]; omega))] at hE
      obtain ⟨records, hr⟩ := ih (ln + recordLen p (m.map writtenPosting).length) hR (by
        simp only [length_map, hC, recordLen, postingEntryLen]
        omega)
      have hN : m ≠ [] := fun hZ => by
        rw [hZ, List.nil_perm] at hP
        simp [hP] at hl
      refine ⟨⟨p, m.map writtenPosting⟩ :: records, bind_ok.mpr ⟨true, rfl, ?_⟩⟩
      simp only [↓reduceIte, run_ok, refuseIf_ok]
      exact ⟨(), by omega, (), by omega, _, hE, (), by simpa using hN, records, hr, rfl⟩

end

theorem Compactable.writtenMemberships_nodup (h : Compactable f sh o inputs)
    (hW : Walked (inputs.map fun i => i.source.segment.records) walk) :
    (writtenMemberships f sh o (inputs.map CompactionInput.source)
      (liveWalk o (inputs.map CompactionInput.source) walk)).Nodup := by
  rw [writtenMemberships, List.nodup_flatMap]
  constructor
  · intro en hE
    have hK := (h.mergeable hW (mem_filter.mp hE).1).keysNodup
    exact pairwise_map.mpr ((pairwise_map.mp hK).imp fun hN he =>
      hN (congrArg (fun m : Membership => m.event.eventKey) he))
  · refine (hW.sorted.filter _).imp fun {a b} hL => ?_
    intro m ha hb
    obtain ⟨e, -, rfl⟩ := mem_map.mp ha
    obtain ⟨e', -, he⟩ := mem_map.mp hb
    have hP : b.1 = a.1 := congrArg Membership.pfx he
    rw [hP] at hL
    simp at hL

theorem Compactable.writtenLen_le (h : Compactable f sh o inputs)
    (hW : Walked (inputs.map fun i => i.source.segment.records) walk)
    (hR : ∀ ms : List Membership, ms.Nodup → (∀ m ∈ ms, m.family = f ∧ m.shard = sh ∧
      PostsLive inputs m.pfx m.event) → runBytes ms ≤ u32Max) :
    segmentHeaderLen + 4 * (liveWalk o (inputs.map CompactionInput.source) walk).length +
      writtenLen o (inputs.map CompactionInput.source) walk ≤ u32Max := by
  have hF := hR _ (h.writtenMemberships_nodup hW) (by
    intro m hm
    obtain ⟨en, hE, hm⟩ := mem_flatMap.mp hm
    obtain ⟨e, he, rfl⟩ := mem_map.mp hm
    exact ⟨rfl, rfl, (h.posts_iff hW).mp
      ⟨en, (mem_filter.mp hE).1, rfl, mem_map_of_mem he⟩⟩)
  have hL := sum_recordLen_le f sh o (inputs.map CompactionInput.source) walk
  unfold runBytes at hF
  omega

theorem compactSegment_progress (h : Compactable f shard o inputs)
    (hR : ∀ ms : List Membership, ms.Nodup → (∀ m ∈ ms, m.family = f ∧ m.shard = shard ∧
      PostsLive inputs m.pfx m.event) → runBytes ms ≤ u32Max) :
    ∃ rs, compactSegment f shard (inputs.map CompactionInput.source) o = .ok rs := by
  have hW := h.walked
  have hM : ∀ e : MergedPrefix, e ∈ _ →
      Mergeable o (inputs.map CompactionInput.source) e.2 := fun _ he => h.mergeable hW he
  unfold compactSegment
  split
  · exact ⟨none, rfl⟩
  have hC : forM (inputs.map CompactionInput.source) (checkCompactionSource f shard) = .ok () := by
    refine forM_ok.mpr fun s hS => ?_
    obtain ⟨i, hI, rfl⟩ := mem_map.mp hS
    have ho := h.segmentOk i hI
    simp only [checkCompactionSource, bind_ok, refuseIf_ok]
    exact ⟨(), by simp [ho.family_eq, ho.shard_eq], ho.validatePrefixDirectory_ok⟩
  simp only [map_map, Function.comp_def, bind_ok]
  suffices hr : ∃ rs, _ from hr.imp fun _ hs => ⟨(), hC, _, countLiveCompactionPrefixes_eq hM, hs⟩
  split
  · exact ⟨none, rfl⟩
  have hF := h.writtenLen_le hW hR
  obtain ⟨records, hE⟩ := compactRecords_progress (segmentHeaderLen + 4 * _) hM hF
  refine ⟨some ⟨f, shard, records⟩, ?_⟩
  simp only [run_ok, refuseIf_ok]
  exact ⟨(), by omega, records, hE, (), not_not.mpr (compactRecords_ok hM hE).length_eq.symm, rfl⟩

end Segment

end NmpStore.Postings

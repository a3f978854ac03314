import NmpStore.Postings.Run

/-! # What an encoded run stands for

A dictionary turns the postings of a prefix back into events.
-/

namespace NmpStore.Postings

variable [ShardHash]

def resolve (dictionary : Dictionary) (postings : List Posting) : List RunEvent :=
  postings.filterMap fun posting =>
    dictionary[posting.ordinal]?.map fun entry => ⟨posting.createdAt, entry.2, entry.1⟩

structure RecordOk (dictionary : Dictionary) (family : Family) (shard : Nat) (record : PrefixRecord) : Prop where
  nonempty : record.postings ≠ []
  inShard : shardFor family record.pfx = shard
  bounded : ∀ posting ∈ record.postings, posting.ordinal < dictionary.length
  sorted : (resolve dictionary record.postings).Pairwise (fun a b => a.rank < b.rank)
  keysNodup : ((resolve dictionary record.postings).map RunEvent.eventKey).Nodup

structure SegmentOk (dictionary : Dictionary) (family : Family) (shard : Nat) (segment : Segment) : Prop where
  family_eq : segment.family = family
  shard_eq : segment.shard = shard
  directory : segment.records.Pairwise (fun a b => compare a.pfx b.pfx = .lt)
  record : ∀ record ∈ segment.records, RecordOk dictionary family shard record

def Segment.Posts (dictionary : Dictionary) (segment : Segment) (pfx : Bytes) (event : RunEvent) : Prop :=
  ∃ record ∈ segment.records, record.pfx = pfx ∧ event ∈ resolve dictionary record.postings

structure Consistent (memberships : List Membership) : Prop where
  inShard : ∀ m ∈ memberships, m.shard = shardFor m.family m.pfx
  event_of_key : ∀ m ∈ memberships, ∀ m' ∈ memberships, m.event.eventKey = m'.event.eventKey → m.event = m'.event
  key_of_id : ∀ m ∈ memberships, ∀ m' ∈ memberships, m.event.id = m'.event.id → m.event.eventKey = m'.event.eventKey

variable {m a b : Membership} {α V : Type} {t : Table Nat V} {next : CheckedMemberships}
  {ordinals : EventKey → Option Nat}

omit [ShardHash] in
/-- A list in which equal keys have equal values may get one more element that agrees with all of it. -/
theorem forall_append_singleton {K W : Type} {key : Membership → K} {value : Membership → W}
    (h : ∀ a ∈ done, ∀ b ∈ done, key a = key b → value a = value b) (hN : ∀ a ∈ done, key m = key a → value m = value a) :
    ∀ a ∈ done ++ [m], ∀ b ∈ done ++ [m], key a = key b → value a = value b := by
  intro a ha b hb he
  rcases mem_append.mp ha with hO | hN' <;> rcases mem_append.mp hb with hO' | hN''
  · exact h a hO b hO' he
  · obtain rfl := mem_singleton.mp hN''
    exact (hN a hO he.symm).symm
  · obtain rfl := mem_singleton.mp hN'
    exact hN b hO' he
  · rw [mem_singleton.mp hN', mem_singleton.mp hN'']

theorem Consistent.append (h : Consistent done) (hS : m.shard = shardFor m.family m.pfx)
    (hE : ∀ m' ∈ done, m.event.eventKey = m'.event.eventKey → m.event = m'.event)
    (hK : ∀ m' ∈ done, m.event.id = m'.event.id → m.event.eventKey = m'.event.eventKey) :
    Consistent (done ++ [m]) where
  inShard := by
    intro a ha
    rcases mem_append.mp ha with ha | ha
    · exact h.inShard a ha
    · rwa [mem_singleton.mp ha]
  event_of_key := forall_append_singleton h.event_of_key hE
  key_of_id := forall_append_singleton h.key_of_id hK

def Files {α V : Type} (key : α → Nat) (value : α → V) (done : List α) (t : Table Nat V) : Prop :=
  ∀ k v, t[k]? = some v ↔ ∃ a ∈ done, key a = k ∧ value a = v

section
omit [ShardHash]

variable {value : α → V} {key : α → Nat}

theorem Files.insert (h : Files key value done t) {a : α} (hN : t[key a]? = none) :
    Files key value (done ++ [a]) (t.insert (key a) (value a)) := by
  intro k v
  rw [get_insert]
  by_cases hk : key a = k
  · subst hk
    have hF : ∀ b ∈ done, key b ≠ key a := fun b hb he => by
      rw [(h _ _).mpr ⟨b, hb, he, rfl⟩] at hN
      cases hN
    simp only [↓reduceIte, Option.some.injEq, mem_append, mem_singleton]
    exact ⟨fun hv => ⟨a, .inr rfl, rfl, hv⟩, fun ⟨b, hb, he, hv⟩ => by
      rcases hb with hb | rfl
      · exact absurd he (hF b hb)
      · exact hv⟩
  · simp only [hk, ↓reduceIte, h k v, mem_append, mem_singleton]
    exact ⟨fun ⟨b, hb, he⟩ => ⟨b, .inl hb, he⟩, fun ⟨b, hb, he⟩ => by
      rcases hb with hb | rfl
      · exact ⟨b, hb, he⟩
      · exact absurd he.1 hk⟩

theorem Files.again
    (h : Files key value done t) {a : α} (hS : t[key a]? = some (value a)) : Files key value (done ++ [a]) t := by
  intro k v
  rw [h k v]
  obtain ⟨c, hc, hck, hcv⟩ := (h _ _).mp hS
  constructor
  · rintro ⟨b, hb, he⟩
    exact ⟨b, mem_append_left _ hb, he⟩
  · rintro ⟨b, hb, hk, hv⟩
    rcases mem_append.mp hb with hb | hb
    · exact ⟨b, hb, hk, hv⟩
    · obtain rfl := mem_singleton.mp hb
      exact ⟨c, hc, hck.trans hk, hcv.trans hv⟩

end

structure Checked (done : List Membership) (checked : CheckedMemberships) : Prop where
  ids : Files (fun m => m.event.eventKey) (fun m => m.event.id) done checked.idsByKey
  times : Files (fun m => m.event.eventKey) (fun m => m.event.createdAt) done checked.createdAtByKey
  used : ∀ i, i ∈ checked.ids ↔ ∃ m ∈ done, m.event.id = i
  consistent : Consistent done

theorem Checked.nil : Checked [] {} where
  ids := by simp [Files]
  times := by simp [Files]
  used := by simp
  consistent := ⟨by simp, by simp, by simp⟩

section
omit [ShardHash]

theorem checkId_cases (h : checkId chk ev = .ok next) :
    (chk.idsByKey[ev.eventKey]? = none ∧ ev.id ∉ chk.ids ∧ next = { chk with
      ids := ev.id :: chk.ids
      idsByKey := chk.idsByKey.insert ev.eventKey ev.id }) ∨
    (chk.idsByKey[ev.eventKey]? = some ev.id ∧ next = chk) := by
  unfold checkId at h
  split at h
  · split at h <;> simp_all
  · split at h <;> simp_all

theorem checkCreatedAt_cases (h : checkCreatedAt ch ev = .ok next) :
    (ch.createdAtByKey[ev.eventKey]? = none ∧
      next = { ch with createdAtByKey := ch.createdAtByKey.insert ev.eventKey ev.createdAt }) ∨
    (ch.createdAtByKey[ev.eventKey]? = some ev.createdAt ∧ next = ch) := by
  unfold checkCreatedAt at h
  split at h
  · simp_all
  · split at h <;> simp_all

end

theorem Checked.step (h : Checked done chk) (hm : checkMembership chk m = .ok next) : Checked (done ++ [m]) next := by
  unfold checkMembership at hm
  split at hm
  · simp at hm
  rename_i hW
  have hs : m.shard = shardFor m.family m.pfx := not_not.mp hW
  obtain ⟨md, hId, hT⟩ := bind_ok.mp hm
  have hE : ∀ m' ∈ done, m.event.eventKey = m'.event.eventKey → m.event = m'.event := by
    intro m' hm' hK
    have hI := (h.ids m'.event.eventKey m'.event.id).mpr ⟨m', hm', rfl, rfl⟩
    have ht := (h.times m'.event.eventKey m'.event.createdAt).mpr ⟨m', hm', rfl, rfl⟩
    rcases checkId_cases hId with ⟨h1, -, rfl⟩ | ⟨h1, rfl⟩
    · rw [hK, hI] at h1
      cases h1
    rcases checkCreatedAt_cases hT with ⟨h3, -⟩ | ⟨h3, -⟩
    · rw [hK, ht] at h3
      cases h3
    rw [hK, hI] at h1
    rw [hK, ht] at h3
    exact RunEvent.ext (Option.some.inj h3).symm (Option.some.inj h1).symm hK
  have hK : ∀ m' ∈ done, m.event.id = m'.event.id → m.event.eventKey = m'.event.eventKey := by
    intro m' hm' hS
    rcases checkId_cases hId with ⟨-, h2, -⟩ | ⟨h1, -⟩
    · exact absurd ((h.used _).mpr ⟨m', hm', hS.symm⟩) h2
    · obtain ⟨m'', hm'', hk, hi⟩ := (h.ids _ _).mp h1
      exact hk.symm.trans (h.consistent.key_of_id m'' hm'' m' hm' (hi.trans hS))
  refine ⟨?_, ?_, ?_, h.consistent.append hs hE hK⟩
  · rcases checkId_cases hId with ⟨h1, -, rfl⟩ | ⟨h1, rfl⟩ <;>
      rcases checkCreatedAt_cases hT with ⟨-, rfl⟩ | ⟨-, rfl⟩
    · exact h.ids.insert h1
    · exact h.ids.insert h1
    · exact h.ids.again h1
    · exact h.ids.again h1
  · have hD : md.createdAtByKey = chk.createdAtByKey := by
      rcases checkId_cases hId with ⟨-, -, rfl⟩ | ⟨-, rfl⟩ <;> rfl
    rcases checkCreatedAt_cases hT with ⟨h3, rfl⟩ | ⟨h3, rfl⟩
    · rw [hD] at h3 ⊢
      exact h.times.insert h3
    · rw [hD] at h3 ⊢
      exact h.times.again h3
  intro i
  have hN : next.ids = md.ids := by
    rcases checkCreatedAt_cases hT with ⟨-, rfl⟩ | ⟨-, rfl⟩ <;> rfl
  rw [hN]
  rcases checkId_cases hId with ⟨-, -, rfl⟩ | ⟨h1, rfl⟩
  · simp [h.used, or_comm, eq_comm, or_and_right, exists_or]
  obtain ⟨m', hm', -, hi⟩ := (h.ids _ _).mp h1
  rw [h.used]
  constructor
  · rintro ⟨b, hb, he⟩
    exact ⟨b, mem_append_left _ hb, he⟩
  · rintro ⟨b, hb, he⟩
    rcases mem_append.mp hb with hb | hb
    · exact ⟨b, hb, he⟩
    · obtain rfl := mem_singleton.mp hb
      exact ⟨m', hm', hi.trans he⟩

theorem Checked.progress (h : Checked done chk) (hc : Consistent (done ++ [m])) : ∃ next, checkMembership chk m = .ok next := by
  have hs := hc.inShard m (by simp)
  have hS : ∀ m' ∈ done, m'.event.eventKey = m.event.eventKey → m'.event = m.event := fun m' hm' =>
    hc.event_of_key m' (mem_append_left _ hm') m (by simp)
  have hI : ∃ md, checkId chk m.event = .ok md ∧ md.createdAtByKey = chk.createdAtByKey := by
    unfold checkId
    cases hA : chk.idsByKey[m.event.eventKey]? with
    | none =>
      have hF : m.event.id ∉ chk.ids := by
        rw [h.used]
        rintro ⟨m', hm', hi⟩
        have hk := hc.key_of_id m' (mem_append_left _ hm') m (by simp) hi
        rw [(h.ids _ _).mpr ⟨m', hm', hk, rfl⟩] at hA
        cases hA
      exact ⟨{ chk with
        ids := m.event.id :: chk.ids
        idsByKey := chk.idsByKey.insert m.event.eventKey m.event.id }, by simp [hF], rfl⟩
    | some i =>
      obtain ⟨m', hm', hk, hi⟩ := (h.ids _ _).mp hA
      obtain rfl : m.event.id = i := hS m' hm' hk ▸ hi
      exact ⟨chk, by simp, rfl⟩
  obtain ⟨md, hD, hT⟩ := hI
  have h1 : ∃ next, checkCreatedAt md m.event = .ok next := by
    unfold checkCreatedAt
    rw [hT]
    cases hA : chk.createdAtByKey[m.event.eventKey]? with
    | none => exact ⟨_, rfl⟩
    | some t =>
      obtain ⟨m', hm', hk, ht⟩ := (h.times _ _).mp hA
      obtain rfl : m.event.createdAt = t := hS m' hm' hk ▸ ht
      exact ⟨md, by simp⟩
  obtain ⟨next, hN⟩ := h1
  exact ⟨next, by simp [checkMembership, hs, hD, hN]⟩

theorem checkMemberships_ok (h : mems.foldlM checkMembership {} = .ok chk) : Checked mems chk :=
  foldlM_induction Checked Checked.nil (fun _ _ _ _ _ hD hm => hD.step hm) h

theorem Consistent.mono (h : Consistent l) (hB : l' ⊆ l) : Consistent l' where
  inShard m hm := h.inShard m (hB hm)
  event_of_key m hm m' hm' := h.event_of_key m (hB hm) m' (hB hm')
  key_of_id m hm m' hm' := h.key_of_id m (hB hm) m' (hB hm')

theorem checkMemberships_progress (hc : Consistent mems) :
    ∃ ch, mems.foldlM checkMembership {} = .ok ch := by
  obtain ⟨ch, h, -⟩ := foldlM_progress (f := checkMembership) Checked Checked.nil
    (fun done m ch hP h => by
      obtain ⟨next, hN⟩ := h.progress (hc.mono hP.subset)
      exact ⟨next, hN, h.step hN⟩)
  exact ⟨ch, h⟩

section
omit [ShardHash]

theorem membershipOrder_eq_lt (h : membershipOrder a b = .lt) : (compare (segmentOf a) (segmentOf b)).isLE ∧
      (segmentOf a = segmentOf b → (compare a.pfx b.pfx).isLE ∧ (a.pfx = b.pfx → a.event.rank < b.event.rank)) := by
  change (((compare (segmentOf a) (segmentOf b)).then (compare a.pfx b.pfx)).then
    (canonicalOrder a.event b.event)) = .lt at h
  rw [← canonicalOrder_eq_lt_iff]
  simp only [Ordering.then_eq_lt, Ordering.then_eq_eq, Std.compare_eq_iff_eq] at h
  rcases h with (h | ⟨hs, h⟩) | ⟨⟨hs, hp⟩, h⟩
  · refine ⟨by simp [h], fun hs => ?_⟩
    rw [hs, Std.compare_self] at h
    cases h
  · exact ⟨by simp [hs], fun _ => ⟨by simp [h], fun hp => by simp [hp] at h⟩⟩
  · exact ⟨by simp [hs], fun _ => ⟨by simp [hp], fun _ => h⟩⟩

theorem membershipOrder_eq_eq (h : membershipOrder a b = .eq) : sameMembership a b := by
  simp only [membershipOrder, canonicalOrder, Ordering.then_eq_eq, Std.compare_eq_iff_eq] at h
  obtain ⟨⟨⟨hf, -⟩, hp⟩, -, hk⟩ := h
  simp [sameMembership, Family.toU8_injective hf, hp, hk]

theorem sortMemberships_pairwise (mm : List Membership) :
    (sortMemberships mm).Pairwise (fun a b => membershipOrder a b = .lt) := by
  have hS : (sortMemberships mm).Pairwise (fun a b => (membershipOrder a b).isLE) :=
    (Grouping.insertionSort_pairwise membershipOrder mm).sublist (List.destutter_sublist _ _)
  have hc : (sortMemberships mm).IsChain (fun a b => ¬ sameMembership a b) :=
    List.isChain_destutter _ _
  have hT : IsTrans Membership (fun a b => membershipOrder a b = .lt) := ⟨fun _ _ _ => Std.TransCmp.lt_trans⟩
  refine List.isChain_iff_pairwise.mp (List.isChain_iff_getElem.mpr fun i hi => ?_)
  have hL := List.pairwise_iff_getElem.mp hS i (i + 1) (by omega) hi (by omega)
  have hN := List.isChain_iff_getElem.mp hc i hi
  cases hC : membershipOrder (sortMemberships mm)[i] (sortMemberships mm)[i + 1] with
  | lt => rfl
  | eq => exact absurd (membershipOrder_eq_eq hC) hN
  | gt =>
    rw [hC] at hL
    cases hL

end

theorem mem_sortMemberships (hc : Consistent mems) : m ∈ sortMemberships mems ↔ m ∈ mems := by
  constructor
  · intro hm
    exact (perm_insertionSort _ mems).mem_iff.mp ((List.destutter_sublist _ _).subset hm)
  · intro hm
    obtain ⟨c, hc', hE⟩ := Grouping.exists_of_mem_destutter (R := fun a b => ¬ sameMembership a b)
      ((perm_insertionSort (fun a b => (membershipOrder a b).isLE) mems).mem_iff.mpr hm)
    rcases hE with rfl | hS
    · exact hc'
    have hcm : c ∈ mems :=
      (perm_insertionSort _ mems).mem_iff.mp ((List.destutter_sublist _ _).subset hc')
    simp only [sameMembership, and_eq_true, beq_iff_eq, not_not] at hS
    obtain ⟨⟨hf, hp⟩, hk⟩ := hS
    have he := hc.event_of_key c hcm m hm hk
    have hs := (hc.inShard c hcm).trans (by rw [hf, hp, ← hc.inShard m hm])
    obtain rfl : c = m := by
      cases c
      cases m
      simp_all
    exact hc'

section
omit [ShardHash]

theorem encodePrefixRecord_ok (h : encodePrefixRecord ordinals p group = .ok r) :
    r.pfx = p ∧ List.Forall₂ (fun m pst => ordinals m.event.eventKey = some pst.ordinal ∧
      pst.createdAt = m.event.createdAt) group r.postings := by
  simp only [encodePrefixRecord, run_ok, mapM_ok] at h
  obtain ⟨-, -, -, -, postings, hP, rfl⟩ := h
  refine ⟨rfl, hP.imp fun m pst hm => ?_⟩
  split at hm
  · simp at hm
  rename_i od ho
  cases hm
  exact ⟨ho, rfl⟩

theorem encodeRecords_ok (h : encodeRecords ordinals len gr = .ok recs) :
    List.Forall₂ (fun gro record =>
      encodePrefixRecord ordinals ((gro.head?.map Membership.pfx).getD []) gro = .ok record) gr recs := by
  induction gr generalizing len recs with
  | nil =>
    obtain rfl : [] = recs := by simpa [encodeRecords] using h
    exact .nil
  | cons gro gr ih =>
    simp only [encodeRecords, run_ok] at h
    obtain ⟨-, -, record, hR, rest, hr, rfl⟩ := h
    exact .cons hR (ih hr)

theorem ordinalOf_eq_some
    (h : ordinalOf dict eventKey = some ord) : ∃ id, dict[ord]? = some (eventKey, id) := by
  obtain ⟨hL, hK, -⟩ := List.findIdx?_eq_some_iff_getElem.mp h
  obtain rfl : dict[ord].1 = eventKey := by simpa using hK
  exact ⟨dict[ord].2, by simp [hL]⟩

theorem resolve_eq_map
    (h : List.Forall₂ (fun m ps => ordinalOf dict m.event.eventKey = some ps.ordinal ∧
      ps.createdAt = m.event.createdAt) gr p)
    (hI : ∀ m ∈ gr, ∀ id, (m.event.eventKey, id) ∈ dict → id = m.event.id) :
    resolve dict p = gr.map Membership.event ∧
      ∀ ps ∈ p, ps.ordinal < dict.length := by
  induction h with
  | nil => simp [resolve]
  | @cons m ps gr p hm _ ih =>
    obtain ⟨id, hAt⟩ := ordinalOf_eq_some hm.1
    obtain rfl := hI m (.head _) id (mem_of_getElem? hAt)
    obtain ⟨hR, hB⟩ := ih fun m' hm' => hI m' (.tail _ hm')
    constructor
    · simp only [resolve, List.filterMap_cons, hAt, map_some, map_cons, List.cons.injEq]
      exact ⟨by rw [hm.2], hR⟩
    · intro q hq
      rcases mem_cons.mp hq with rfl | hq
      · exact (getElem?_eq_some_iff.mp hAt).1
      · exact hB q hq

end

/-- A group of memberships of one segment, in order, and the dictionary they are numbered in. -/
structure SegmentGroup (dictionary : Dictionary) (family : Family) (shard : Nat) (group : List Membership) : Prop where
  family_eq : ∀ m ∈ group, m.family = family
  shard_eq : ∀ m ∈ group, m.shard = shard
  inShard : ∀ m ∈ group, m.shard = shardFor m.family m.pfx
  sorted : group.Pairwise (fun a b => membershipOrder a b = .lt)
  ids : ∀ m ∈ group, ∀ id, (m.event.eventKey, id) ∈ dictionary → id = m.event.id
  event_of_key : ∀ a ∈ group, ∀ b ∈ group, a.event.eventKey = b.event.eventKey → a.event = b.event

theorem SegmentGroup.sublist (h : SegmentGroup dict f sh group) (hs : group'.Sublist group) :
    SegmentGroup dict f sh group' where
  family_eq m hm := h.family_eq m (hs.subset hm)
  shard_eq m hm := h.shard_eq m (hs.subset hm)
  inShard m hm := h.inShard m (hs.subset hm)
  sorted := h.sorted.sublist hs
  ids m hm := h.ids m (hs.subset hm)
  event_of_key a ha b hb := h.event_of_key a (hs.subset ha) b (hs.subset hb)

theorem SegmentGroup.segmentOf_eq (h : SegmentGroup dict f sh group) (ha : a ∈ group) (hb : b ∈ group) :
    segmentOf a = segmentOf b := by
  simp [segmentOf, h.family_eq a ha, h.family_eq b hb, h.shard_eq a ha, h.shard_eq b hb]

theorem recordOk_of_group (h : SegmentGroup dict f sh group) (hN : group ≠ [])
    (hf : ∀ a ∈ group, ∀ b ∈ group, a.pfx = b.pfx)
    (hr : encodePrefixRecord (ordinalOf dict) ((group.head?.map Membership.pfx).getD []) group = .ok r) :
    RecordOk dict f sh r ∧ (∀ m ∈ group, m.pfx = r.pfx) ∧
      resolve dict r.postings = group.map Membership.event := by
  obtain ⟨hp, hP⟩ := encodePrefixRecord_ok hr
  obtain ⟨hR, hB⟩ := resolve_eq_map hP h.ids
  obtain ⟨first, rest, rfl⟩ := List.exists_cons_of_ne_nil hN
  have hF : r.pfx = first.pfx := by simpa using hp
  have hA : ∀ m ∈ first :: rest, m.pfx = r.pfx := fun m hm =>
    (hf m hm first (.head _)).trans hF.symm
  have hS : (first :: rest).Pairwise (fun a b => a.event.rank < b.event.rank) :=
    h.sorted.imp_of_mem fun {a b} ha hb hL =>
      ((membershipOrder_eq_lt hL).2 (h.segmentOf_eq ha hb)).2 (hf a ha b hb)
  refine ⟨⟨?_, ?_, hB, ?_, ?_⟩, hA, hR⟩
  · intro hZ
    rw [hZ] at hP
    cases hP
  · rw [hF, ← h.family_eq first (.head _), ← h.inShard first (.head _)]
    exact h.shard_eq first (.head _)
  · rwa [hR, pairwise_map]
  · rw [hR, map_map, List.Nodup, pairwise_map]
    refine hS.imp_of_mem fun {a b} ha hb hL hK => ?_
    rw [h.event_of_key a ha b hb hK] at hL
    exact lt_irrefl _ hL

theorem encodeSegment_ok {sg : Segment} (h : SegmentGroup dict f sh group)
    (hE : encodeSegment f sh group (ordinalOf dict) = .ok sg) :
    SegmentOk dict f sh sg ∧
      ∀ p ev, sg.Posts dict p ev ↔ ∃ m ∈ group, m.pfx = p ∧ m.event = ev := by
  simp only [encodeSegment, run_ok] at hE
  obtain ⟨-, -, records, hc, rfl⟩ := hE
  have hG : ∀ g ∈ Grouping.groups Membership.pfx group, g.Sublist group := fun g hg => by
    have := List.sublist_flatten_of_mem hg
    rwa [Grouping.flatten_groups] at this
  have hR : List.Forall₂ (fun g r => g ∈ Grouping.groups Membership.pfx group ∧
      RecordOk dict f sh r ∧ (∀ m ∈ g, m.pfx = r.pfx) ∧
      resolve dict r.postings = g.map Membership.event)
      (Grouping.groups Membership.pfx group) records := by
    refine List.forall₂_iff_get.mpr ⟨(encodeRecords_ok hc).length_eq, fun i hi hi' => ?_⟩
    have hM := List.get_mem (Grouping.groups Membership.pfx group) ⟨i, hi⟩
    exact ⟨hM, recordOk_of_group (h.sublist (hG _ hM)) (Grouping.ne_nil_of_mem_groups _ hM)
      (fun a ha b hb => Grouping.key_eq_of_mem_groups _ hM ha hb) ((encodeRecords_ok hc).get hi hi')⟩
  have hS := Grouping.groups_pairwise Membership.pfx (h.sorted.imp_of_mem fun ha hb hL =>
    ((membershipOrder_eq_lt hL).2 (h.segmentOf_eq ha hb)).1)
  refine ⟨⟨rfl, rfl, ?_, ?_⟩, fun p ev => ⟨?_, ?_⟩⟩
  · refine Grouping.pairwise_of_forall₂ hR (fun g g' r r' hg hg' hL => ?_) hS
    obtain ⟨m, hm⟩ := exists_mem_of_ne_nil _ (Grouping.ne_nil_of_mem_groups _ hg.1)
    obtain ⟨m', hm'⟩ := exists_mem_of_ne_nil _ (Grouping.ne_nil_of_mem_groups _ hg'.1)
    rw [← hg.2.2.1 m hm, ← hg'.2.2.1 m' hm']
    exact hL m hm m' hm'
  · intro r hC
    obtain ⟨g, -, hg⟩ := Grouping.exists_of_mem_right hR hC
    exact hg.2.1
  · rintro ⟨r, hC, rfl, he⟩
    obtain ⟨g, -, hg, -, hP, hr⟩ := Grouping.exists_of_mem_right hR hC
    rw [hr] at he
    obtain ⟨m, hm, rfl⟩ := mem_map.mp he
    exact ⟨m, (hG g hg).subset hm, hP m hm, rfl⟩
  · rintro ⟨m, hm, rfl, rfl⟩
    rw [← Grouping.flatten_groups Membership.pfx group] at hm
    obtain ⟨g, hg, hmg⟩ := mem_flatten.mp hm
    obtain ⟨r, hC, -, -, hP, hr⟩ := Grouping.exists_of_mem_left hR hg
    exact ⟨r, hC, (hP m hmg).symm, hr ▸ mem_map.mpr ⟨m, hmg, rfl⟩⟩

structure Encodes (memberships : List Membership) (encoded : EncodedRun) : Prop where
  dictionary_iff : ∀ entry, entry ∈ encoded.dictionary ↔
    ∃ m ∈ memberships, m.event.eventKey = entry.1 ∧ m.event.id = entry.2
  keysSorted : encoded.dictionary.Pairwise (fun a b => a.1 < b.1)
  idsNodup : (encoded.dictionary.map Prod.snd).Nodup
  entries : encoded.dictionaryEntries = encoded.dictionary.length
  distinct : encoded.segments.Pairwise (fun a b => (a.family.toU8, a.shard) ≠ (b.family.toU8, b.shard))
  segmentOk : ∀ segment ∈ encoded.segments, SegmentOk encoded.dictionary segment.family segment.shard segment
  posts_iff : ∀ family pfx event, (∃ segment ∈ encoded.segments, segment.family = family ∧
    segment.Posts encoded.dictionary pfx event) ↔ ∃ m ∈ memberships, m.family = family ∧ m.pfx = pfx ∧ m.event = event

omit [ShardHash] in
theorem encodeDictionary_ok (h : encodeDictionary ents = .ok dict) :
    dict = ents := by
  unfold encodeDictionary at h
  split at h
  · simp at h
  · exact (pure_ok.mp h).symm

theorem Checked.dictionary_iff
    (h : Checked mems chk) (e : EventKey × Nat) : e ∈ chk.idsByKey.toList ↔
      ∃ m ∈ mems, m.event.eventKey = e.1 ∧ m.event.id = e.2 := by
  rw [← h.ids e.1 e.2]
  exact mem_toList

theorem Checked.idsNodup (h : Checked mems chk) : (chk.idsByKey.toList.map Prod.snd).Nodup := by
  refine List.Pairwise.map _ (fun a b hab => hab) (chk.idsByKey.toList_pairwise.imp_of_mem ?_)
  intro a b ha hb hL hI
  obtain ⟨m, hm, hmk, hmi⟩ := (h.dictionary_iff a).mp ha
  obtain ⟨m', hm', hmk', hmi'⟩ := (h.dictionary_iff b).mp hb
  have hK := h.consistent.key_of_id m hm m' hm' (by rw [hmi, hmi', hI])
  rw [← hmk, ← hmk', hK, Std.compare_self] at hL
  cases hL

theorem Checked.segmentGroup (h : Checked mems chk)
    (hg : g ∈ Grouping.groups segmentOf (sortMemberships mems)) (hF : first ∈ g) :
    SegmentGroup chk.idsByKey.toList first.family first.shard g := by
  have hB : g.Sublist (sortMemberships mems) := by
    have := List.sublist_flatten_of_mem hg
    rwa [Grouping.flatten_groups] at this
  have hM : ∀ m ∈ g, m ∈ mems := fun m hm => (mem_sortMemberships h.consistent).mp (hB.subset hm)
  have hS : ∀ m ∈ g, m.family = first.family ∧ m.shard = first.shard := fun m hm => by
    have hK := Grouping.key_eq_of_mem_groups _ hg hm hF
    simp only [segmentOf, Prod.mk.injEq] at hK
    exact ⟨Family.toU8_injective hK.1, hK.2⟩
  refine ⟨fun m hm => (hS m hm).1, fun m hm => (hS m hm).2, fun m hm => h.consistent.inShard m (hM m hm),
    (sortMemberships_pairwise mems).sublist hB, fun m hm id hI => ?_,
    fun a ha b hb => h.consistent.event_of_key a (hM a ha) b (hM b hb)⟩
  obtain ⟨m', hm', hk, hi⟩ := (h.dictionary_iff _).mp hI
  exact h.consistent.event_of_key m' hm' m (hM m hm) hk ▸ hi.symm

theorem encodeRun_ok (h : encodeRun mems = .ok enc) : Encodes mems enc := by
  simp only [encodeRun, run_ok, mapM_ok] at h
  obtain ⟨-, -, checked, hC, -, -, segments, hSegs, dictionary, hD, rfl⟩ := h
  obtain rfl := encodeDictionary_ok hD
  have hc := checkMemberships_ok hC
  have hR : List.Forall₂ (fun g sg => g ∈ Grouping.groups segmentOf (sortMemberships mems) ∧
      SegmentOk checked.idsByKey.toList sg.family sg.shard sg ∧
      (∀ m ∈ g, m.family = sg.family ∧ m.shard = sg.shard) ∧
      ∀ p ev, sg.Posts checked.idsByKey.toList p ev ↔ ∃ m ∈ g, m.pfx = p ∧ m.event = ev)
      (Grouping.groups segmentOf (sortMemberships mems)) segments := by
    refine List.forall₂_iff_get.mpr ⟨hSegs.length_eq, fun i hi hi' => ?_⟩
    have hM := List.get_mem (Grouping.groups segmentOf (sortMemberships mems)) ⟨i, hi⟩
    have hE := hSegs.get hi hi'
    generalize (Grouping.groups segmentOf (sortMemberships mems)).get ⟨i, hi⟩ = g at hM hE ⊢
    generalize segments.get ⟨i, hi'⟩ = sg at hE ⊢
    obtain ⟨first, rest, rfl⟩ := List.exists_cons_of_ne_nil (Grouping.ne_nil_of_mem_groups _ hM)
    have hG := hc.segmentGroup hM (.head _)
    obtain ⟨ho, hP⟩ := encodeSegment_ok hG hE
    have hF := ho.family_eq
    have hS := ho.shard_eq
    exact ⟨hM, hF ▸ hS ▸ ho, fun m hm =>
      ⟨(hG.family_eq m hm).trans hF.symm, (hG.shard_eq m hm).trans hS.symm⟩, hP⟩
  have hl : (sortMemberships mems).Pairwise (fun a b => (compare (segmentOf a) (segmentOf b)).isLE) :=
    (sortMemberships_pairwise mems).imp fun hL => (membershipOrder_eq_lt hL).1
  refine ⟨hc.dictionary_iff, ?_, hc.idsNodup, rfl, ?_, ?_, fun f p ev => ⟨?_, ?_⟩⟩
  · exact checked.idsByKey.toList_pairwise.imp fun hL => compare_lt_iff_lt.mp hL
  · refine Grouping.pairwise_of_forall₂ hR (fun g g' sg sg' hg hg' hL => ?_)
      (Grouping.groups_pairwise segmentOf hl)
    obtain ⟨m, hm⟩ := exists_mem_of_ne_nil _ (Grouping.ne_nil_of_mem_groups _ hg.1)
    obtain ⟨m', hm'⟩ := exists_mem_of_ne_nil _ (Grouping.ne_nil_of_mem_groups _ hg'.1)
    have hmm' := hL m hm m' hm'
    rw [segmentOf, segmentOf, (hg.2.2.1 m hm).1, (hg.2.2.1 m hm).2, (hg'.2.2.1 m' hm').1, (hg'.2.2.1 m' hm').2] at hmm'
    intro he
    rw [he, Std.compare_self] at hmm'
    cases hmm'
  · intro sg hs
    obtain ⟨g, -, hg⟩ := Grouping.exists_of_mem_right hR hs
    exact hg.2.1
  · rintro ⟨sg, hs, rfl, hP⟩
    obtain ⟨g, -, hg, -, hSm, hI⟩ := Grouping.exists_of_mem_right hR hs
    obtain ⟨m, hm, rfl, rfl⟩ := (hI p ev).mp hP
    refine ⟨m, (mem_sortMemberships hc.consistent).mp ?_, (hSm m hm).1, rfl, rfl⟩
    rw [← Grouping.flatten_groups segmentOf (sortMemberships mems)]
    exact mem_flatten.mpr ⟨g, hg, hm⟩
  · rintro ⟨m, hm, rfl, rfl, rfl⟩
    rw [← mem_sortMemberships hc.consistent, ← Grouping.flatten_groups segmentOf (sortMemberships mems)] at hm
    obtain ⟨g, hg, hmg⟩ := mem_flatten.mp hm
    obtain ⟨sg, hs, -, -, hSm, hI⟩ := Grouping.exists_of_mem_left hR hg
    exact ⟨sg, hs, (hSm m hmg).1.symm, (hI _ _).mpr ⟨m, hmg, rfl, rfl⟩⟩

end NmpStore.Postings

import NmpStore.Postings.Filing

/-! # Publishing the additions of a batch

The additions of a batch become one run at level 0, newer than every run before it.
-/

namespace NmpStore.Postings

variable [ShardHash]

def Pends (events : PendingEvents) (family : Family) (pfx : Bytes) (event : RunEvent) : Prop :=
  ∃ pending, events[event.eventKey]? = some pending ∧ pending.event = event ∧ (family, pfx) ∈ pendingMemberships pending

def Keyed (events : PendingEvents) : Prop :=
  ∀ (key : EventKey) pending, events[key]? = some pending → pending.event.eventKey = key

variable {events : PendingEvents} {key : EventKey} {p : Packed} {last : Nat}

theorem mem_membershipsForPending (hK : Keyed events) :
    m ∈ membershipsForPending events ↔ m.shard = shardFor m.family m.pfx ∧ Pends events m.family m.pfx m.event := by
  simp only [membershipsForPending, mem_flatMap, mem_map]
  constructor
  · rintro ⟨⟨key, pending⟩, hW, ⟨f, p⟩, hP, rfl⟩
    have hAt := mem_toList.mp hW
    exact ⟨rfl, pending, by rw [hK key pending hAt]; exact hAt, rfl, hP⟩
  · rintro ⟨hS, pending, hAt, hE, hP⟩
    refine ⟨(m.event.eventKey, pending), mem_toList.mpr hAt, (m.family, m.pfx), hP, ?_⟩
    rw [hE, ← hS]

omit [ShardHash] in
theorem Pends.global (hK : Keyed events) (hA : events[key]? = some pend) : Pends events .global [] pend.event :=
  ⟨pend, by rw [hK key pend hA]; exact hA, rfl, by simp [pendingMemberships]⟩

def writeSegments (runId : Nat) (segments : List Segment) (t : Table (Nat × Nat × Nat) Segment) :
    Table (Nat × Nat × Nat) Segment :=
  segments.foldl (fun t segment => t.insert (segmentKey segment.family segment.shard runId) segment) t

section Segments

omit [ShardHash]

variable {sh : Nat}

theorem writeSegments_other (rn : Nat) (sg : List Segment) (t : Table (Nat × Nat × Nat) Segment)
    {f id : Nat} (hN : id ≠ rn) : (writeSegments rn sg t)[(f, sh, id)]? = t[(f, sh, id)]? := by
  induction sg generalizing t with
  | nil => rfl
  | cons g sg ih =>
    refine (ih (t.insert (segmentKey g.family g.shard rn) g)).trans ?_
    rw [get_insert, if_neg]
    rintro hE
    exact hN (congrArg (fun k : Nat × Nat × Nat => k.2.2) hE).symm

theorem writeSegments_own {g : Segment}
    (hD : sg.Pairwise (fun a b => (a.family.toU8, a.shard) ≠ (b.family.toU8, b.shard)))
    {t : Table (Nat × Nat × Nat) Segment} :
    (writeSegments r sg t)[segmentKey f sh r]? = some g ↔
      (g ∈ sg ∧ g.family = f ∧ g.shard = sh) ∨
        (t[segmentKey f sh r]? = some g ∧ ∀ s ∈ sg, ¬ (s.family = f ∧ s.shard = sh)) := by
  induction sg generalizing t with
  | nil => simp [writeSegments]
  | cons first sg ih =>
    obtain ⟨hF, hR⟩ := pairwise_cons.mp hD
    have hK : segmentKey first.family first.shard r = segmentKey f sh r ↔
        first.family = f ∧ first.shard = sh := by
      constructor
      · intro h
        have := segmentKey_inj h
        exact ⟨congrArg Prod.fst this, congrArg Prod.snd this⟩
      · rintro ⟨rfl, rfl⟩
        rfl
    have hA : first.family = f ∧ first.shard = sh → ∀ s ∈ sg, ¬ (s.family = f ∧ s.shard = sh) := by
      rintro ⟨rfl, rfl⟩ s hs ⟨hf, hh⟩
      exact hF s hs (by rw [hf, hh])
    refine (ih hR (t := t.insert (segmentKey first.family first.shard r) first)).trans ?_
    rw [get_insert]
    by_cases hS : first.family = f ∧ first.shard = sh
    · rw [if_pos (hK.mpr hS)]
      simp only [mem_cons, Option.some.injEq, forall_eq_or_imp, hS, not_true_eq_false, and_self, false_and,
        and_false, or_false]
      constructor
      · rintro (⟨hM, hf, hs⟩ | ⟨rfl, -⟩)
        · exact ⟨.inr hM, hf, hs⟩
        · exact ⟨.inl rfl, hS⟩
      · rintro ⟨rfl | hM, hf, hs⟩
        · exact .inr ⟨rfl, hA hS⟩
        · exact .inl ⟨hM, hf, hs⟩
    · rw [if_neg (hK.not.mpr hS)]
      simp only [mem_cons, forall_eq_or_imp, hS, not_false_eq_true, true_and]
      refine or_congr_left ⟨fun ⟨hM, h⟩ => ⟨.inr hM, h⟩, fun ⟨hM, h⟩ => ⟨hM.resolve_left ?_, h⟩⟩
      rintro rfl
      exact hS h

end Segments

section
omit [ShardHash]

theorem keys_range
    (hA : events[key]? = some pend) : events.keys.head?.getD 0 ≤ key ∧ key ≤ events.keys.getLast?.getD 0 := by
  have hS : events.toList.Pairwise (fun a b => a.1 < b.1) :=
    events.toList_pairwise.imp fun h => compare_lt_iff_lt.mp h
  have hM := mem_toList.mpr hA
  have hN := List.ne_nil_of_mem hM
  rw [← map_fst_toList_eq_keys, List.head?_map, List.getLast?_map]
  refine ⟨head_le_of_sorted hS ?_ _ hM, le_last_of_sorted hS ?_ _ hM⟩
  · simp [List.head?_eq_some_head hN]
  · simp [List.getLast?_eq_some_getLast hN]

theorem exists_of_keys (hN : events ≠ ∅) : (∃ pn, events[events.keys.head?.getD 0]? = some pn) ∧
      ∃ pn, events[events.keys.getLast?.getD 0]? = some pn := by
  have hk : events.keys ≠ [] := fun h => hN (keys_eq_nil_iff.mp h)
  have hS : ∀ key ∈ events.keys, ∃ pn, events[key]? = some pn := fun key hK => by
    rw [← map_fst_toList_eq_keys] at hK
    obtain ⟨r, hW, rfl⟩ := mem_map.mp hK
    exact ⟨r.2, mem_toList.mp hW⟩
  rw [List.head?_eq_some_head hk, List.getLast?_eq_some_getLast hk]
  exact ⟨hS _ (List.head_mem hk), hS _ (List.getLast_mem hk)⟩

def publishedMeta (p : Packed) (events : PendingEvents) (encoded : EncodedRun) : RunMeta :=
  ⟨p.nextId, 0, events.keys.head?.getD 0, events.keys.getLast?.getD 0, encoded.dictionaryEntries⟩

def withRun (p : Packed) (encoded : EncodedRun) : Packed :=
  { p with
    nextRunId := some (p.nextId + 1)
    dictionary := p.dictionary.insert p.nextId encoded.dictionary
    segments := writeSegments p.nextId encoded.segments p.segments }

theorem insertRun_eq (p : Packed) (events : PendingEvents) (en : EncodedRun) :
    insertRun { p with nextRunId := some (p.nextId + 1) } (publishedMeta p events en) en =
      insertRunCatalog (withRun p en) (publishedMeta p events en) := rfl

theorem withRun_prepared (p : Packed) (en : EncodedRun) : Prepared p [] en.dictionary (withRun p en) where
  runMeta := rfl
  byMin := rfl
  dictionary := rfl
  nextRunId := rfl
  segments _ _ _ hN := writeSegments_other _ _ _ hN
  deaths _ _ _ := rfl
  deaths_sub _ _ _ h := h

end

theorem withRun_segment (hi : Indexed p) {segment : Segment} (h : Encodes mems enc) :
    (withRun p enc).segments[segmentKey f sh p.nextId]? = some segment ↔
      segment ∈ enc.segments ∧ segment.family = f ∧ segment.shard = sh := by
  refine (writeSegments_own h.distinct).trans (or_iff_left ?_)
  rintro ⟨hA, -⟩
  exact absurd (hi.segments hA) (lt_irrefl _)

theorem withRun_posts (hi : Indexed p) (hK : Keyed events) (h : Encodes (membershipsForPending events) enc) :
    ((withRun p enc).written (publishedMeta p events enc) enc.dictionary).Posts f pfx ev ↔
      Pends events f pfx ev := by
  have hM : (∃ m ∈ membershipsForPending events, m.family = f ∧ m.pfx = pfx ∧ m.event = ev) ↔
      Pends events f pfx ev := by
    constructor
    · rintro ⟨m, hm, rfl, rfl, rfl⟩
      exact ((mem_membershipsForPending hK).mp hm).2
    · intro hp
      exact ⟨⟨f, shardFor f pfx, pfx, ev⟩, (mem_membershipsForPending hK).mpr ⟨rfl, hp⟩, rfl, rfl, rfl⟩
  rw [← hM, ← h.posts_iff]
  constructor
  · rintro ⟨g, hAt, hP⟩
    obtain ⟨hI, hF, -⟩ := (withRun_segment hi h).mp hAt
    exact ⟨g, hI, hF, hP⟩
  · rintro ⟨g, hI, hF, hP⟩
    have hP' := hP
    obtain ⟨r, hR, rfl, -⟩ := hP'
    have hS := ((h.segmentOk g hI).record r hR).inShard
    rw [hF] at hS
    exact ⟨g, (withRun_segment hi h).mpr ⟨hI, hF, hS.symm⟩, hP⟩

theorem published_runOk (hi : Indexed p) (hk : Keyed events)
    (hN : events ≠ ∅) (hP : ∀ (key : EventKey) pending, events[key]? = some pending → 0 < key)
    (h : Encodes (membershipsForPending events) enc) :
    RunOk ((withRun p enc).written (publishedMeta p events enc) enc.dictionary) := by
  have hE : ∀ e ∈ enc.dictionary, ∃ pending, events[e.1]? = some pending ∧ pending.event.id = e.2 ∧
      pending.event.eventKey = e.1 := by
    intro e hE
    obtain ⟨m, hm, hK, hId⟩ := (h.dictionary_iff e).mp hE
    obtain ⟨-, pending, hAt, he, -⟩ := (mem_membershipsForPending hk).mp hm
    exact ⟨pending, hK ▸ hAt, he ▸ hId, he ▸ hK⟩
  obtain ⟨⟨fr, hF⟩, -⟩ := exists_of_keys hN
  have hD := written_deadKeys (withRun p enc) (publishedMeta p events enc) enc.dictionary
  refine ⟨h.keysSorted, h.idsNodup, hP _ _ hF, fun e hI => ?_, by simp [hD], by simp [hD], ?_, ?_,
    fun f sh g hAt => ?_, fun e hI => ?_⟩
  · obtain ⟨pending, hAt, -⟩ := hE e hI
    exact keys_range hAt
  · rw [hD]
    exact h.entries
  · have hM : (fr.event.eventKey, fr.event.id) ∈ enc.dictionary :=
      (h.dictionary_iff _).mpr ⟨⟨.global, shardFor .global [], [], fr.event⟩,
        (mem_membershipsForPending hk).mpr ⟨rfl, Pends.global hk hF⟩, rfl, rfl⟩
    exact (List.length_pos_of_mem hM).trans_eq h.entries.symm
  · obtain ⟨hI, rfl, rfl⟩ := (withRun_segment hi h).mp hAt
    exact h.segmentOk g hI
  · obtain ⟨pending, hAt, hId, hK⟩ := hE e hI
    have hp := Pends.global hk hAt
    refine ⟨pending.event.createdAt, (withRun_posts hi hk h).mpr ?_⟩
    rwa [← hId, ← hK]

structure Published (p : Packed) (events : PendingEvents) (p' : Packed) : Prop where
  catalogOk : CatalogOk p'
  posts_iff : ∀ family pfx event, p'.PostsLive family pfx event ↔ p.PostsLive family pfx event ∨ Pends events family pfx event
  below : ∀ last, Below p last → (∀ (key : EventKey) pending, events[key]? = some pending → key ≤ last) →
    Below p' last
  levels : p'.levels.Subperm (0 :: p.levels)
  next_eq : p'.nextId = p.nextId + 1

structure Additions (p : Packed) (events : PendingEvents) (last : Nat) : Prop where
  keyed : Keyed events
  nonempty : events ≠ ∅
  below : Below p last
  fresh : ∀ (key : EventKey) pending, events[key]? = some pending → last < key

theorem Additions.runOk (hp : CatalogOk p)
    (ha : Additions p events last) (h : Encodes (membershipsForPending events) enc) :
    RunOk ((withRun p enc).written (publishedMeta p events enc) enc.dictionary) :=
  published_runOk hp.indexed ha.keyed ha.nonempty (fun key pn hA => Nat.zero_lt_of_lt (ha.fresh key pn hA)) h

theorem insertRun_ok (hp : CatalogOk p)
    (ha : Additions p events last) (h : Encodes (membershipsForPending events) enc)
    (ho : insertRunCatalog (withRun p enc) (publishedMeta p events enc) = .ok p') : Published p events p' := by
  obtain ⟨⟨fr, hF⟩, highest, hH⟩ := exists_of_keys ha.nonempty
  have hl : ∀ r o, p.run? r = some o → o.runMeta.Older (publishedMeta p events enc) := by
    intro r o hO
    exact ⟨(ha.below r o hO).trans_lt (ha.fresh _ _ hF), Nat.zero_le _⟩
  have hn : Names p [] := by simp [Names]
  have hR := replaces_of_prepared hp hn (withRun_prepared p enc) rfl
    (fun r o hO _ => .inr (hl r o hO)) ho
  have hr := ha.runOk hp h
  have hC := hp.replace hR fun run hU => by
    cases hU
    exact ⟨hr, fun r o hk => .inr (hl r o hk.1)⟩
  refine ⟨hC, fun f pf ev => ?_, fun bn hL hK r run hU => ?_, ?_, ?_⟩
  · rw [hR.postsLive_iff]
    constructor
    · rintro (⟨run, hU, hP⟩ | ⟨r, run, hk, hP⟩)
      · cases hU
        exact .inr ((withRun_posts hp.indexed ha.keyed h).mp hP.1)
      · exact .inl ⟨r, run, hk.1, hP⟩
    · rintro (⟨r, run, hU, hP⟩ | h1)
      · refine .inr ⟨r, run, ⟨hU, by simp, fun ad hA => ?_⟩, hP⟩
        cases hA
        exact (hp.run_lt_next hU).2.ne'
      · refine .inl ⟨_, rfl, (withRun_posts hp.indexed ha.keyed h).mpr h1, ?_⟩
        rw [written_deadKeys]
        exact not_mem_nil
  · rw [hR.run_eq, runsAfter_some] at hU
    rcases hU with ⟨hN, -⟩ | hk
    · cases hN
      exact hK _ _ hH
    · exact hL r run hk.1
  · have hB := hR.levels_subperm hp hC
    simpa [Packed.written, publishedMeta, Packed.levels] using hB
  · obtain ⟨-, rfl⟩ := insertRunCatalog_ok.mp ho
    rfl

end NmpStore.Postings

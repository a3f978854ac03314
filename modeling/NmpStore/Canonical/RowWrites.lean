import NmpStore.Canonical.Rows

/-! # Rows enter and leave with their index entries

A new row takes a fresh key, so nothing in the tables knows it yet; a removed row takes all its entries with it.
-/

namespace NmpStore.EventTables

open Postings (Flushed PostingsBatch PendingEvent PendingEvents UniqueIds)

variable [ShardHash] {t t' : EventTables} {key : EventKey} {id : EventId} {st : StoredEvent}

variable {last : Nat} {predicate : StoredEvent → Bool}

omit [ShardHash] in
theorem uniqueIds_of_rows {rs : Table EventKey Event}
    (hR : ∀ key : EventKey, live[key]? = rs[key]?.map (prepare · key))
    (hI : ∀ (key key' : EventKey) (ev ev' : Event), rs[key]? = some ev → rs[key']? = some ev' →
      ev.id = ev'.id → key = key') : UniqueIds live := by
  intro key key' pn pn' hA hA' hE
  rw [hR] at hA hA'
  obtain ⟨ev, hEv, rfl⟩ := map_eq_some_iff.mp hA
  obtain ⟨ev', hEv', rfl⟩ := map_eq_some_iff.mp hA'
  exact hI key key' ev ev' hEv hEv' hE

theorem Ok.key_inj (h : t.Ok) (hAt : t.rows[key]? = some ev)
    (hAt' : t.rows[key']? = some ev') (hE : ev.id = ev'.id) : key = key' :=
  Option.some.inj (((h.ids _ _).mpr ⟨ev, hAt, rfl⟩).symm.trans ((h.ids _ _).mpr ⟨ev', hAt', hE.symm⟩))

theorem Ok.unused (h : t.Ok) (hK : t.nextEventKey ≤ key) : t.rows[key]? = none :=
  eq_none_iff_forall_ne_some.mpr fun ev hA => Nat.not_lt.mpr hK (h.fresh key ev hA)

theorem Posted.insert (h : t.Posted live last)
    (hr : t'.rows = t.rows.insert t.nextEventKey ev) (hN : t'.nextEventKey = t.nextEventKey + 1)
    (hB : t'.batch = t.batch.insert (prepare ev t.nextEventKey)) (hP : t'.packed = t.packed)
    (hR : t.nextEventKey ≤ u64Max)
    (hI : ∀ (key key' : EventKey) (ev ev' : Event), t'.rows[key]? = some ev → t'.rows[key']? = some ev' →
      ev.id = ev'.id → key = key') : t'.Posted live last := by
  have ha : ∀ key : EventKey, (t'.batch.apply live)[key]? = t'.rows[key]?.map (prepare · key) := fun key => by
    have hO := h.rows key
    rw [Postings.get_apply] at hO
    rw [Postings.get_apply, hB, hr, PostingsBatch.insert, get_insert, get_insert]
    by_cases hK : t.nextEventKey = key
    · subst hK
      simp [prepare]
    have hK' : (prepare ev t.nextEventKey).event.eventKey ≠ key := hK
    simp only [hK', hK, ↓reduceIte, mem_erase, Std.LawfulEqCmp.compare_eq_iff_eq, ne_eq, not_false_eq_true,
      true_and]
    exact hO
  refine ⟨hP ▸ h.flushed, by rw [hN]; exact h.below.trans (Nat.lt_add_one _), ⟨?_, ?_, ?_, uniqueIds_of_rows ha hI⟩, ha⟩
  · intro key pn hA
    rw [hB, PostingsBatch.insert, get_insert] at hA
    split at hA
    · rename_i hK
      subst hK
      exact ⟨h.below, hR⟩
    · exact h.legal.fresh key pn hA
  · intro key pn hA
    rw [hB, PostingsBatch.insert, get_insert] at hA
    split at hA
    · cases hA
      exact ev.createdAt_le
    · exact h.legal.times key pn hA
  · intro key hD
    rw [hB] at hD
    exact h.legal.alive key (Std.ExtTreeSet.mem_of_mem_erase hD)

theorem Posted.remove (h : t.Posted live last)
    (ht : t.rows[key]? = some ev) (hR : t'.rows = t.rows.erase key) (hN : t'.nextEventKey = t.nextEventKey)
    (hB : t'.batch = t.batch.remove key) (hP : t'.packed = t.packed)
    (hI : ∀ (key key' : EventKey) (ev ev' : Event), t'.rows[key]? = some ev → t'.rows[key']? = some ev' →
      ev.id = ev'.id → key = key') : t'.Posted live last := by
  have hO := h.rows key
  rw [Postings.get_apply, ht] at hO
  cases hA : t.batch.additions[key]? with
  | some ad =>
    have hD : t'.batch.additions = t.batch.additions.erase key ∧ t'.batch.deaths = t.batch.deaths := by
      rw [hB]
      unfold PostingsBatch.remove
      split
      · rename_i hn
        cases hA.symm.trans hn
      · exact ⟨rfl, rfl⟩
    -- the key is newer than everything that is published
    have hG : live[key]? = none := eq_none_iff_forall_ne_some.mpr fun pn hL =>
      Nat.not_le.mpr (h.legal.fresh key ad hA).1 (h.flushed.key_le key pn hL)
    have ha : ∀ o : EventKey, (t'.batch.apply live)[o]? = t'.rows[o]?.map (prepare · o) := fun o => by
      have hX := h.rows o
      rw [Postings.get_apply] at hX
      rw [Postings.get_apply, hD.1, hD.2, hR, get_erase, get_erase]
      by_cases hE : key = o
      · subst hE
        simp [hG]
      · simpa [hE] using hX
    refine ⟨hP ▸ h.flushed, hN ▸ h.below, ⟨?_, ?_, ?_, uniqueIds_of_rows ha hI⟩, ha⟩
    · intro o pn hX
      rw [hD.1, get_erase] at hX
      split at hX
      · cases hX
      · exact h.legal.fresh o pn hX
    · intro o pn hX
      rw [hD.1, get_erase] at hX
      split at hX
      · cases hX
      · exact h.legal.times o pn hX
    · intro o hd
      exact h.legal.alive o (hD.2 ▸ hd)
  | none =>
    have hD : t'.batch.additions = t.batch.additions ∧ t'.batch.deaths = t.batch.deaths.insert key := by
      rw [hB]
      unfold PostingsBatch.remove
      split
      · exact ⟨rfl, rfl⟩
      · rename_i hS
        cases hA.symm.trans hS
    have hL : (live[key]?).isSome := by
      rw [hA, Option.none_or] at hO
      split at hO
      · cases hO
      · simp [hO]
    have ha : ∀ o : EventKey, (t'.batch.apply live)[o]? = t'.rows[o]?.map (prepare · o) := fun o => by
      have hX := h.rows o
      rw [Postings.get_apply] at hX
      rw [Postings.get_apply, hD.1, hD.2, hR, get_erase]
      by_cases hE : key = o
      · subst hE
        simp [hA]
      · simpa [hE] using hX
    refine ⟨hP ▸ h.flushed, hN ▸ h.below, ⟨?_, ?_, ?_, uniqueIds_of_rows ha hI⟩, ha⟩
    · exact fun o pn hX => h.legal.fresh o pn (hD.1 ▸ hX)
    · exact fun o pn hX => h.legal.times o pn (hD.1 ▸ hX)
    intro o hd
    rw [hD.2, mem_insert] at hd
    rcases hd with hE | hd
    · rw [← Std.LawfulEqCmp.compare_eq_iff_eq.mp hE]
      exact hL
    · exact h.legal.alive o hd

section
omit [ShardHash]

theorem insertSeen_ok (h : o.Ok) (hP : o.Positive) (hn : ∀ r, o.seenAt key r = none)
    {se : Table RelayUrl Nat} (ho : se.toList.foldlM (insertObservation key) o = .ok o') :
    o'.Ok ∧ o'.Positive ∧ ∀ ot ur, o'.seenAt ot ur = if ot = key then se[ur]? else o.seenAt ot ur := by
  have hk : (se.toList.map Prod.fst).Nodup :=
    List.Pairwise.map _ (fun a b (hL : compare a.1 b.1 = .lt) he => by simp [he] at hL) se.toList_pairwise
  have hl := foldlM_induction (f := insertObservation key)
    (fun done m => m.Ok ∧ m.Positive ∧ ∀ ot ur, m.seenAt ot ur =
      if ot = key ∧ ur ∈ done.map Prod.fst then se[ur]? else o.seenAt ot ur)
    ⟨h, hP, fun ot ur => by simp⟩
    (fun done e m next hp hD hx => by
      obtain ⟨hm, hI, hS⟩ := hD
      simp only [insertObservation, run_ok] at hx
      obtain ⟨⟨gr, _⟩, hG, rfl⟩ := hx
      obtain ⟨h1, hX, ht⟩ := Observations.mergeObservation_ok hm hI hG
      have hE : se[e.1]? = some e.2 := mem_toList.mp (hp.subset (by simp))
      -- the relay has not come up before, so its time is taken as it is
      have hN : e.1 ∉ done.map Prod.fst := fun hM => by
        have hd := hk.sublist (hp.sublist.map Prod.fst)
        rw [map_append, nodup_append] at hd
        exact hd.2.2 _ hM _ (by simp) rfl
      have hF : m.seenAt key e.1 = none := by rw [hS, if_neg (fun hB => hN hB.2), hn]
      refine ⟨h1, hX, fun ot ur => ?_⟩
      rw [ht, hF, hS]
      simp only [Observations.latest, Option.getD_none, Nat.zero_max]
      grind) ho
  obtain ⟨ho', hP', hS⟩ := hl
  refine ⟨ho', hP', fun ot ur => ?_⟩
  rw [hS]
  by_cases hK : ot = key
  · subst hK
    rw [if_pos rfl]
    split
    · rfl
    rename_i hU
    rw [hn]
    refine (eq_none_iff_forall_ne_some.mpr fun time hA => hU ⟨rfl, ?_⟩).symm
    exact mem_map.mpr ⟨(ur, time), mem_toList.mpr hA, rfl⟩
  · simp [hK]

structure Inserts (t : EventTables) (event : Event) (provenance : Provenance) (t' : EventTables) : Prop where
  room : t.nextEventKey + 1 ≤ u64Max
  next : t'.nextEventKey = t.nextEventKey + 1
  rows : t'.rows = t.rows.insert t.nextEventKey event
  eventIds : t'.eventIds = t.eventIds.insert event.id t.nextEventKey
  locals : ∀ key : EventKey, t'.locals[key]? =
    if t.nextEventKey = key then provenance.localOrigin.or t.locals[key]? else t.locals[key]?
  observations : provenance.seen.toList.foldlM (insertObservation t.nextEventKey) t.observations = .ok t'.observations
  addrIndex : ∀ address : RedbKey, t'.addrIndex[address]? =
    if addressOf event = some address then some t.nextEventKey else t.addrIndex[address]?
  expirations : ∀ (time : Nat) (id : EventId), t'.expirationIndex[(time, id)]? =
    if event.tags.expiration = some time ∧ event.id = id then some t.nextEventKey else t.expirationIndex[(time, id)]?
  packed : t'.packed = t.packed
  batch : t'.batch = t.batch.insert (prepare event t.nextEventKey)

theorem insertRow_cases (ho : t.insertRow ev prov = .ok t') :
    t.Inserts ev prov t' := by
  simp only [insertRow, insertNew, bind_ok, refuseIf_ok, pure_ok,
    exists_const] at ho
  obtain ⟨_, ⟨hR, o', hS, rfl⟩, rfl⟩ := ho
  cases hA : addressOf ev <;> cases hT : ev.tags.expiration
  all_goals refine ⟨not_lt.mp hR, rfl, rfl, rfl, fun key => ?_, hS, ?_, ?_, rfl, rfl⟩
  all_goals cases prov.localOrigin <;> simp [insertIndexes, hA, hT]

end

theorem Ok.unseen (h : t.Ok) (hN : t.rows[key]? = none) (r : RelayUrl) : t.observations.seenAt key r = none :=
  eq_none_iff_forall_ne_some.mpr fun tm hA => by
    simpa [hN] using h.observed key r tm hA

theorem Ok.no_local (h : t.Ok) (hN : t.rows[key]? = none) : t.locals[key]? = none :=
  eq_none_iff_forall_ne_some.mpr fun og hA => by
    simpa [hN] using h.locals key og hA

section Insert

theorem Inserts.seenAt_eq (h : t.Inserts ev prov t') (ho : t.Ok) :
    t'.observations.Ok ∧ t'.observations.Positive ∧ ∀ o ur, t'.observations.seenAt o ur =
      if o = t.nextEventKey then prov.seen[ur]? else t.observations.seenAt o ur :=
  insertSeen_ok ho.observations ho.positive (ho.unseen (ho.unused le_rfl)) h.observations

theorem Inserts.ok (h : t.Inserts ev prov t') (ho : t.Ok) (hN : t.rowOf ev.id = none)
    (hF : ∀ ad, addressOf ev = some ad → t.rowAt ad = none) : t'.Ok := by
  obtain ⟨hb, hP, hS⟩ := h.seenAt_eq ho
  have hU : t.rows[t.nextEventKey]? = none := ho.unused le_rfl
  have hu : t.eventIds[ev.id]? = none := ho.rowOf_none.mp hN
  have hX : ∀ {o : EventKey} {ro : Event}, t.rows[o]? = some ro → t.nextEventKey ≠ o := fun hAt hE => by
    simp [hE ▸ hU] at hAt
  have hi : ∀ (id : EventId) key, t'.eventIds[id]? = some key ↔
      ∃ ro, t'.rows[key]? = some ro ∧ ro.id = id := fun id key => by
    rw [h.eventIds, h.rows, get_insert, get_insert]
    by_cases hI : ev.id = id
    · subst hI
      rw [if_pos rfl, Option.some.injEq]
      by_cases hK : t.nextEventKey = key
      · simp [hK]
      simp only [hK, ↓reduceIte, false_iff]
      rintro ⟨ro, hAt, hE⟩
      rw [(ho.ids _ _).mpr ⟨ro, hAt, hE⟩] at hu
      cases hu
    · rw [if_neg hI, ho.ids]
      by_cases hK : t.nextEventKey = key
      · subst hK
        simp [hU, hI]
      · simp [hK]
  refine ⟨hb, hP, hi, ?_, ?_, ?_, ?_, ?_, ?_⟩
  · intro key ro hAt
    rw [h.rows, get_insert] at hAt
    rw [h.next]
    split at hAt
    · rename_i hK
      rw [← hK]
      exact Nat.lt_add_one _
    · exact (ho.fresh key ro hAt).trans (Nat.lt_add_one _)
  · intro key og hAt
    rw [h.locals] at hAt
    rw [h.rows, get_insert]
    split at hAt
    · simp [*]
    · simp [*, ho.locals key og hAt]
  · intro key r tm hAt
    rw [hS] at hAt
    rw [h.rows, get_insert]
    split at hAt
    · simp [*]
    · simp [*, Ne.symm, ho.observed key r tm hAt]
  · intro ad key
    rw [h.addrIndex, h.rows, get_insert]
    by_cases hA : addressOf ev = some ad
    · have hn := ho.rowAt_none.mp (hF ad hA)
      rw [if_pos hA, Option.some.injEq]
      by_cases hK : t.nextEventKey = key
      · simp [hK, hA]
      simp only [hK, ↓reduceIte, false_iff]
      intro hW
      rw [(ho.addresses _ _).mpr hW] at hn
      cases hn
    · rw [if_neg hA, ho.addresses]
      by_cases hK : t.nextEventKey = key
      · subst hK
        simp [hU, hA]
      · simp [hK]
  · intro tm id key
    rw [h.expirations, h.rows, get_insert]
    by_cases hT : ev.tags.expiration = some tm ∧ ev.id = id
    · rw [if_pos hT, Option.some.injEq]
      obtain ⟨hT, rfl⟩ := hT
      by_cases hK : t.nextEventKey = key
      · simp [hK, hT]
      simp only [hK, ↓reduceIte, false_iff]
      rintro ⟨ro, hAt, hE, -⟩
      rw [(ho.ids _ _).mpr ⟨ro, hAt, hE⟩] at hu
      cases hu
    · rw [if_neg hT, ho.expirations]
      by_cases hK : t.nextEventKey = key
      · subst hK
        simp only [hU, reduceCtorEq, false_and, exists_false, ↓reduceIte, Option.some.injEq, exists_eq_left', false_iff]
        exact fun hB => hT ⟨hB.2, hB.1⟩
      · simp [hK]
  · obtain ⟨lv, last, hp⟩ := ho.posted
    refine ⟨lv, last, hp.insert h.rows h.next h.batch h.packed (Nat.le_of_succ_le h.room) ?_⟩
    intro key key' ro ro' hAt hAt' hE
    exact Option.some.inj (((hi _ _).mpr ⟨ro, hAt, rfl⟩).symm.trans ((hi _ _).mpr ⟨ro', hAt', hE.symm⟩))

theorem insertRow_ok (ho : t.Ok) (hN : t.rowOf ev.id = none)
    (hF : ∀ ad, addressOf ev = some ad → t.rowAt ad = none)
    (hi : t.insertRow ev provenance = .ok t') :
    t'.Ok ∧ t'.rowOf = update t.rowOf ev.id (some ⟨ev, provenance⟩) := by
  have h := insertRow_cases hi
  have ho' := h.ok ho hN hF
  obtain ⟨-, -, hs⟩ := h.seenAt_eq ho
  refine ⟨ho', funext fun id => ?_⟩
  by_cases hI : id = ev.id
  · subst hI
    have hT : t'.seen t.nextEventKey = provenance.seen := Table.ext fun r => by
      rw [ho'.get_seen, hs, if_pos rfl]
    simp [rowOf, stored, h.eventIds, h.rows, h.locals, hT, ho.no_local (ho.unused le_rfl)]
  rw [update_of_ne hI, rowOf, rowOf, h.eventIds, get_insert, if_neg (Ne.symm hI)]
  refine Option.bind_congr fun key hA => ?_
  obtain ⟨ro, hW, -⟩ := (ho.ids _ _).mp hA
  have hn : t.nextEventKey ≠ key := fun hE => by simp [← hE, ho.unused le_rfl] at hW
  have hS : t'.seen key = t.seen key := seen_congr ho.observations ho'.observations fun r => by
    rw [hs, if_neg hn.symm]
  simp [stored, h.rows, h.locals, hn, hS]

end Insert

structure Removes (t : EventTables) (key : EventKey) (event : Event) (t' : EventTables) : Prop where
  next : t'.nextEventKey = t.nextEventKey
  rows : t'.rows = t.rows.erase key
  eventIds : t'.eventIds = t.eventIds.erase event.id
  locals : t'.locals = t.locals.erase key
  observations : t.observations.removeAllObservations key = .ok t'.observations
  addrIndex : ∀ address : RedbKey, t'.addrIndex[address]? =
    if addressOf event = some address ∧ t.addrIndex[address]? = some key then none else t.addrIndex[address]?
  expirations : ∀ (time : Nat) (id : EventId), t'.expirationIndex[(time, id)]? =
    if event.tags.expiration = some time ∧ event.id = id then none else t.expirationIndex[(time, id)]?
  packed : t'.packed = t.packed
  batch : t'.batch = t.batch.remove key

theorem Removes.ok (h : t.Removes key st.event t') (ho : t.Ok) (ha : t.stored key = some st) : t'.Ok := by
  obtain ⟨hb, hP, hS⟩ := Observations.removeAllObservations_ok ho.observations ho.positive h.observations
  have hW := stored_event ha
  have hn : ∀ {o : EventKey} {ro : Event}, t.rows[o]? = some ro → ro.id = st.event.id → key = o :=
    fun hX hE => ho.key_inj hW hX hE.symm
  refine ⟨hb, hP, ?_, ?_, ?_, ?_, ?_, ?_, ?_⟩
  · intro id o
    rw [h.eventIds, h.rows, get_erase, get_erase]
    by_cases hI : st.event.id = id
    · subst hI
      rw [if_pos rfl]
      simp only [reduceCtorEq, false_iff]
      rintro ⟨ro, hX, hE⟩
      split at hX
      · cases hX
      · exact absurd (hn hX hE) ‹_›
    · rw [if_neg hI, ho.ids]
      by_cases hK : key = o
      · subst hK
        simp [hW, hI]
      · simp [hK]
  · intro o ro hX
    rw [h.rows, get_erase] at hX
    split at hX
    · cases hX
    · exact h.next ▸ ho.fresh o ro hX
  · intro o og hX
    rw [h.locals, get_erase] at hX
    rw [h.rows, get_erase]
    split at hX
    · cases hX
    · simp [*, ho.locals o og hX]
  · intro o r tm hX
    rw [hS] at hX
    rw [h.rows, get_erase]
    split at hX
    · cases hX
    · rename_i hN
      simp [Ne.symm hN, ho.observed o r tm hX]
  · intro ad o
    rw [h.addrIndex, h.rows, get_erase]
    by_cases hA : addressOf st.event = some ad ∧ t.addrIndex[ad]? = some key
    · rw [if_pos hA]
      simp only [reduceCtorEq, false_iff]
      rintro ⟨ro, hX, hE⟩
      split at hX
      · cases hX
      · have hs := (ho.addresses _ _).mpr ⟨ro, hX, hE⟩
        exact absurd (Option.some.inj (hA.2.symm.trans hs)) ‹_›
    · rw [if_neg hA, ho.addresses]
      by_cases hK : key = o
      · subst hK
        simp only [hW, Option.some.injEq, exists_eq_left', ↓reduceIte, reduceCtorEq, false_and, exists_false, iff_false]
        exact fun hE => hA ⟨hE, (ho.addresses _ _).mpr ⟨_, hW, hE⟩⟩
      · simp [hK]
  · intro tm id o
    rw [h.expirations, h.rows, get_erase]
    by_cases hT : st.event.tags.expiration = some tm ∧ st.event.id = id
    · rw [if_pos hT]
      simp only [reduceCtorEq, false_iff]
      rintro ⟨ro, hX, hE, -⟩
      split at hX
      · cases hX
      · exact absurd (hn hX (hE.trans hT.2.symm)) ‹_›
    · rw [if_neg hT, ho.expirations]
      by_cases hK : key = o
      · subst hK
        simp only [hW, Option.some.injEq, exists_eq_left', ↓reduceIte, reduceCtorEq, false_and, exists_false, iff_false]
        exact fun hB => hT ⟨hB.2, hB.1⟩
      · simp [hK]
  · obtain ⟨lv, last, hp⟩ := ho.posted
    refine ⟨lv, last, hp.remove hW h.rows h.next h.batch h.packed ?_⟩
    intro o o' ro ro' hX hX' hE
    rw [h.rows, get_erase] at hX hX'
    split at hX <;> split at hX' <;> first | contradiction | exact ho.key_inj hX hX' hE

theorem Removes.rowOf_eq (h : t.Removes key st.event t') (ho : t.Ok) (hA : t.stored key = some st) :
    t'.rowOf = update t.rowOf st.event.id none := by
  obtain ⟨-, -, hS⟩ := Observations.removeAllObservations_ok ho.observations ho.positive h.observations
  funext id
  by_cases hI : id = st.event.id
  · subst hI
    simp [rowOf, h.eventIds]
  rw [update_of_ne hI, rowOf, rowOf, h.eventIds, get_erase, if_neg (Ne.symm hI)]
  refine Option.bind_congr fun o hX => ?_
  obtain ⟨ro, hW, hE⟩ := (ho.ids _ _).mp hX
  have hN : key ≠ o := by
    rintro rfl
    exact hI (hE.symm.trans (congrArg Event.id (Option.some.inj (hW.symm.trans (stored_event hA)))))
  have hs : t'.seen o = t.seen o := seen_congr ho.observations (h.ok ho hA).observations fun r => by
    rw [hS, if_neg hN.symm]
  simp [stored, h.rows, h.locals, hN, hs]

theorem removeRow_cases (ho : t.Ok) (hR : t.removeRow id predicate = .ok (gone, t')) :
    (gone = none ∧ t' = t ∧ ∀ st, t.rowOf id = some st → predicate st = false) ∨
      ∃ key st, gone = some st ∧ t.Holds id key st ∧ predicate st = true ∧ t.Removes key st.event t' := by
  obtain ⟨fd, hL, hR⟩ := bind_ok.mp hR
  rcases ho.loadById_cases hL with ⟨rfl, hN⟩ | ⟨key, st, rfl, hAt⟩
  · cases hR
    exact .inl ⟨rfl, rfl, fun st hAt => by simp [hN] at hAt⟩
  dsimp only at hR
  split at hR
  · cases hR
    exact .inl ⟨rfl, rfl, fun ot hX => by rwa [← Option.some.inj (hAt.rowOf.symm.trans hX)]⟩
  rename_i ht
  simp only [removeByKey, run_ok] at hR
  obtain ⟨_, ⟨o', hS, rfl⟩, rfl, rfl⟩ := hR
  obtain rfl := ho.rowOf_id hAt.rowOf
  refine .inr ⟨key, st, rfl, hAt, by simpa using ht, ?_⟩
  cases hA : addressOf st.event with
  | none =>
    cases hT : st.event.tags.expiration
    all_goals refine ⟨rfl, rfl, rfl, rfl, hS, ?_, ?_, rfl, rfl⟩
    all_goals simp [removeIndexes, hA, hT]
  | some ad =>
    by_cases hH : t.addrIndex[ad]? = some key <;> cases hT : st.event.tags.expiration
    all_goals simp only [removeIndexes, hH, ↓reduceIte]
    all_goals refine ⟨rfl, rfl, rfl, rfl, hS, fun ot => ?_, ?_, rfl, rfl⟩
    any_goals simp [hT]
    all_goals by_cases hX : ad = ot <;> simp_all

theorem removeRow_ok (ho : t.Ok) (hR : t.removeRow id predicate = .ok (gone, t')) :
    t'.Ok ∧ gone = (t.rowOf id).filter predicate ∧
      t'.rowOf = if gone.isSome then update t.rowOf id none else t.rowOf := by
  rcases removeRow_cases ho hR with ⟨rfl, rfl, hK⟩ | ⟨key, st, rfl, hAt, hT, h⟩
  · refine ⟨ho, ?_, rfl⟩
    cases hW : t'.rowOf id with
    | none => rfl
    | some st => simp [Option.filter, hK st hW]
  · refine ⟨h.ok ho hAt.row, by simp [hAt.rowOf, Option.filter, hT], ?_⟩
    rw [h.rowOf_eq ho hAt.row, ho.rowOf_id hAt.rowOf]
    rfl

structure Rested (t : EventTables) : Prop where
  ok : t.Ok
  observations : t.observations.Rested
  batch : t.batch = {}

theorem commit_ok (ho : t.Ok) (hC : t.commit = .ok t') : t'.Rested ∧ t'.rowOf = t.rowOf := by
  simp only [commit, run_ok] at hC
  obtain ⟨o', hr, packed', hF, rfl⟩ := hC
  obtain ⟨hR, hS⟩ := Observations.flushRelays_ok ho.observations ho.positive hr
  obtain ⟨lv, last, hP⟩ := ho.posted
  have hH : t.batch.highWater last < t.nextEventKey := by
    rcases Postings.highWater_cases t.batch last with ⟨-, hE⟩ | ⟨pn, hAt⟩
    · rw [hE]
      exact hP.below
    have hW := hP.rows (t.batch.highWater last)
    rw [Postings.get_apply, hAt, Option.some_or] at hW
    obtain ⟨ev, he, -⟩ := map_eq_some_iff.mp hW.symm
    exact ho.fresh _ ev he
  have hL : PostingsBatch.Legal (t.batch.apply lv) (t.batch.highWater last) {} :=
    ⟨by simp, by simp, by simp, fun key key' pn pn' hAt hAt' hE => by
      exact hP.legal.ids key key' pn pn' (by simpa [Postings.get_apply] using hAt)
        (by simpa [Postings.get_apply] using hAt') hE⟩
  refine ⟨⟨⟨hR.ok, hR.positive, ho.ids, ho.fresh, ho.locals, fun key r tm hAt =>
    ho.observed key r tm (hS key r ▸ hAt), ho.addresses, ho.expirations, ?_⟩, hR, rfl⟩, ?_⟩
  · refine ⟨_, _, Postings.flush_ok hP.flushed hP.legal hF, hH, hL, fun key => ?_⟩
    rw [← hP.rows key, Postings.get_apply]
    simp
  have hs : ∀ key, stored { t with observations := o', packed := packed', batch := {} } key = t.stored key := fun key => by
    have hm : EventTables.seen { t with observations := o', packed := packed', batch := {} } key = t.seen key :=
      seen_congr ho.observations hR.ok (hS key)
    rw [stored, stored, hm]
  funext id
  exact Option.bind_congr fun key _ => hs key

end NmpStore.EventTables

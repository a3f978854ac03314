import NmpStore.Canonical.Tables
import NmpStore.Canonical.Observed
import NmpStore.Postings.Flush
import Mathlib.Logic.Function.Basic

/-! # Rows seen by id

The tables are read as a function from ids to stored events.
-/

namespace NmpStore.EventTables

open Postings (Flushed PostingsBatch PendingEvent PendingEvents UniqueIds)

variable (t : EventTables)

def seen (key : EventKey) : Table RelayUrl Nat := (t.observations.loadSeen key).toOption.getD ∅

def stored (key : EventKey) : Option StoredEvent :=
  t.rows[key]?.map fun event => ⟨event, ⟨t.seen key, t.locals[key]?⟩⟩

def rowOf (id : EventId) : Option StoredEvent := t.eventIds[id]?.bind t.stored

def rowAt (address : RedbKey) : Option StoredEvent := t.addrIndex[address]?.bind t.stored

structure Posted [ShardHash] (t : EventTables) (live : PendingEvents) (last : Nat) : Prop where
  flushed : Flushed t.packed live last
  below : last < t.nextEventKey
  legal : t.batch.Legal live last
  rows : ∀ key : EventKey, (t.batch.apply live)[key]? = t.rows[key]?.map (prepare · key)

structure Ok [ShardHash] (t : EventTables) : Prop where
  observations : t.observations.Ok
  positive : t.observations.Positive
  ids : ∀ (id : EventId) key, t.eventIds[id]? = some key ↔ ∃ event, t.rows[key]? = some event ∧ event.id = id
  fresh : ∀ (key : EventKey) event, t.rows[key]? = some event → key < t.nextEventKey
  locals : ∀ (key : EventKey) origin, t.locals[key]? = some origin → (t.rows[key]?).isSome
  observed : ∀ (key : EventKey) (relay : RelayUrl) (time : Nat), t.observations.seenAt key relay = some time →
    (t.rows[key]?).isSome
  addresses : ∀ (address : RedbKey) key, t.addrIndex[address]? = some key ↔
    ∃ event, t.rows[key]? = some event ∧ addressOf event = some address
  expirations : ∀ (time : Nat) (id : EventId) (key : EventKey), t.expirationIndex[(time, id)]? = some key ↔
    ∃ event, t.rows[key]? = some event ∧ event.id = id ∧ event.tags.expiration = some time
  posted : ∃ live last, t.Posted live last

section Reading

variable [ShardHash] {t : EventTables} {id : EventId} {key : EventKey} {st : StoredEvent}

theorem ok_empty : Ok {} where
  observations := Observations.ok_empty
  positive := Observations.positive_empty
  ids := by simp
  fresh := by simp
  locals := by simp
  observed := by simp [Observations.seenAt]
  addresses := by simp
  expirations := by simp
  posted := ⟨∅, 0, Postings.flushed_empty, Nat.zero_lt_one, ⟨by simp, by simp, by simp, by simp [UniqueIds, Postings.get_apply]⟩,
    by simp [Postings.get_apply]⟩

theorem Ok.get_seen (h : t.Ok) (key : EventKey) (r : RelayUrl) :
    (t.seen key)[r]? = t.observations.seenAt key r := by
  obtain ⟨se, hL, hS⟩ := h.observations.loadSeen_eq key
  rw [EventTables.seen, hL]
  exact hS r

theorem Ok.loadByKey_eq (h : t.Ok) (key : EventKey) : t.loadByKey key = .ok (t.stored key) := by
  obtain ⟨se, hL, -⟩ := h.observations.loadSeen_eq key
  unfold loadByKey stored EventTables.seen
  cases t.rows[key]? with
  | none => rfl
  | some ev => simp [hL, Except.toOption]

theorem Ok.loadById_eq (h : t.Ok) (id : EventId) :
    t.loadById id = .ok (t.eventIds[id]?.bind fun key => (t.stored key).map fun st => (key, st)) := by
  unfold loadById
  cases t.eventIds[id]? with
  | none => rfl
  | some key => simp [h.loadByKey_eq]

section
omit [ShardHash]

theorem stored_event (hA : t.stored key = some st) : t.rows[key]? = some st.event := by
  obtain ⟨ev, hE, rfl⟩ := map_eq_some_iff.mp hA
  exact hE

theorem rowOf_some : t.rowOf id = some st ↔ ∃ key, t.eventIds[id]? = some key ∧ t.stored key = some st :=
  bind_eq_some_iff

end

theorem Ok.rowOf_of_key (h : t.Ok) (hA : t.stored key = some st) : t.rowOf st.event.id = some st :=
  rowOf_some.mpr ⟨key, (h.ids _ _).mpr ⟨_, stored_event hA, rfl⟩, hA⟩

theorem Ok.rowOf_id (h : t.Ok) (hA : t.rowOf id = some st) : st.event.id = id := by
  obtain ⟨key, hK, hS⟩ := rowOf_some.mp hA
  obtain ⟨ev, hE, rfl⟩ := (h.ids _ _).mp hK
  rw [← Option.some.inj ((stored_event hS).symm.trans hE)]

theorem Ok.rowOf_none (h : t.Ok) : t.rowOf id = none ↔ t.eventIds[id]? = none := by
  refine ⟨fun hN => eq_none_iff_forall_ne_some.mpr fun key hK => ?_, fun hN => by simp [rowOf, hN]⟩
  obtain ⟨ev, hE, -⟩ := (h.ids _ _).mp hK
  simp [rowOf, hK, stored, hE] at hN

theorem Ok.rowAt_some (h : t.Ok) :
    t.rowAt addr = some st ↔ t.rowOf st.event.id = some st ∧ addressOf st.event = some addr := by
  constructor
  · intro hA
    obtain ⟨key, hK, hS⟩ := bind_eq_some_iff.mp hA
    obtain ⟨ev, hE, ha⟩ := (h.addresses _ _).mp hK
    cases (stored_event hS).symm.trans hE
    exact ⟨h.rowOf_of_key hS, ha⟩
  · rintro ⟨hA, ha⟩
    obtain ⟨key, -, hS⟩ := rowOf_some.mp hA
    exact bind_eq_some_iff.mpr ⟨key, (h.addresses _ _).mpr ⟨_, stored_event hS, ha⟩, hS⟩

theorem Ok.rowAt_none (h : t.Ok) : t.rowAt addr = none ↔ t.addrIndex[addr]? = none := by
  refine ⟨fun hN => eq_none_iff_forall_ne_some.mpr fun key hK => ?_, fun hN => by simp [rowAt, hN]⟩
  obtain ⟨ev, hE, -⟩ := (h.addresses _ _).mp hK
  simp [rowAt, hK, stored, hE] at hN

end Reading

section Columns

variable [ShardHash] {t t' : EventTables} {key : EventKey} {id : EventId} {st : StoredEvent}

structure Rewrites (t : EventTables) (key : EventKey) (t' : EventTables) : Prop where
  observations : t'.observations.Ok
  positive : t'.observations.Positive
  event : ∃ event event', t.rows[key]? = some event ∧ t'.rows[key]? = some event' ∧ event'.SameBody event
  rows : ∀ other : EventKey, other ≠ key → t'.rows[other]? = t.rows[other]?
  locals : ∀ other : EventKey, other ≠ key → t'.locals[other]? = t.locals[other]?
  seen : ∀ other : EventKey, other ≠ key → ∀ relay, t'.observations.seenAt other relay = t.observations.seenAt other relay
  indexes : t'.eventIds = t.eventIds ∧ t'.addrIndex = t.addrIndex ∧ t'.expirationIndex = t.expirationIndex
  postings : t'.nextEventKey = t.nextEventKey ∧ t'.packed = t.packed ∧ t'.batch = t.batch

section
omit [ShardHash]

theorem Rewrites.rows_iff (h : t.Rewrites key t') {p : Event → Prop} (hB : ∀ a b : Event, a.SameBody b → (p a ↔ p b))
    (o : EventKey) : (∃ ev, t'.rows[o]? = some ev ∧ p ev) ↔ ∃ ev, t.rows[o]? = some ev ∧ p ev := by
  by_cases hX : o = key
  · subst hX
    obtain ⟨ev, ev', hAt, hAt', hS⟩ := h.event
    simp [hAt, hAt', hB _ _ hS]
  · rw [h.rows o hX]

theorem Rewrites.isSome (h : t.Rewrites key t') (o : EventKey) : (t'.rows[o]?).isSome = (t.rows[o]?).isSome := by
  have hI := h.rows_iff (p := fun _ => True) (fun _ _ _ => .rfl) o
  rw [Bool.eq_iff_iff, isSome_iff_exists, isSome_iff_exists]
  simpa only [and_true] using hI

end

theorem Rewrites.ok (h : t.Rewrites key t') (ho : t.Ok) : t'.Ok where
  observations := h.observations
  positive := h.positive
  ids id o := by
    rw [h.indexes.1, ho.ids id o, h.rows_iff (fun a b hS => by rw [hS.fields.1])]
  fresh o ev hAt := by
    obtain ⟨ev', hAt'⟩ := isSome_iff_exists.mp ((h.isSome o).symm.trans (isSome_iff_exists.mpr ⟨ev, hAt⟩))
    exact h.postings.1 ▸ ho.fresh o ev' hAt'
  locals o origin hAt := by
    rw [h.isSome]
    by_cases hX : o = key
    · obtain ⟨ev, -, hW, -⟩ := h.event
      simp [hX, hW]
    · exact ho.locals o origin (h.locals o hX ▸ hAt)
  observed o r time hAt := by
    rw [h.isSome]
    by_cases hX : o = key
    · obtain ⟨ev, -, hW, -⟩ := h.event
      simp [hX, hW]
    · exact ho.observed o r time (h.seen o hX r ▸ hAt)
  addresses addr o := by
    rw [h.indexes.2.1, ho.addresses addr o, h.rows_iff (fun a b hS => by rw [hS.addressOf_eq])]
  expirations time id o := by
    rw [h.indexes.2.2, ho.expirations time id o]
    exact (h.rows_iff (fun a b hS => by rw [hS.fields.1, hS.fields.2.2.2.2]) o).symm
  posted := by
    obtain ⟨lv, last, hP⟩ := ho.posted
    obtain ⟨hN, hp, hB⟩ := h.postings
    refine ⟨lv, last, hp ▸ hP.flushed, hN ▸ hP.below, hB ▸ hP.legal, fun o => ?_⟩
    rw [hB, hP.rows o]
    by_cases hX : o = key
    · obtain ⟨ev, ev', hAt, hAt', hS⟩ := h.event
      obtain ⟨hId, hA, ht, hK, hT⟩ := hS.fields
      simp [hX, hAt, hAt', prepare, hId, hA, ht, hK, hT]
    · rw [h.rows o hX]

omit [ShardHash] in
theorem seen_congr (h : t.observations.Ok) (h' : t'.observations.Ok)
    (hS : ∀ r, t'.observations.seenAt o r = t.observations.seenAt o r) : t'.seen o = t.seen o := by
  obtain ⟨se, hLoad, hA⟩ := h.loadSeen_eq o
  obtain ⟨se', hLoad', hA'⟩ := h'.loadSeen_eq o
  rw [EventTables.seen, EventTables.seen, hLoad, hLoad']
  exact Table.ext fun r => (hA' r).trans ((hS r).trans (hA r).symm)

theorem Rewrites.rowOf_eq (h : t.Rewrites key t') (ho : t.Ok) (hK : t.eventIds[id]? = some key) :
    t'.rowOf = update t.rowOf id (t'.stored key) := by
  funext o
  by_cases hX : o = id
  · subst hX
    simp [rowOf, h.indexes.1, hK]
  rw [update_of_ne hX, rowOf, rowOf, h.indexes.1]
  refine Option.bind_congr fun ot hA => ?_
  -- two ids never share a key
  have hN : ot ≠ key := by
    rintro rfl
    obtain ⟨ev, hEv, hI⟩ := (ho.ids _ _).mp hA
    obtain ⟨ev', hEv', hI'⟩ := (ho.ids _ _).mp hK
    exact hX (hI.symm.trans ((congrArg Event.id (Option.some.inj (hEv.symm.trans hEv'))).trans hI'))
  rw [stored, stored, h.rows ot hN, h.locals ot hN,
    seen_congr ho.observations h.observations (h.seen ot hN)]

section
omit [ShardHash]

theorem Rewrites.of_columns (hA : t.stored key = some st) (hR : t'.rows = t.rows)
    (hL : ∀ o : EventKey, o ≠ key → t'.locals[o]? = t.locals[o]?)
    (ho : t'.observations.Ok) (hP : t'.observations.Positive)
    (hS : ∀ o : EventKey, o ≠ key → ∀ r, t'.observations.seenAt o r = t.observations.seenAt o r)
    (hI : t'.eventIds = t.eventIds ∧ t'.addrIndex = t.addrIndex ∧ t'.expirationIndex = t.expirationIndex)
    (hp : t'.nextEventKey = t.nextEventKey ∧ t'.packed = t.packed ∧ t'.batch = t.batch) : t.Rewrites key t' where
  observations := ho
  positive := hP
  event := ⟨_, _, stored_event hA, by rw [hR]; exact stored_event hA, .refl _⟩
  rows o _ := by rw [hR]
  locals := hL
  seen := hS
  indexes := hI
  postings := hp

structure Holds (t : EventTables) (id : EventId) (key : EventKey) (st : StoredEvent) : Prop where
  named : t.eventIds[id]? = some key
  row : t.stored key = some st

theorem Holds.rowOf (h : t.Holds id key st) : t.rowOf id = some st := rowOf_some.mpr ⟨key, h.named, h.row⟩

end

theorem Ok.loadById_cases (h : t.Ok) (hL : t.loadById id = .ok fd) :
    (fd = none ∧ t.rowOf id = none) ∨ ∃ key st, fd = some (key, st) ∧ t.Holds id key st := by
  rw [h.loadById_eq id] at hL
  cases hL
  cases hK : t.eventIds[id]? with
  | none => exact .inl ⟨rfl, by simp [EventTables.rowOf, hK]⟩
  | some key =>
    obtain ⟨ev, hE, -⟩ := (h.ids _ _).mp hK
    exact .inr ⟨key, ⟨ev, ⟨t.seen key, t.locals[key]?⟩⟩, by simp [stored, hE], hK, by simp [stored, hE]⟩

theorem replaceLocal_ok (h : t.Ok) (hA : t.Holds id key st) (og : Option LocalOrigin) :
    (t.replaceLocal key og).Ok ∧ (t.replaceLocal key og).Holds id key ⟨st.event, ⟨st.provenance.seen, og⟩⟩ ∧
      (t.replaceLocal key og).rowOf = update t.rowOf id (some ⟨st.event, ⟨st.provenance.seen, og⟩⟩) := by
  have hw : t.Rewrites key (t.replaceLocal key og) := by
    cases og <;> refine .of_columns hA.row rfl (fun o hX => ?_) h.observations h.positive (fun _ _ _ => rfl)
      ⟨rfl, rfl, rfl⟩ ⟨rfl, rfl, rfl⟩ <;> simp [replaceLocal, Ne.symm hX]
  have hW : (t.replaceLocal key og).stored key = some ⟨st.event, ⟨st.provenance.seen, og⟩⟩ := by
    obtain ⟨ev, hE, rfl⟩ := map_eq_some_iff.mp hA.row
    cases og <;> simp [stored, replaceLocal, hE, EventTables.seen]
  refine ⟨hw.ok h, ⟨hw.indexes.1 ▸ hA.named, hW⟩, ?_⟩
  rw [hw.rowOf_eq h hA.named, hW]

theorem replaceEvent_ok (h : t.Ok) (hA : t.Holds id key st) (hS : event.SameBody st.event) :
    (t.replaceEvent key event).Ok ∧ (t.replaceEvent key event).Holds id key ⟨event, st.provenance⟩ ∧
      (t.replaceEvent key event).rowOf = update t.rowOf id (some ⟨event, st.provenance⟩) := by
  have hw : t.Rewrites key (t.replaceEvent key event) := {
    observations := h.observations
    positive := h.positive
    event := ⟨_, event, stored_event hA.row, by simp [replaceEvent], hS⟩
    rows := fun o hX => by simp [replaceEvent, Ne.symm hX]
    locals := fun _ _ => rfl
    seen := fun _ _ _ => rfl
    indexes := ⟨rfl, rfl, rfl⟩
    postings := ⟨rfl, rfl, rfl⟩ }
  have hW : (t.replaceEvent key event).stored key = some ⟨event, st.provenance⟩ := by
    obtain ⟨event, hE, rfl⟩ := map_eq_some_iff.mp hA.row
    simp [stored, replaceEvent, EventTables.seen]
  refine ⟨hw.ok h, ⟨hA.named, hW⟩, ?_⟩
  rw [hw.rowOf_eq h hA.named, hW]

def observe (seen : Table RelayUrl Nat) (relay : RelayUrl) (time : Nat) : Table RelayUrl Nat :=
  seen.insert relay (Observations.latest seen[relay]? time)

theorem mergeObservation_ok (h : t.Ok) (hA : t.Holds id key st)
    (hM : t.mergeObservation key r time = .ok (grew, t')) :
    t'.Ok ∧ t'.Holds id key ⟨st.event, { st.provenance with seen := observe st.provenance.seen r time }⟩ ∧
      t'.rowOf = update t.rowOf id
        (some ⟨st.event, { st.provenance with seen := observe st.provenance.seen r time }⟩) := by
  simp only [mergeObservation, bind_ok] at hM
  obtain ⟨⟨_, o'⟩, hM, hD⟩ := hM
  cases hD
  obtain ⟨ho, hP, hS⟩ := Observations.mergeObservation_ok h.observations h.positive hM
  have hw : t.Rewrites key { t with observations := o' } :=
    .of_columns hA.row rfl (fun _ _ => rfl) ho hP (fun ot hX r => by rw [hS]; simp [hX])
      ⟨rfl, rfl, rfl⟩ ⟨rfl, rfl, rfl⟩
  have hW : stored { t with observations := o' } key =
      some ⟨st.event, { st.provenance with seen := observe st.provenance.seen r time }⟩ := by
    obtain ⟨ev, hE, rfl⟩ := map_eq_some_iff.mp hA.row
    have hT : EventTables.seen { t with observations := o' } key = observe (t.seen key) r time := Table.ext fun ur => by
      rw [(hw.ok h).get_seen, hS, observe, get_insert, h.get_seen, h.get_seen]
      simp [eq_comm]
    simp [stored, hE, hT]
  refine ⟨hw.ok h, ⟨hA.named, hW⟩, ?_⟩
  rw [hw.rowOf_eq h hA.named, hW]

theorem replaceProvenance_ok (h : t.Ok) (hA : t.Holds id key st)
    (hR : t.replaceProvenance key provenance = .ok t') :
    t'.Ok ∧ t'.Holds id key ⟨st.event, provenance⟩ ∧ t'.rowOf = update t.rowOf id (some ⟨st.event, provenance⟩) := by
  simp only [replaceProvenance, run_ok] at hR
  obtain ⟨o', hS, rfl⟩ := hR
  obtain ⟨ho, hP, hS⟩ := Observations.replaceSeen_ok h.observations h.positive hS
  have hw : t.Rewrites key { t with observations := o' } :=
    .of_columns hA.row rfl (fun _ _ => rfl) ho hP (fun ot hX r => by rw [hS]; simp [hX])
      ⟨rfl, rfl, rfl⟩ ⟨rfl, rfl, rfl⟩
  have hW : stored { t with observations := o' } key =
      some ⟨st.event, ⟨provenance.seen, st.provenance.localOrigin⟩⟩ := by
    obtain ⟨ev, hE, rfl⟩ := map_eq_some_iff.mp hA.row
    have hT : EventTables.seen { t with observations := o' } key = provenance.seen := Table.ext fun ur => by
      rw [(hw.ok h).get_seen, hS, if_pos rfl]
    simp [stored, hE, hT]
  obtain ⟨hk, hH, hr⟩ := replaceLocal_ok (hw.ok h) ⟨hA.named, hW⟩ provenance.localOrigin
  refine ⟨hk, hH, hr.trans ?_⟩
  rw [hw.rowOf_eq h hA.named, update_idem]

end Columns

end NmpStore.EventTables

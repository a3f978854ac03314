import NmpStore.Store.Winner

/-! # Convergence of relay deliveries

A store that only relays write to is a function of what they have delivered: of every address it holds the best event
that no delivered deletion names, of the events without an address all that none names, and of each row every relay's
latest observation.
-/

namespace NmpStore

abbrev Deliveries := EventId → RelayUrl → Nat → Prop

namespace Deliveries

variable {D : Deliveries} {id d : EventId} {event : Event}

def Delivered (D : Deliveries) (id : EventId) : Prop := ∃ relay time, D id relay time

def Buried (bodies : Bodies) (D : Deliveries) (event : Event) : Prop :=
  ∃ d, D.Delivered d ∧ (bodies d).isDeletion = true ∧ (bodies d).Names event

def Latest (D : Deliveries) (id : EventId) (relay : RelayUrl) (time : Nat) : Prop :=
  D id relay time ∧ ∀ earlier, D id relay earlier → earlier ≤ time

def add (D : Deliveries) (id : EventId) (source : RelayObserved) : Deliveries := fun other relay time =>
  D other relay time ∨ (other = id ∧ relay = source.relay ∧ time = source.time)

/-- Lasting events, and deletions that name by id only what has no address and is no deletion. -/
structure Plain (bodies : Bodies) (D : Deliveries) : Prop where
  lasting : ∀ id, D.Delivered id → (bodies id).tags.expiration = none
  targets : ∀ d id, D.Delivered d → D.Delivered id → (bodies d).isDeletion = true → id ∈ (bodies d).tags.eventIds →
    addressOf (bodies id) = none ∧ (bodies id).isDeletion = false

theorem delivered_add : (D.add id s).Delivered o ↔ D.Delivered o ∨ o = id := by
  constructor
  · rintro ⟨r, time, hO | ⟨rfl, -, -⟩⟩
    · exact .inl ⟨r, time, hO⟩
    · exact .inr rfl
  · rintro (⟨r, time, hO⟩ | rfl)
    · exact ⟨r, time, .inl hO⟩
    · exact ⟨s.relay, s.time, .inr ⟨rfl, rfl, rfl⟩⟩

theorem buried_add : (D.add id s).Buried bs event ↔
    D.Buried bs event ∨ ((bs id).isDeletion = true ∧ (bs id).Names event) := by
  constructor
  · rintro ⟨d, hd, hD⟩
    rcases delivered_add.mp hd with hO | rfl
    · exact .inl ⟨d, hO, hD⟩
    · exact .inr hD
  · rintro (⟨d, hO, hD⟩ | hD)
    · exact ⟨d, delivered_add.mpr (.inl hO), hD⟩
    · exact ⟨id, delivered_add.mpr (.inr rfl), hD⟩

structure Observed (D : Deliveries) (id : EventId) (seen : Table RelayUrl Nat) : Prop where
  latest : ∀ (relay : RelayUrl) time, seen[relay]? = some time → D.Latest id relay time
  total : ∀ (relay : RelayUrl) (time : Nat), D id relay time → ∃ latest, seen[relay]? = some latest

theorem Observed.unique (h : D.Observed id seen) (h' : D.Observed id seen') : seen = seen' := by
  -- the latest time is unique, and each table has one where the other has
  have hB : ∀ {a b : Table RelayUrl Nat}, D.Observed id a → D.Observed id b → ∀ (r : RelayUrl) (time : Nat),
      a[r]? = some time → b[r]? = some time := by
    intro a b ha hb r time hA
    obtain ⟨hH, hM⟩ := ha.latest r time hA
    obtain ⟨latest, hL⟩ := hb.total r time hH
    obtain ⟨hT, hM'⟩ := hb.latest r latest hL
    rw [hL, le_antisymm (hM latest hT) (hM' time hH)]
  refine Table.ext fun r => Option.ext fun time => ⟨hB h h' r time, hB h' h r time⟩

theorem Observed.of_ne (h : D.Observed o seen) (hX : o ≠ id) : (D.add id s).Observed o seen := by
  have ha : ∀ r tm, D.add id s o r tm ↔ D o r tm := fun r tm => by
    simp [add, hX]
  refine ⟨fun r tm hA => ?_, fun r tm hA => h.total r tm ((ha r tm).mp hA)⟩
  simp only [Latest, ha]
  exact h.latest r tm hA

theorem Observed.observe (h : D.Observed id seen) (s : RelayObserved) :
    (D.add id s).Observed id (EventTables.observe seen s.relay s.time) := by
  have ha : ∀ r tm, D.add id s id r tm ↔ D id r tm ∨ (r = s.relay ∧ tm = s.time) :=
    fun r tm => by simp [add]
  refine ⟨fun r tm hA => ?_, fun r tm hA => ?_⟩
  · simp only [EventTables.observe, get_insert] at hA
    simp only [Latest, ha]
    split_ifs at hA with hR
    · subst hR
      simp only [Option.some.injEq, Observations.latest] at hA
      cases hK : seen[s.relay]? with
      | none =>
        have hn : ∀ t, ¬ D id s.relay t := fun t hT => by
          obtain ⟨lt, hl⟩ := h.total s.relay t hT
          cases hK.symm.trans hl
        rw [hK, Option.getD_none, Nat.zero_max] at hA
        exact ⟨.inr ⟨rfl, hA.symm⟩, fun er hE => hE.elim (fun hO => (hn er hO).elim) fun hN => by omega⟩
      | some kn =>
        obtain ⟨hH, hM⟩ := h.latest s.relay kn hK
        rw [hK, getD_some] at hA
        refine ⟨?_, fun er hE => ?_⟩
        · rcases le_total kn s.time with hL | hL
          · exact .inr ⟨rfl, by omega⟩
          · exact .inl (by rwa [← hA, Nat.max_eq_left hL])
        rcases hE with hO | ⟨-, hN⟩
        · have := hM er hO
          omega
        · omega
    · obtain ⟨hH, hM⟩ := h.latest r tm hA
      exact ⟨.inl hH, fun er hE => hE.elim (hM er) fun hN => absurd hN.1.symm hR⟩
  · simp only [EventTables.observe, get_insert]
    split_ifs with hR
    · exact ⟨_, rfl⟩
    · exact h.total r tm (((ha r tm).mp hA).resolve_right fun hN => hR hN.1.symm)

theorem Observed.first (hN : ¬ D.Delivered id) (s : RelayObserved) :
    (D.add id s).Observed id s.provenance.seen := by
  have hn : D.Observed id ∅ := ⟨fun r time hA => by simp at hA, fun r time hA => absurd ⟨r, time, hA⟩ hN⟩
  have hF := hn.observe s
  have hE : EventTables.observe ∅ s.relay s.time = s.provenance.seen := by
    simp [EventTables.observe, RelayObserved.provenance, Observations.latest]
  exact hE ▸ hF

theorem buried_congr (h : a.SameBody b) : D.Buried bs a ↔ D.Buried bs b :=
  exists_congr fun _ => and_congr_right fun _ => and_congr_right fun _ => Event.Names.congr h

theorem buried_add_iff (D : Deliveries) (s : RelayObserved) (hB : event.SameBody (bs event.id))
    (hQ : event.isDeletion = false ∨ D.Delivered event.id) (t : Event) :
    (D.add event.id s).Buried bs t ↔ D.Buried bs t := by
  rw [buried_add]
  refine ⟨fun hb => hb.elim (fun hI => hI) fun ⟨hD, hN⟩ => ?_, .inl⟩
  rcases hQ with hR | hd
  · cases (hB.isDeletion_eq.symm.trans hR).symm.trans hD
  · exact ⟨event.id, hd, hD, hN⟩

theorem Plain.of_add (h : Plain bs (D.add id s)) : Plain bs D :=
  ⟨fun o hX => h.lasting o (delivered_add.mpr (.inl hX)), fun d o hD hX =>
    h.targets d o (delivered_add.mpr (.inl hD)) (delivered_add.mpr (.inl hX))⟩

theorem Plain.unburied (h : Plain bs D) (hN : (bs d).id = d) (hd : D.Delivered d)
    (hD : (bs d).isDeletion = true) : ¬ D.Buried bs (bs d) := by
  rintro ⟨dl, hE, hI, hB | ⟨ad, -, hA, -⟩⟩
  · have hT : d ∈ (bs dl).tags.eventIds := hN ▸ hB.1
    cases hD.symm.trans (h.targets dl d hE hd hI hT).2
  · cases (addressOf_isDeletion hD).symm.trans hA

theorem Plain.names_below (h : Plain bs D) (hN : (bs best).id = best)
    (hD : D.Delivered d) (hB : D.Delivered best) (hd : (bs d).isDeletion = true)
    (hA : addressOf (bs best) = some addr) (hW : addressOf (bs worse) = some addr)
    (hL : (bs best).NotBelow (bs worse)) (hn : (bs d).Names (bs best)) :
    (bs d).Names (bs worse) := by
  rcases hn with hb | ⟨o, hO, hAt, ht⟩
  · have hT : best ∈ (bs d).tags.eventIds := hN ▸ hb.1
    cases hA.symm.trans (h.targets d best hD hB hd hT).1
  cases hA.symm.trans hAt
  refine .inr ⟨addr, hO, hW, ?_⟩
  rcases Event.notBelow_iff.mp hL with hl | ⟨hS, -⟩ <;> omega

end Deliveries

namespace Store

open Deliveries

variable [ShardHash] {s s' : Store} {D : Deliveries}

structure Reflects (bodies : Bodies) (D : Deliveries) (s : Store) : Prop where
  sound : s.Sound bodies
  queue : s.queue = {}
  refuses : ∀ event, s.tombstones.refuses event = true ↔ D.Buried bodies event
  present : ∀ (id : EventId) (st : StoredEvent), s.events.rowOf id = some st →
    D.Delivered id ∧ st.provenance.localOrigin = none ∧ D.Observed id st.provenance.seen
  unaddressed : ∀ id, D.Delivered id → ¬ D.Buried bodies (bodies id) → addressOf (bodies id) = none →
    ∃ st, s.events.rowOf id = some st
  addressed : ∀ id address, D.Delivered id → ¬ D.Buried bodies (bodies id) → addressOf (bodies id) = some address →
    ∃ st, s.events.rowAt address = some st ∧ st.event.NotBelow (bodies id)

theorem reflects_empty : Reflects bs (fun _ _ _ => False) {} where
  sound := sound_empty
  queue := rfl
  refuses event := by simp [Tombstones.refuses_iff, Buried, Delivered]
  present id st hA := by simp [EventTables.rowOf] at hA
  unaddressed id hD := by simp [Delivered] at hD
  addressed id addr hD := by simp [Delivered] at hD

variable {id : EventId} {st : StoredEvent} {event : Event} {events : EventTables} {L : List Delivery}

theorem Reflects.body (h : s.Reflects bs D) (hA : s.events.rowOf id = some st) : st.event.SameBody (bs id) := by
  have ha := h.sound.authentic id st hA
  rwa [Authentic, h.sound.events.rowOf_id hA] at ha

theorem Reflects.unburied (h : s.Reflects bs D) (hA : s.events.rowOf id = some st) :
    ¬ D.Buried bs (bs id) := fun hB => by
  have hR := (h.refuses _).mpr hB
  rw [← Tombstones.refuses_congr (h.body hA), h.sound.allowed id st hA] at hR
  cases hR

theorem Reflects.rowAt_body (h : s.Reflects bs D)
    (hA : s.events.rowAt addr = some st) : s.events.rowOf st.event.id = some st ∧
      st.event.SameBody (bs st.event.id) ∧ addressOf (bs st.event.id) = some addr := by
  obtain ⟨hW, ha⟩ := h.sound.events.rowAt_some.mp hA
  exact ⟨hW, h.body hW, (h.body hW).addressOf_eq ▸ ha⟩

theorem Reflects.merges (h : s.Reflects bs D) (hb : event.SameBody (bs event.id))
    (hA : s.events.rowOf event.id = some st) (hS : Sound bs { s with events })
    (hR : events.rowOf = update s.events.rowOf event.id (some (st.observedBy src))) :
    Reflects bs (D.add event.id src) { s with events } := by
  obtain ⟨hD, hC, ho⟩ := h.present event.id st hA
  have hB := buried_add_iff D src hb (.inr hD)
  have hO : ∀ id, (D.add event.id src).Delivered id → D.Delivered id := fun id hI =>
    (delivered_add.mp hI).elim (fun hO => hO) fun hM => hM ▸ hD
  refine ⟨hS, h.queue, fun t => (h.refuses t).trans (hB t).symm, fun id r hW => ?_,
    fun id hI hU hN => ?_, fun id ad hI hU ha => ?_⟩
  · have hW : events.rowOf id = some r := hW
    rw [hR, update_apply] at hW
    split_ifs at hW with hM
    · cases hW
      subst hM
      exact ⟨delivered_add.mpr (.inr rfl), hC, ho.observe src⟩
    · obtain ⟨hs, hr, he⟩ := h.present id r hW
      exact ⟨delivered_add.mpr (.inl hs), hr, he.of_ne hM⟩
  · obtain ⟨r, hW⟩ := h.unaddressed id (hO id hI) (fun hi => hU ((hB _).mpr hi)) hN
    rw [hR, update_apply]
    split_ifs
    · exact ⟨_, rfl⟩
    · exact ⟨r, hW⟩
  · obtain ⟨r, hW, hl⟩ := h.addressed id ad (hO id hI) (fun hi => hU ((hB _).mpr hi)) ha
    obtain ⟨hL, hA'⟩ := h.sound.events.rowAt_some.mp hW
    by_cases hM : r.event.id = event.id
    · rw [hM] at hL
      cases hA.symm.trans hL
      refine ⟨st.observedBy src, hS.events.rowAt_some.mpr ⟨?_, hA'⟩, hl⟩
      show events.rowOf st.event.id = _
      rw [hR, hM, update_self]
    · refine ⟨r, hS.events.rowAt_some.mpr ⟨?_, hA'⟩, hl⟩
      rw [hR, update_of_ne hM]
      exact hL

theorem Reflects.ignores (h : s.Reflects bs D) (ho : event.SameBody (bs event.id))
    (hR : event.isDeletion = false) (hN : s.events.rowOf event.id = none)
    (hb : ¬ D.Buried bs (bs event.id) → ∃ ad st, addressOf (bs event.id) = some ad ∧
      s.events.rowAt ad = some st ∧ st.event.NotBelow (bs event.id)) :
    Reflects bs (D.add event.id src) s := by
  have hB := buried_add_iff D src ho (.inl hR)
  refine ⟨h.sound, h.queue, fun t => (h.refuses t).trans (hB t).symm, fun id r hW => ?_,
    fun id hI hU hn => ?_, fun id ad hI hU hA => ?_⟩
  · obtain ⟨hi, hr, hS⟩ := h.present id r hW
    refine ⟨delivered_add.mpr (.inl hi), hr, hS.of_ne ?_⟩
    rintro rfl
    cases hN.symm.trans hW
  · rw [hB] at hU
    rcases delivered_add.mp hI with hO | rfl
    · exact h.unaddressed id hO hU hn
    · obtain ⟨_, _, hs, -⟩ := hb hU
      cases hn.symm.trans hs
  · rw [hB] at hU
    rcases delivered_add.mp hI with hO | rfl
    · exact h.addressed id ad hO hU hA
    obtain ⟨o, st, hw, hAt, hL⟩ := hb hU
    cases hw.symm.trans hA
    exact ⟨st, hAt, hL⟩

theorem Reflects.places (h : s.Reflects bs D) (hB : event.SameBody (bs event.id)) (hr : event.isDeletion = false)
    (hN : s.events.rowOf event.id = none) (ha : s.tombstones.refuses event = false)
    (hP : s.events.Places event src.provenance (.placed replaced) events)
    (hs : Sound bs { s with events }) : Reflects bs (D.add event.id src) { s with events } := by
  have hb := buried_add_iff D src hB (.inl hr)
  have hU : ¬ D.Buried bs (bs event.id) := fun hI => by
    have hf := (h.refuses event).mpr ((buried_congr hB).mpr hI)
    cases hf.symm.trans ha
  have ho := hB.addressOf_eq
  -- an earlier delivery would have left a row, or lost against the row that it beats now
  have h3 : ¬ D.Delivered event.id := fun hD => by
    cases hA : addressOf (bs event.id) with
    | none =>
      obtain ⟨st, hAt⟩ := h.unaddressed event.id hD hU hA
      cases hN.symm.trans hAt
    | some ad =>
      obtain ⟨st, hAt, hL⟩ := h.addressed event.id ad hD hU hA
      cases hP with
      | free hF => cases (hF ad (ho.trans hA)).symm.trans hAt
      | wins hA' hC hw =>
        cases (ho.trans hA).symm.trans hA'
        cases hC.symm.trans hAt
        obtain ⟨hId, -, hTi, -⟩ := hB.fields
        rw [candidateWins_iff, hId, hTi] at hw
        rw [Event.notBelow_iff] at hL
        omega
  -- the rows that stay are those of other addresses and of none
  obtain ⟨hM, ht, hOn, h4⟩ : events.rowOf event.id = some ⟨event, src.provenance⟩ ∧
      (∀ id st, s.events.rowOf id = some st → (addressOf st.event = none ∨ addressOf st.event ≠ addressOf event) →
        events.rowOf id = some st) ∧
      (∀ id st, events.rowOf id = some st → id ≠ event.id → s.events.rowOf id = some st) ∧
      ∀ ad st, addressOf event = some ad → s.events.rowAt ad = some st → event.NotBelow st.event := by
    cases hP with
    | free hF hOk hR =>
      refine ⟨by rw [hR, update_self], fun id st hAt _ => ?_, fun id st hAt hn => ?_, fun ad st hA hAt => ?_⟩
      · rw [hR, update_of_ne, hAt]
        rintro rfl
        cases hN.symm.trans hAt
      · rwa [hR, update_of_ne hn] at hAt
      · cases (hF ad hA).symm.trans hAt
    | wins hA hC hw hOk hR =>
      obtain ⟨hl, hT⟩ := h.sound.events.rowAt_some.mp hC
      refine ⟨by rw [hR, update_self], fun id st hAt hE => ?_, fun id st hAt hn => ?_,
        fun ad st hA' hAt => ?_⟩
      · rw [hR, update_of_ne, update_of_ne, hAt]
        · rintro rfl
          cases hl.symm.trans hAt
          rw [hT, hA] at hE
          simp at hE
        · rintro rfl
          cases hN.symm.trans hAt
      · rw [hR, update_of_ne hn, update_apply] at hAt
        split_ifs at hAt
        exact hAt
      · cases hA.symm.trans hA'
        cases hC.symm.trans hAt
        exact .of_wins hw
  have h1 : ∀ ad, addressOf event = some ad →
      events.rowAt ad = some ⟨event, src.provenance⟩ := fun ad hA =>
    hs.events.rowAt_some.mpr ⟨hM, hA⟩
  refine ⟨hs, h.queue, fun t => (h.refuses t).trans (hb t).symm, fun id r hW => ?_,
    fun id hId hU h2 => ?_, fun id ad hId hU hA => ?_⟩
  · by_cases hS : id = event.id
    · subst hS
      cases hM.symm.trans hW
      exact ⟨delivered_add.mpr (.inr rfl), rfl, .first h3 src⟩
    · obtain ⟨hi, hG, he⟩ := h.present id r (hOn id r hW hS)
      exact ⟨delivered_add.mpr (.inl hi), hG, he.of_ne hS⟩
  · rcases delivered_add.mp hId with hO | rfl
    · obtain ⟨st, hAt⟩ := h.unaddressed id hO (fun hI => hU ((hb _).mpr hI)) h2
      exact ⟨st, ht id st hAt (.inl ((h.body hAt).addressOf_eq.trans h2))⟩
    · exact ⟨_, hM⟩
  · rcases delivered_add.mp hId with hO | rfl
    · obtain ⟨st, hAt, hL⟩ := h.addressed id ad hO (fun hI => hU ((hb _).mpr hI)) hA
      by_cases hS : addressOf event = some ad
      · exact ⟨_, h1 ad hS, (h4 ad st hS hAt).trans hL⟩
      obtain ⟨hl, hT⟩ := h.sound.events.rowAt_some.mp hAt
      have hE : addressOf st.event ≠ addressOf event := fun hq => hS (hq ▸ hT)
      exact ⟨st, hs.events.rowAt_some.mpr ⟨ht _ st hl (.inr hE), hT⟩, hL⟩
    · exact ⟨_, h1 ad (ho.trans hA), .of_sameBody hB⟩

theorem Reflects.deletes (h : s.Reflects bs D) (hP : Plain bs (D.add event.id src))
    (hB : event.SameBody (bs event.id)) (he : event.isDeletion = true)
    (hN : s.events.rowOf event.id = none)
    (hR : events.rowOf = update s.events.rowOf event.id (some ⟨event, src.provenance⟩))
    (hD : Deletes { s with events } event.Names s') (hS : s'.Sound bs) :
    s'.Reflects bs (D.add event.id src) := by
  have hI : (bs event.id).isDeletion = true := hB.isDeletion_eq ▸ he
  have h1 : (bs event.id).id = event.id := hB.fields.1.symm
  have ho : addressOf (bs event.id) = none := addressOf_isDeletion hI
  have hF : ¬ D.Delivered event.id := fun hd => by
    obtain ⟨st, hAt⟩ := h.unaddressed event.id hd (hP.of_add.unburied h1 hd hI) ho
    cases hN.symm.trans hAt
  have hb : ∀ t, (D.add event.id src).Buried bs t ↔ D.Buried bs t ∨ event.Names t :=
    fun t => by rw [buried_add, Event.Names.of_deleting hB]; simp [hI]
  -- a row of another event stays unless the deletion names it
  have hs : ∀ id st, s.events.rowOf id = some st → ¬ event.Names (bs id) → s'.events.rowOf id = some st := by
    intro id st hAt hY
    rw [hD.rows]
    refine ⟨?_, fun hn => hY ((Event.Names.congr (h.body hAt)).mp hn)⟩
    rw [hR, update_of_ne, hAt]
    rintro rfl
    cases hN.symm.trans hAt
  refine ⟨hS, hD.queue.trans h.queue, fun t => ?_, fun id r hW => ?_, fun id hi hU ho => ?_,
    fun id ad hi hU hA => ?_⟩
  · rw [hD.refuses, hb]
    exact or_congr (h.refuses t) .rfl
  · have hW : events.rowOf id = some r := ((hD.rows id r).mp hW).1
    rw [hR, update_apply] at hW
    split_ifs at hW with hm
    · cases hW
      subst hm
      exact ⟨delivered_add.mpr (.inr rfl), rfl, .first hF src⟩
    · obtain ⟨hI, hr, hE⟩ := h.present id r hW
      exact ⟨delivered_add.mpr (.inl hI), hr, hE.of_ne hm⟩
  · rw [hb, not_or] at hU
    rcases delivered_add.mp hi with hO | rfl
    · obtain ⟨st, hAt⟩ := h.unaddressed id hO hU.1 ho
      exact ⟨st, hs id st hAt hU.2⟩
    refine ⟨⟨event, src.provenance⟩, (hD.rows _ _).mpr ⟨?_, fun hn => hU.2 ?_⟩⟩
    · rw [hR, update_self]
    · exact (Event.Names.congr hB).mp hn
  · rw [hb, not_or] at hU
    rcases delivered_add.mp hi with hO | rfl
    · obtain ⟨st, hAt, hL⟩ := h.addressed id ad hO hU.1 hA
      obtain ⟨hl, ht, hT⟩ := h.rowAt_body hAt
      refine ⟨st, ?_, hL⟩
      obtain ⟨-, ha⟩ := h.sound.events.rowAt_some.mp hAt
      refine hS.events.rowAt_some.mpr ⟨hs _ st hl fun hn => hU.2 ?_, ha⟩
      rw [Event.Names.of_deleting hB] at hn ⊢
      refine hP.names_below ht.fields.1.symm (delivered_add.mpr (.inr rfl))
        (delivered_add.mpr (.inl (h.present _ st hl).1)) hI hT hA ?_ hn
      exact (Event.NotBelow.of_sameBody ht.symm).trans hL
    · cases ho.symm.trans hA

theorem Reflects.ingests (h : s.Reflects bs D) (hP : Plain bs (D.add event.id src))
    (hE : Authentic bs event) (hI : s.Ingests event src o s') :
    s'.Reflects bs (D.add event.id src) := by
  have hB : event.SameBody (bs event.id) := hE
  have hS := (h.sound.ingests hE hI).1
  cases hI with
  | expired he =>
    have hL := hP.lasting event.id (delivered_add.mpr (.inr rfl))
    simp [Event.isExpiredAt, hB.fields.2.2.2.2, hL] at he
  | merged _ hA _ _ hR => exact h.merges hB hA hS hR
  | adopted _ hA hd => cases (h.present _ _ hA).2.1.symm.trans hd
  | refused _ hN hf =>
    have hi := (buried_congr hB).mp ((h.refuses event).mp hf)
    refine h.ignores hB ?_ hN fun hY => absurd hi hY
    by_contra hD
    have hs : (bs event.id).isDeletion = true := hB.isDeletion_eq ▸ (Bool.not_eq_false _).mp hD
    exact hP.unburied hB.fields.1.symm (delivered_add.mpr (.inr rfl)) hs (buried_add.mpr (.inl hi))
  | placed hF hN ha hp hr =>
    rename_i pl events
    cases pl with
    | placed rp => exact h.places hB hr hN ha hp hS
    | stale =>
      cases hp with
      | stale h1 hC hl =>
        refine h.ignores hB hr hN fun _ => ⟨_, _, hB.addressOf_eq ▸ h1, hC, ?_⟩
        exact Event.NotBelow.trans hl (.of_sameBody hB)
  | deleting _ hN _ hD _ hR h2 => exact h.deletes hP hB hD hN hR h2 hS

inductive Delivers : List Delivery → Store → Prop
  | empty : Delivers [] {}
  | insert {L : List Delivery} {s s' : Store} {event : Event} {source : RelayObserved}
      {outcome : InsertOutcome} (before : Delivers L s) (hOk : s.insert event source = .ok (outcome, s')) :
      Delivers (L ++ [(event, source)]) s'
  | insertBatch {L deliveries : List Delivery} {s s' : Store} {outcomes : List InsertOutcome}
      (before : Delivers L s) (hOk : s.insertBatch deliveries = .ok (outcomes, s')) : Delivers (L ++ deliveries) s'

section
omit [ShardHash]

def deliveriesOf (L : List Delivery) : Deliveries := fun id relay time =>
  ∃ event, event.id = id ∧ (event, (⟨relay, time⟩ : RelayObserved)) ∈ L

theorem deliveriesOf_append (L : List Delivery) (event : Event) (s : RelayObserved) :
    deliveriesOf (L ++ [(event, s)]) = (deliveriesOf L).add event.id s := by
  funext id r time
  refine propext ⟨?_, ?_⟩
  · rintro ⟨fd, rfl, hM⟩
    rcases mem_append.mp hM with hO | hN
    · exact .inl ⟨fd, rfl, hO⟩
    · obtain ⟨rfl, hS⟩ := Prod.mk.inj (mem_singleton.mp hN)
      exact .inr ⟨rfl, by rw [← hS], by rw [← hS]⟩
  · rintro (⟨fd, rfl, hM⟩ | ⟨rfl, rfl, rfl⟩)
    · exact ⟨fd, rfl, mem_append_left _ hM⟩
    · exact ⟨event, rfl, by simp⟩

end

theorem Reflects.commits (h : s.Reflects bs D) (hC : s.Commits s') : s'.Reflects bs D where
  sound := (h.sound.with_commit hC).1
  queue := hC.queue.trans h.queue
  refuses event := by rw [hC.tombstones]; exact h.refuses event
  present id st hAt := h.present id st (hC.rows ▸ hAt)
  unaddressed id hD hU hN := by
    rw [hC.rows]
    exact h.unaddressed id hD hU hN
  addressed id addr hD hU hA := by
    obtain ⟨st, hAt, hL⟩ := h.addressed id addr hD hU hA
    refine ⟨st, hC.rested.ok.rowAt_some.mpr ?_, hL⟩
    rw [hC.rows]
    exact h.sound.events.rowAt_some.mp hAt

theorem Reflects.batch
    (h : s.Reflects bs (deliveriesOf L)) (hb : ∀ dl ∈ dels, Authentic bs dl.1)
    (hP : Plain bs (deliveriesOf (L ++ dels)))
    (hOk : s.insertBatch dels = .ok (outs, s')) : s'.Reflects bs (deliveriesOf (L ++ dels)) := by
  obtain ⟨m, hm, ⟨rfl, rfl⟩ | hL⟩ := h.sound.insertBatch_ok hb hOk
    (fun done _ nw => nw.Reflects bs (deliveriesOf (L ++ done))) (by simpa using h)
    fun {done dl _ _ _ _} hp _ hE _ hI hn => by
      have hB : ∀ id, (deliveriesOf (L ++ (done ++ [dl]))).Delivered id → (deliveriesOf (L ++ dels)).Delivered id := by
        rintro id ⟨r, time, event, hId, hM⟩
        refine ⟨r, time, event, hId, ?_⟩
        rcases mem_append.mp hM with hO | hN
        · exact mem_append_left _ hO
        · exact mem_append_right _ (hp.subset hN)
      have hS : Plain bs (deliveriesOf (L ++ (done ++ [dl]))) :=
        ⟨fun id hId => hP.lasting id (hB id hId), fun d id hD hId => hP.targets d id (hB d hD) (hB id hId)⟩
      rw [← append_assoc, deliveriesOf_append] at hS ⊢
      exact hn.ingests hS hE hI
  · exact hm
  · exact hm.commits hL.commits

theorem Delivers.reflects (hb : ∀ dl ∈ L, Authentic bs dl.1)
    (hP : Plain bs (deliveriesOf L)) (hd : Delivers L s) : s.Reflects bs (deliveriesOf L) := by
  have hp : ∀ {L L' : List Delivery}, Plain bs (deliveriesOf (L ++ L')) → Plain bs (deliveriesOf L) := by
    intro L L' hW
    have hB : ∀ id, (deliveriesOf L).Delivered id → (deliveriesOf (L ++ L')).Delivered id :=
      fun id ⟨r, time, event, hId, hM⟩ => ⟨r, time, event, hId, mem_append_left _ hM⟩
    exact ⟨fun id hId => hW.lasting id (hB id hId), fun d id hD hId => hW.targets d id (hB d hD) (hB id hId)⟩
  induction hd with
  | empty =>
    have hN : deliveriesOf [] = fun _ _ _ => False := by
      funext id r time
      simp [deliveriesOf]
    exact hN ▸ reflects_empty
  | insert b hOk ih =>
    have hf := ih (fun dl hM => hb dl (mem_append_left _ hM)) (hp hP)
    have hE := hb _ (mem_append_right _ (.head _))
    obtain ⟨m, hI, hL⟩ := hf.sound.insert_ok hE hOk
    rw [deliveriesOf_append] at hP ⊢
    exact (hf.ingests hP hE hI).commits hL.commits
  | insertBatch b hOk ih =>
    have hf := ih (fun dl hM => hb dl (mem_append_left _ hM)) (hp hP)
    exact hf.batch (fun dl hM => hb dl (mem_append_right _ hM)) hP hOk

theorem Reflects.row (h : s.Reflects bs D) (h' : s'.Reflects bs D) (hA : s.events.rowOf id = some st) :
    ∃ st', s'.events.rowOf id = some st' ∧ st.event.SameBody st'.event ∧ st.provenance = st'.provenance := by
  obtain ⟨hD, hLocal, hS⟩ := h.present id st hA
  obtain ⟨st', hA'⟩ : ∃ st', s'.events.rowOf id = some st' := by
    cases ha : addressOf (bs id) with
    | none => exact h'.unaddressed id hD (h.unburied hA) ha
    | some ad =>
      -- the best event of the address in the other store does not beat this one, nor is it beaten
      obtain ⟨o, hX, hl⟩ := h'.addressed id ad hD (h.unburied hA) ha
      obtain ⟨hL, hO, hT⟩ := h'.rowAt_body hX
      obtain ⟨mn, hMine, hb⟩ := h.addressed _ ad (h'.present _ o hL).1 (h'.unburied hL) hT
      have hs : s.events.rowAt ad = some st := h.sound.events.rowAt_some.mpr
        ⟨h.sound.events.rowOf_id hA ▸ hA, (h.body hA).addressOf_eq.trans ha⟩
      cases hs.symm.trans hMine
      have hB := (hb.trans (.of_sameBody hO.symm))
      have hW := (hl.trans (.of_sameBody (h.body hA).symm))
      rw [Event.notBelow_iff] at hB hW
      have hI : o.event.id = id := by
        have := h.sound.events.rowOf_id hA
        omega
      exact ⟨o, hI ▸ hL⟩
  obtain ⟨-, hLocal', hS'⟩ := h'.present id st' hA'
  refine ⟨st', hA', (h.body hA).trans (h'.body hA').symm, ?_⟩
  have hn := hS.unique hS'
  cases hP : st.provenance
  cases hP' : st'.provenance
  simp_all

omit [ShardHash] in
def SameRow (a b : StoredEvent) : Prop := a.event.SameBody b.event ∧ a.provenance = b.provenance

/-- Two ways of delivering the same events, through the same relays at the same times, end with the same rows, and no
draft hides any of them. -/
theorem deliveries_converge {L L' : List Delivery} (hBodies : ∀ delivery ∈ L, Authentic bodies delivery.1)
    (hLasting : ∀ delivery ∈ L, delivery.1.tags.expiration = none)
    (hTargets : ∀ deletion ∈ L, deletion.1.isDeletion = true → ∀ target ∈ L, target.1.id ∈ deletion.1.tags.eventIds →
      addressOf target.1 = none ∧ target.1.isDeletion = false)
    (hFirst : Delivers L s) (hSecond : Delivers L' s') (hSame : ∀ delivery, delivery ∈ L ↔ delivery ∈ L') :
    (∀ id, Option.Rel SameRow (s.events.rowOf id) (s'.events.rowOf id)) ∧ s.queue = {} ∧ s'.queue = {} := by
  have hP : Plain bodies (deliveriesOf L) := by
    constructor
    · rintro id ⟨rly, time, event, rfl, hM⟩
      rw [← (hBodies _ hM).fields.2.2.2.2]
      exact hLasting _ hM
    · rintro d id ⟨rly, time, deletion, rfl, hD⟩ ⟨rly', time', target, rfl, hT⟩ hI hi
      rw [← (hBodies _ hD).fields.2.2.2.2] at hi
      rw [← (hBodies _ hD).isDeletion_eq] at hI
      obtain ⟨hN, hR⟩ := hTargets _ hD hI _ hT hi
      exact ⟨(hBodies _ hT).addressOf_eq ▸ hN, (hBodies _ hT).isDeletion_eq ▸ hR⟩
  have hE : deliveriesOf L' = deliveriesOf L := by
    funext id rly time
    exact propext (exists_congr fun event => and_congr_right fun _ => (hSame _).symm)
  have ho := hFirst.reflects hBodies hP
  have ht := hSecond.reflects (fun delivery hM => hBodies delivery ((hSame delivery).mpr hM)) (hE ▸ hP)
  rw [hE] at ht
  refine ⟨fun id => ?_, ho.queue, ht.queue⟩
  cases hA : s.events.rowOf id with
  | some st =>
    obtain ⟨st', hA', hS⟩ := ho.row ht hA
    rw [hA']
    exact .some hS
  | none =>
    cases hA' : s'.events.rowOf id with
    | none => exact .none
    | some st' =>
      obtain ⟨st, hF, -⟩ := ht.row ho hA'
      cases hA.symm.trans hF

/-- Of what was delivered the store shows exactly what no deletion buries and nothing beats at its address, each row
with every relay's latest observation. -/
theorem delivered_rows_exact (hBodies : ∀ delivery ∈ L, Authentic bodies delivery.1)
    (hP : Plain bodies (deliveriesOf L)) (h : Delivers L s) (id : EventId) :
    ((s.events.rowOf id).isSome ↔ (deliveriesOf L).Delivered id ∧ ¬(deliveriesOf L).Buried bodies (bodies id) ∧
      ∀ address other, addressOf (bodies id) = some address → (deliveriesOf L).Delivered other →
        ¬(deliveriesOf L).Buried bodies (bodies other) → addressOf (bodies other) = some address →
        (bodies id).NotBelow (bodies other)) ∧
      ∀ st ∈ s.events.rowOf id, st.event.SameBody (bodies id) ∧ (deliveriesOf L).Observed id st.provenance.seen := by
  have hr := h.reflects hBodies hP
  refine ⟨?_, fun st hA => ⟨hr.body hA, (hr.present id st hA).2.2⟩⟩
  rw [isSome_iff_exists]
  constructor
  · rintro ⟨st, hA⟩
    refine ⟨(hr.present id st hA).1, hr.unburied hA, fun address other ha hD hB ho => ?_⟩
    obtain ⟨best, hW, hn⟩ := hr.addressed other address hD hB ho
    have hs := hr.sound.events.rowAt_some.mpr ⟨hr.sound.events.rowOf_id hA ▸ hA, (hr.body hA).addressOf_eq.trans ha⟩
    cases hs.symm.trans hW
    exact (Event.NotBelow.of_sameBody (hr.body hA).symm).trans hn
  · rintro ⟨hD, hB, hT⟩
    cases ha : addressOf (bodies id) with
    | none => exact hr.unaddressed id hD hB ha
    | some address =>
      -- the row of the address and the event do not beat each other
      obtain ⟨best, hW, hn⟩ := hr.addressed id address hD hB ha
      obtain ⟨hO, hS, hE⟩ := hr.rowAt_body hW
      have hm := (hT address _ ha (hr.present _ best hO).1 (hr.unburied hO) hE).trans (.of_sameBody hS.symm)
      obtain ⟨_, _, event, rfl, hM⟩ := hD
      have hi : event.id = (bodies event.id).id := (hBodies _ hM).fields.1
      rw [Event.notBelow_iff] at hn hm
      exact ⟨best, (by omega : best.event.id = event.id) ▸ hO⟩

def contactList (id createdAt : Nat) : Event := .bare id 2 createdAt 3

omit [ShardHash] in
/-- An older and a newer list, one after the other and in one batch the other way round. -/
theorem deliveries_converge_two_lists :
    ∃ s s' : Store, @Delivers oneShard [(contactList 4 10, ⟨"wss://a", 20⟩), (contactList 5 30, ⟨"wss://b", 40⟩)] s ∧
      @Delivers oneShard [(contactList 5 30, ⟨"wss://b", 40⟩), (contactList 4 10, ⟨"wss://a", 20⟩)] s' ∧
      ∀ id, Option.Rel SameRow (s.events.rowOf id) (s'.events.rowOf id) := by
  let _ := oneShard
  have hR : ((Store.insert {} (contactList 4 10) ⟨"wss://a", 20⟩).toOption.any (fun first =>
        (first.2.insert (contactList 5 30) ⟨"wss://b", 40⟩).toOption.isSome) &&
      (Store.insertBatch {} [(contactList 5 30, ⟨"wss://b", 40⟩), (contactList 4 10, ⟨"wss://a", 20⟩)]).toOption.isSome) = true := by
    decide +kernel
  simp only [and_eq_true, any_eq_true, isSome_iff_exists, toOption_some] at hR
  obtain ⟨⟨first, hF, second, hS⟩, batch, hb⟩ := hR
  have ho : Delivers [(contactList 4 10, ⟨"wss://a", 20⟩), (contactList 5 30, ⟨"wss://b", 40⟩)] second.2 :=
    (Delivers.empty.insert hF).insert hS
  have hT : Delivers [(contactList 5 30, ⟨"wss://b", 40⟩), (contactList 4 10, ⟨"wss://a", 20⟩)] batch.2 :=
    Delivers.empty.insertBatch hb
  have hB : ∀ dlv ∈ [(contactList 4 10, (⟨"wss://a", 20⟩ : RelayObserved)), (contactList 5 30, ⟨"wss://b", 40⟩)],
      Authentic (fun id => if id = 4 then contactList 4 10 else contactList 5 30) dlv.1 := by
    simp [Authentic, contactList, Event.bare, Event.SameBody]
  refine ⟨second.2, batch.2, ho, hT, (deliveries_converge hB ?_ ?_ ho hT ?_).1⟩
  · simp [contactList, Event.bare]
  · simp [contactList, Event.bare, Event.isDeletion]
  intro dlv
  simp only [mem_cons, not_mem_nil, or_false]
  exact or_comm

omit [ShardHash] in
/-- Of an older and a newer list the newer one is shown. -/
theorem delivered_rows_exact_two_lists :
    ∃ s : Store, @Delivers oneShard [(contactList 4 10, ⟨"wss://a", 20⟩), (contactList 5 30, ⟨"wss://b", 40⟩)] s ∧
      (s.events.rowOf 5).isSome ∧ s.events.rowOf 4 = none := by
  let _ := oneShard
  have hR : (Store.insert {} (contactList 4 10) ⟨"wss://a", 20⟩).toOption.any (fun first =>
      (first.2.insert (contactList 5 30) ⟨"wss://b", 40⟩).toOption.any fun second =>
        (second.2.events.rowOf 5).isSome) = true := by decide +kernel
  simp only [any_eq_true, toOption_some] at hR
  obtain ⟨first, hF, second, hS, hShown⟩ := hR
  have hd : Delivers [(contactList 4 10, ⟨"wss://a", 20⟩), (contactList 5 30, ⟨"wss://b", 40⟩)] second.2 :=
    (Delivers.empty.insert hF).insert hS
  refine ⟨_, hd, hShown, ?_⟩
  have hE := (@delivered_rows_exact _ _ _ (fun id => contactList id (if id = 4 then 10 else 30)) ?_ ⟨?_, ?_⟩ hd 4).1
  · rw [← Option.not_isSome_iff_eq_none, hE]
    rintro ⟨-, -, hBest⟩
    refine absurd (Event.notBelow_iff.mp (hBest _ 5 rfl ⟨"wss://b", 40, contactList 5 30, rfl, by simp⟩ ?_ rfl)) (by decide)
    rintro ⟨d, -, hD, -⟩
    simp [contactList, Event.bare, Event.isDeletion] at hD
  · simp [Authentic, contactList, Event.bare, Event.SameBody]
  · simp [contactList, Event.bare]
  · simp [contactList, Event.bare, Event.isDeletion]

end Store

end NmpStore

import NmpStore.Store.Settle
import NmpStore.Store.Maintenance
import NmpStore.Canonical.RowWrites

/-! # What the shared mutations do to rows and tombstones

A deletion removes exactly the rows it names and from then on the tombstones refuse exactly those events in addition.
-/

namespace NmpStore

variable [ShardHash]

namespace EventTables

variable {t t' : EventTables}

theorem loadAt_cases (h : t.Ok)
    (hL : t.loadAt addr = .ok fd) : fd.map Prod.snd = t.rowAt addr := by
  unfold loadAt at hL
  unfold rowAt
  cases hK : t.addrIndex[addr]? with
  | none =>
    rw [hK] at hL
    cases hL
    rfl
  | some k =>
    simp only [hK, h.loadByKey_eq, bind_ok, Except.ok.injEq, exists_eq_left'] at hL
    cases hS : t.stored k with
    | none => simp [hS] at hL
    | some st =>
      rw [hS] at hL
      cases hL
      simpa using hS.symm

inductive Places (t : EventTables) (event : Event) (provenance : Provenance) : Placement → EventTables → Prop where
  | free {t' : EventTables} (hFree : ∀ address, addressOf event = some address → t.rowAt address = none) (hOk : t'.Ok)
      (hRows : t'.rowOf = update t.rowOf event.id (some ⟨event, provenance⟩)) :
      Places t event provenance (.placed none) t'
  | wins {t' : EventTables} {address : RedbKey} {current : StoredEvent} (hAddress : addressOf event = some address)
      (hCurrent : t.rowAt address = some current) (hWins : candidateWins event current.event = true) (hOk : t'.Ok)
      (hRows : t'.rowOf = update (update t.rowOf current.event.id none) event.id (some ⟨event, provenance⟩)) :
      Places t event provenance (.placed (some current)) t'
  | stale {address : RedbKey} {current : StoredEvent} (hAddress : addressOf event = some address)
      (hCurrent : t.rowAt address = some current) (hLoses : candidateWins event current.event = false) :
      Places t event provenance .stale t

theorem place_ok (h : t.Ok) (hN : t.rowOf ev.id = none) (hP : t.place ev prov = .ok (placement, t')) :
    t.Places ev prov placement t' := by
  obtain ⟨fd, hF, hP⟩ := bind_ok.mp hP
  have hCurrent : ∀ ad, addressOf ev = some ad → fd.map Prod.snd = t.rowAt ad := fun ad hAddress => by
    rw [loadRival, hAddress] at hF
    exact loadAt_cases h hF
  cases fd with
  | none =>
    simp only [run_ok] at hP
    obtain ⟨_, hI, rfl, rfl⟩ := hP
    have hFree : ∀ ad, addressOf ev = some ad → t.rowAt ad = none :=
      fun ad hAddress => (hCurrent ad hAddress).symm
    obtain ⟨hOk, hRows⟩ := insertRow_ok h hN hFree hI
    exact .free hFree hOk hRows
  | some e =>
    obtain ⟨k, c⟩ := e
    dsimp only at hP
    obtain ⟨ad, hAddress⟩ : ∃ ad, addressOf ev = some ad := by
      cases hAddress : addressOf ev with
      | none => simp [loadRival, hAddress] at hF
      | some ad => exact ⟨ad, rfl⟩
    have hA : t.rowAt ad = some c := (hCurrent ad hAddress).symm
    have hW := h.rowAt_some.mp hA
    split at hP
    · rename_i hWins
      obtain ⟨⟨gn, m⟩, hR, hP⟩ := bind_ok.mp hP
      obtain ⟨hD, hG, hM⟩ := removeRow_ok h hR
      rw [hW.1] at hG
      obtain rfl : gn = some c := by simpa [Option.filter] using hG
      simp only [run_ok] at hP
      obtain ⟨_, hI, rfl, rfl⟩ := hP
      simp only [isSome_some, ↓reduceIte] at hM
      have hm : m.rowOf ev.id = none := by
        rw [hM, update_apply]
        split
        · rfl
        · exact hN
      -- the only row of the address has just left
      have hFree : ∀ o, addressOf ev = some o → m.rowAt o = none := fun o hX => by
        cases hAddress.symm.trans hX
        refine eq_none_iff_forall_ne_some.mpr fun st ht => ?_
        obtain ⟨hS, hd⟩ := hD.rowAt_some.mp ht
        rw [hM, update_apply] at hS
        split at hS
        · cases hS
        rename_i hn
        have hs := h.rowAt_some.mpr ⟨hS, hd⟩
        rw [hA] at hs
        exact hn (congrArg (fun st => st.event.id) (Option.some.inj hs).symm)
      obtain ⟨hOk, hRows⟩ := insertRow_ok hD hm hFree hI
      exact .wins hAddress hA hWins hOk (hM ▸ hRows)
    · rename_i hLoses
      cases hP
      exact .stale hAddress hA (by simpa using hLoses)

theorem Places.ok (h : t.Ok) (hP : t.Places ev prov placement t') : t'.Ok := by
  cases hP <;> assumption

theorem Places.row_cases
    (hP : t.Places ev prov placement t') {id : EventId} (hA : t'.rowOf id = some st) :
    (id = ev.id ∧ st = ⟨ev, prov⟩) ∨ t.rowOf id = some st := by
  cases hP with
  | stale => exact .inr hA
  | free _ _ hRows =>
    rw [hRows, update_apply] at hA
    split at hA
    · rename_i hI
      exact .inl ⟨hI, (Option.some.inj hA).symm⟩
    · exact .inr hA
  | wins _ _ _ _ hRows =>
    rw [hRows, update_apply, update_apply] at hA
    split at hA
    · rename_i hI
      exact .inl ⟨hI, (Option.some.inj hA).symm⟩
    split at hA
    · cases hA
    · exact .inr hA

end EventTables

def Event.NamesId (deleting target : Event) : Prop :=
  target.id ∈ deleting.tags.eventIds ∧ target.pubkey = deleting.pubkey

def Event.NamesAddress (deleting target : Event) : Prop :=
  ∃ address ∈ Store.ownAddresses deleting, addressOf target = some address ∧ target.createdAt ≤ deleting.createdAt

def Event.Names (deleting target : Event) : Prop := deleting.NamesId target ∨ deleting.NamesAddress target

instance (deleting target : Event) : Decidable (deleting.Names target) :=
  inferInstanceAs (Decidable ((_ ∧ _) ∨ ∃ address ∈ _, _ ∧ _))

variable {a b : Event} {tombstones : Tombstones}

section
omit [ShardHash]

theorem Event.Names.congr {dl : Event} (h : a.SameBody b) : dl.Names a ↔ dl.Names b := by
  obtain ⟨hId, hA, hT, -, -⟩ := h.fields
  rw [Names, Names, NamesId, NamesId, NamesAddress, NamesAddress, hId, hA, hT, h.addressOf_eq]

theorem Tombstones.refuses_congr (h : a.SameBody b) : tombstones.refuses a = tombstones.refuses b := by
  obtain ⟨hId, hA, hT, -, -⟩ := h.fields
  rw [refuses, refuses, hId, hA, hT, h.addressOf_eq]

theorem Tombstones.refuses_iff : tombstones.refuses ev = true ↔
    (tombstones.ids[(ev.id, ev.pubkey)]?).isSome ∨
      ∃ ad r, addressOf ev = some ad ∧ tombstones.addrs[ad]? = some r ∧
        ev.createdAt ≤ r.ceiling := by
  unfold refuses
  cases addressOf ev with
  | none => simp
  | some ad => cases hA : tombstones.addrs[ad]? <;> simp [hA]

end

namespace Store

variable {s s' : Store} {tombstones : Tombstones} {named named' : Event → Prop}

/-- A deletion in progress: the rows of the named events are gone and the tombstones refuse them. -/
structure Deletes (s : Store) (named : Event → Prop) (s' : Store) : Prop where
  ok : s'.events.Ok
  queue : s'.queue = s.queue
  rows : ∀ (id : EventId) (st : StoredEvent), s'.events.rowOf id = some st ↔ s.events.rowOf id = some st ∧ ¬ named st.event
  refuses : ∀ event, s'.tombstones.refuses event = true ↔ s.tombstones.refuses event = true ∨ named event

section
omit [ShardHash]

theorem refuses_putId {dl : EventId} :
    Tombstones.refuses { tombstones with ids := tombstones.ids.insert (t, author) dl } ev = true ↔
      tombstones.refuses ev = true ∨ (ev.id = t ∧ ev.pubkey = author) := by
  rw [Tombstones.refuses_iff, Tombstones.refuses_iff, get_insert]
  by_cases hK : (t, author) = (ev.id, ev.pubkey)
  · obtain ⟨hI, hA⟩ := Prod.mk.inj hK
    simp [hI, hA]
  · have hY : ¬ (ev.id = t ∧ ev.pubkey = author) := fun hB => hK (by rw [hB.1, hB.2])
    simp [hK, hY]

theorem refuses_raise : (raiseCeiling tombstones addr deleting).refuses ev = true ↔
      tombstones.refuses ev = true ∨ (addressOf ev = some addr ∧ ev.createdAt ≤ deleting.createdAt) := by
  rw [Tombstones.refuses_iff, Tombstones.refuses_iff]
  unfold raiseCeiling
  split
  · rename_i hH
    simp only [get_insert]
    by_cases hAddress : addressOf ev = some addr
    · -- the new ceiling covers whatever the old one did
      cases hO : tombstones.addrs[addr]? with
      | none => simp [hAddress, hO]
      | some record =>
        have hG : deleting.createdAt > record.ceiling := by simpa [hO] using hH
        have hL : ev.createdAt ≤ record.ceiling → ev.createdAt ≤ deleting.createdAt := fun h => by omega
        simp only [hAddress, Option.some.injEq, exists_and_left, exists_eq_left', ↓reduceIte, hO, true_and]
        tauto
    · have hS : ∀ o, addressOf ev = some o → addr ≠ o := fun o hX hE =>
        hAddress (hE ▸ hX)
      simp only [hAddress, false_and, or_false]
      refine or_congr_right (exists_congr fun o => exists_congr fun record => and_congr_right fun hX => ?_)
      rw [if_neg (hS o hX)]
  · rename_i hl
    cases hO : tombstones.addrs[addr]? with
    | none => simp [hO] at hl
    | some record =>
      have hL : deleting.createdAt ≤ record.ceiling := by simpa [hO] using hl
      constructor
      · exact .inl
      · rintro (h | ⟨hAddress, hT⟩)
        · exact h
        · exact .inr ⟨addr, record, hAddress, hO, hT.trans hL⟩

end

theorem Deletes.refl (h : s.events.Ok) : s.Deletes (fun _ => False) s := ⟨h, rfl, by simp, by simp⟩

theorem Deletes.trans (h : s.Deletes named s') (h' : s'.Deletes named' s'') :
    s.Deletes (fun ev => named ev ∨ named' ev) s'' where
  ok := h'.ok
  queue := h'.queue.trans h.queue
  rows id st := by rw [h'.rows, h.rows, not_or, and_assoc]
  refuses ev := by rw [h'.refuses, h.refuses, or_assoc]

theorem Deletes.congr (h : s.Deletes named s') (hI : ∀ ev, named ev ↔ named' ev) : s.Deletes named' s' := by
  obtain rfl : named = named' := funext fun ev => propext (hI ev)
  exact h

theorem removed_iff {t t' : EventTables} {id : EventId} {pr : StoredEvent → Bool} (hOk : t.Ok)
    (hR : t.removeRow id pr = .ok (gone, t')) (o : EventId) (st : StoredEvent) :
    t'.rowOf o = some st ↔ t.rowOf o = some st ∧ ¬ (o = id ∧ pr st = true) := by
  obtain ⟨-, hG, hRows⟩ := EventTables.removeRow_ok hOk hR
  rw [hRows, hG]
  by_cases hI : o = id
  · subst hI
    cases hAt : t.rowOf o with
    | none => simp [hAt]
    | some r =>
      by_cases hT : pr r = true
      · simp only [Option.filter, hT, ↓reduceIte, isSome_some, update_self, reduceCtorEq, Option.some.injEq,
          true_and, false_iff, not_and, not_not]
        rintro rfl
        exact hT
      · simp only [Option.filter, hT, false_eq_true, ↓reduceIte, isSome_none, hAt, Option.some.injEq, true_and,
          iff_self_and]
        rintro rfl
        exact hT
  · split <;> simp [hI]

theorem deleteId_ok (h : s.events.Ok) (hOk : deleteId deleting (acc, s) tgt = .ok (deleted, s')) :
    s.Deletes (fun ev => ev.id = tgt ∧ ev.pubkey = deleting.pubkey) s' := by
  simp only [deleteId, run_ok] at hOk
  obtain ⟨⟨gn, es⟩, hR, rfl, rfl⟩ := hOk
  obtain ⟨hE, -, -⟩ := EventTables.removeRow_ok h hR
  refine ⟨hE, rfl, fun id st => ?_, fun ev => refuses_putId⟩
  rw [removed_iff h hR]
  refine and_congr_right fun hAt => not_congr ?_
  rw [h.rowOf_id hAt]
  simp

theorem deleteCoordinate_ok (h : s.events.Ok) {co : Coordinate}
    (hOk : deleteCoordinate deleting (acc, s) co = .ok (deleted, s')) :
    s.Deletes (fun ev => ∃ ad, (co.publicKey = deleting.pubkey ∧ addressOfCoordinate co = some ad) ∧
      addressOf ev = some ad ∧ ev.createdAt ≤ deleting.createdAt) s' := by
  unfold deleteCoordinate at hOk
  dsimp only at hOk
  split at hOk
  · rename_i hf
    cases hOk
    exact (Deletes.refl h).congr fun ev => by simp [hf]
  rename_i ho
  have ho : co.publicKey = deleting.pubkey := by simpa using ho
  cases hAddress : addressOfCoordinate co with
  | none =>
    rw [hAddress] at hOk
    cases hOk
    exact (Deletes.refl h).congr fun ev => by simp
  | some ad =>
    rw [hAddress] at hOk
    obtain ⟨fd, hL, hOk⟩ := bind_ok.mp hOk
    have hF := EventTables.loadAt_cases h hL
    have hR : ∀ ev, (raiseCeiling s.tombstones ad deleting).refuses ev = true ↔
        s.tombstones.refuses ev = true ∨ ∃ o, (co.publicKey = deleting.pubkey ∧ some ad = some o) ∧
          addressOf ev = some o ∧ ev.createdAt ≤ deleting.createdAt := fun ev => by
      rw [refuses_raise]
      simp [ho]
    -- a stored row at the address is the one that the index names
    have hn : ∀ {id : EventId} {st : StoredEvent}, s.events.rowOf id = some st → addressOf st.event = some ad →
        fd.map Prod.snd = some st := fun hA hH => by
      obtain rfl := h.rowOf_id hA
      exact hF.trans (h.rowAt_some.mpr ⟨hA, hH⟩)
    cases fd with
    | none =>
      cases hOk
      refine ⟨h, rfl, fun id st => ?_, hR⟩
      refine (and_iff_left_of_imp fun hA => ?_).symm
      rintro ⟨o, ⟨-, hE⟩, hH, -⟩
      cases hn hA (Option.some.inj hE ▸ hH)
    | some e =>
      obtain ⟨k, c⟩ := e
      simp only [run_ok] at hOk
      obtain ⟨⟨gn, es⟩, hr, rfl, rfl⟩ := hOk
      obtain ⟨he, -, -⟩ := EventTables.removeRow_ok h hr
      have hW := h.rowAt_some.mp hF.symm
      refine ⟨he, rfl, fun id st => ?_, hR⟩
      rw [removed_iff h hr]
      refine and_congr_right fun hA => not_congr ?_
      constructor
      · rintro ⟨rfl, hT⟩
        cases hA.symm.trans hW.1
        exact ⟨ad, ⟨ho, rfl⟩, hW.2, by simpa using hT⟩
      · rintro ⟨o, ⟨-, hE⟩, hH, hT⟩
        cases hn hA (Option.some.inj hE ▸ hH)
        exact ⟨(h.rowOf_id hA).symm, by simpa using hT⟩

omit [ShardHash] in
theorem mem_ownAddresses : addr ∈ ownAddresses deleting ↔
    ∃ co ∈ deleting.tags.coordinates, co.publicKey = deleting.pubkey ∧ addressOfCoordinate co = some addr := by
  simp only [ownAddresses, mem_filterMap]
  refine exists_congr fun co => and_congr_right fun _ => ?_
  split <;> simp_all

theorem processKind5Deletions_ok (h : s.events.Ok)
    (hOk : s.processKind5Deletions deleting = .ok (deleted, s')) : s.Deletes deleting.Names s' := by
  obtain ⟨⟨dr, m⟩, hI, hC⟩ := bind_ok.mp hOk
  have hF := foldlM_induction (f := deleteId deleting)
    (fun done a => s.Deletes (fun ev => ev.id ∈ done ∧ ev.pubkey = deleting.pubkey) a.2)
    ((Deletes.refl h).congr fun ev => by simp)
    (fun done t a next _ hA hN =>
      (hA.trans (deleteId_ok hA.ok hN)).congr fun ev => by
        rw [mem_append, mem_singleton, or_and_right]) hI
  have hS := foldlM_induction (f := deleteCoordinate deleting)
    (fun done a => m.Deletes (fun ev => ∃ co ∈ done, ∃ address,
      (co.publicKey = deleting.pubkey ∧ addressOfCoordinate co = some address) ∧
        addressOf ev = some address ∧ ev.createdAt ≤ deleting.createdAt) a.2)
    ((Deletes.refl hF.ok).congr fun ev => by simp)
    (fun done co a next _ hA hN =>
      (hA.trans (deleteCoordinate_ok hA.ok hN)).congr fun ev => by
        simp only [mem_append, mem_singleton, or_and_right, exists_or, exists_eq_left]) hC
  refine (hF.trans hS).congr fun ev => or_congr .rfl ?_
  simp only [Event.NamesAddress, mem_ownAddresses]
  constructor
  · rintro ⟨co, hc, address, hO, hH⟩
    exact ⟨address, ⟨co, hc, hO⟩, hH⟩
  · rintro ⟨address, ⟨co, hc, hO⟩, hH⟩
    exact ⟨co, hc, address, hO, hH⟩

end Store

end NmpStore

import NmpStore.Store.Sound

/-! # Runs of the store

A step is one call of a door that returned. Ids stand for bodies throughout a run, which is what the signature check of
the callers provides.
-/

namespace NmpStore

open Postings (Family RunEvent pendingMemberships)

namespace EventTables

variable [ShardHash] {t : EventTables}

structure Relational (t : EventTables) : Prop where
  ids : ∀ (id : EventId) key, t.eventIds[id]? = some key ↔ ∃ event, t.rows[key]? = some event ∧ event.id = id
  ids_distinct : ∀ (key key' : EventKey) (event event' : Event), t.rows[key]? = some event → t.rows[key']? = some event' →
    event.id = event'.id → key = key'
  addresses : ∀ (address : RedbKey) key, t.addrIndex[address]? = some key ↔
    ∃ event, t.rows[key]? = some event ∧ addressOf event = some address
  addresses_distinct : ∀ (key key' : EventKey) (event event' : Event) (address : RedbKey), t.rows[key]? = some event →
    t.rows[key']? = some event' → addressOf event = some address → addressOf event' = some address → key = key'
  expirations : ∀ (time : Nat) (id : EventId) (key : EventKey), t.expirationIndex[(time, id)]? = some key ↔
    ∃ event, t.rows[key]? = some event ∧ event.id = id ∧ event.tags.expiration = some time
  postings : ∀ (family : Family) (pfx : Bytes) (posting : RunEvent), t.packed.PostsLive family pfx posting ↔
    ∃ event, t.rows[posting.eventKey]? = some event ∧ (prepare event posting.eventKey).event = posting ∧
      (family, pfx) ∈ pendingMemberships (prepare event posting.eventKey)
  interned : ∀ (key : EventKey) (relayKey : RelayKey) (time : Nat), t.observations.observed[(key, relayKey)]? = some time →
    (t.observations.relays[relayKey]?).isSome
  counts : ∀ (relayKey : RelayKey) (refs : Nat) (relay : RelayUrl), t.observations.relays[relayKey]? = some (refs, relay) →
    refs = t.observations.naming relayKey ∧ 0 < refs

theorem Rested.relational (h : t.Rested) : t.Relational where
  ids := h.ok.ids
  ids_distinct k k' ev ev' hAt hAt' hi := by
    have hI := (h.ok.ids ev.id k).mpr ⟨ev, hAt, rfl⟩
    have hI' := (h.ok.ids ev.id k').mpr ⟨ev', hAt', hi.symm⟩
    exact Option.some.inj (hI.symm.trans hI')
  addresses := h.ok.addresses
  addresses_distinct k k' ev ev' addr hAt hAt' hA hA' := by
    have hI := (h.ok.addresses addr k).mpr ⟨ev, hAt, hA⟩
    have hI' := (h.ok.addresses addr k').mpr ⟨ev', hAt', hA'⟩
    exact Option.some.inj (hI.symm.trans hI')
  expirations := h.ok.expirations
  postings f p pst := by
    obtain ⟨lv, last, hP⟩ := h.ok.posted
    have hW := hP.rows pst.eventKey
    rw [h.batch] at hW
    simp only [Postings.get_apply, Std.ExtTreeMap.getElem?_empty, Option.none_or, Std.ExtTreeSet.not_mem_empty,
      ↓reduceIte] at hW
    simp only [hP.flushed.refines, Postings.Pends, hW, map_eq_some_iff]
    constructor
    · rintro ⟨_, ⟨ev, hAt, rfl⟩, hEvent, hM⟩
      exact ⟨ev, hAt, hEvent, hM⟩
    · rintro ⟨ev, hAt, hEvent, hM⟩
      exact ⟨_, ⟨ev, hAt, rfl⟩, hEvent, hM⟩
  interned := h.observations.ok.named
  counts relayKey refs r hAt := h.observations.refs relayKey (refs, r) hAt

theorem rested_empty : Rested {} := by
  refine ⟨ok_empty, ⟨Observations.ok_empty, rfl, ?_⟩, rfl⟩
  simp

structure Thins (t t' : EventTables) : Prop where
  ok : t'.Ok
  rows : ∀ (id : EventId) (st : StoredEvent), t'.rowOf id = some st → t.rowOf id = some st

theorem Thins.refl (h : t.Ok) : t.Thins t := ⟨h, fun _ _ hA => hA⟩

variable {t' : EventTables}

theorem Thins.trans (h : t.Thins t') (h' : t'.Thins t'') : t.Thins t'' :=
  ⟨h'.ok, fun id st hA => h.rows id st (h'.rows id st hA)⟩

theorem removeRow_thins {id : EventId} {pr : StoredEvent → Bool}
    (h : t.Ok) (hR : t.removeRow id pr = .ok (gone, t')) : t.Thins t' := by
  obtain ⟨hOk, -, hr⟩ := removeRow_ok h hR
  refine ⟨hOk, fun o st hA => ?_⟩
  rw [hr] at hA
  split at hA
  · rw [update_apply] at hA
    split_ifs at hA
    exact hA
  · exact hA

end EventTables

namespace Store

variable [ShardHash] {s s' : Store}

inductive Step (bodies : Bodies) : Store → Store → Prop
  | insert {s s' : Store} {event : Event} {source : RelayObserved} {outcome : InsertOutcome}
      (hEvent : Authentic bodies event) (hOk : s.insert event source = .ok (outcome, s')) : Step bodies s s'
  | insertBatch {s s' : Store} {deliveries : List Delivery} {outcomes : List InsertOutcome}
      (hEvents : ∀ delivery ∈ deliveries, Authentic bodies delivery.1)
      (hOk : s.insertBatch deliveries = .ok (outcomes, s')) : Step bodies s s'
  | acceptWrite {s s' : Store} {accept : AcceptWrite} {now : Nat} {outcome : AcceptOutcome}
      (hEvent : Authentic bodies accept.frozen) (hOk : s.acceptWrite accept now = .ok (outcome, s')) : Step bodies s s'
  | promoteSigned {s s' : Store} {intentId : IntentId} {verified : VerifiedSignature} {outcome : PromoteOutcome}
      (hOk : s.promoteSigned intentId verified = .ok (outcome, s')) : Step bodies s s'
  | compensateWrite {s s' : Store} {intentId : IntentId} {reason : CompensationReason} {now : Nat}
      {outcome : CompensateOutcome} (hOk : s.compensateWrite intentId reason now = .ok (outcome, s')) : Step bodies s s'
  | remove {s s' : Store} {id : EventId} {gone : Option StoredEvent} (hOk : s.remove id = .ok (gone, s')) :
      Step bodies s s'
  | expireDue {s s' : Store} {now : Nat} {removed : List StoredEvent} (hOk : s.expireDue now = .ok (removed, s')) :
      Step bodies s s'
  | gc {s s' : Store} {claimed : Event → Bool} {report : GcReport} (hOk : s.gc claimed = .ok (report, s')) :
      Step bodies s s'

inductive Reachable (bodies : Bodies) : Store → Prop
  | empty : Reachable bodies {}
  | step {s s' : Store} (hReach : Reachable bodies s) (hStep : Step bodies s s') : Reachable bodies s'

structure Keeps (bodies : Bodies) (s s' : Store) : Prop where
  sound : s'.Sound bodies
  rested : s'.events.Rested
  remembers : s.Remembers s'

theorem Keeps.refl (h : s.Sound bs) (hR : s.events.Rested) : Keeps bs s s := ⟨h, hR, .refl s⟩

/-- The call works the store into an intermediate one and commits it. -/
structure Lands (bodies : Bodies) (s mid s' : Store) : Prop where
  sound : mid.Sound bodies
  remembers : s.Remembers mid
  commits : mid.Commits s'

theorem Lands.keeps (h : Lands bs s m s') : Keeps bs s s' :=
  ⟨(h.sound.with_commit h.commits).1, h.commits.rested, h.remembers.trans (h.sound.with_commit h.commits).2⟩

theorem Sound.lands (h : m.Sound bs) (hR : s.Remembers m) (hOk : m.commit = .ok s') :
    Lands bs s m s' := ⟨h, hR, commit_ok h.events hOk⟩

theorem Sound.commits (h : m.Sound bs) (hR : s.Remembers m) (hOk : m.commit = .ok s') :
    Keeps bs s s' := (h.lands hR hOk).keeps

variable {t : EventTables}

theorem Sound.insert_ok (h : s.Sound bs)
    (hEvent : Authentic bs ev) (hOk : s.insert ev src = .ok (o, s')) :
    ∃ m, s.Ingests ev src o m ∧ Lands bs s m s' := by
  simp only [Store.insert, run_ok] at hOk
  obtain ⟨⟨_, m⟩, hI, _, hC, rfl, rfl⟩ := hOk
  have hi := insertWithTables_ok h.events (h.sameBody hEvent) hI
  obtain ⟨hD, hR⟩ := h.ingests hEvent hi
  exact ⟨m, hi, hD.lands hR hC⟩

theorem Sound.insert (h : s.Sound bs)
    (hEvent : Authentic bs ev) (hOk : s.insert ev src = .ok (o, s')) : Keeps bs s s' := by
  obtain ⟨m, -, hL⟩ := h.insert_ok hEvent hOk
  exact hL.keeps

/-- A batch is its deliveries one after the other, committed together. -/
theorem Sound.insertBatch_ok (h : s.Sound bs) (hEvents : ∀ d ∈ dels, Authentic bs d.1)
    (hOk : s.insertBatch dels = .ok (ot, s')) (P : List Delivery → List InsertOutcome → Store → Prop)
    (hs : P [] [] s) (hN : ∀ {done d ot o} {nw next : Store}, done ++ [d] <+: dels →
      nw.Sound bs → Authentic bs d.1 → nw.insertWithTables d.1 d.2 = .ok (o, next) →
      nw.Ingests d.1 d.2 o next → P done ot nw → P (done ++ [d]) (ot ++ [o]) next) :
    ∃ m, P dels ot m ∧ (s' = s ∧ m = s ∨ Lands bs s m s') := by
  unfold Store.insertBatch at hOk
  split at hOk
  · next hZ =>
    cases hOk
    exact ⟨s, List.isEmpty_iff.mp hZ ▸ hs, .inl ⟨rfl, rfl⟩⟩
  simp only [run_ok] at hOk
  obtain ⟨⟨_, m⟩, hL, _, hC, rfl, rfl⟩ := hOk
  obtain ⟨⟨hD, hR⟩, hd⟩ := foldlM_induction
    (fun done a => (Sound bs a.2 ∧ s.Remembers a.2) ∧ P done a.1 a.2) ⟨⟨h, .refl s⟩, hs⟩
    (fun done d a next hP hA hStep => by
      simp only [insertStep, run_ok] at hStep
      obtain ⟨⟨_, af⟩, hi, rfl⟩ := hStep
      obtain ⟨⟨hS, hR⟩, hd⟩ := hA
      have hEvent := hEvents d (hP.subset (by simp))
      have hI := insertWithTables_ok hS.events (hS.sameBody hEvent) hi
      obtain ⟨ha, hG⟩ := hS.ingests hEvent hI
      exact ⟨⟨ha, hR.trans hG⟩, hN hP hS hEvent hi hI hd⟩) hL
  exact ⟨m, hd, .inr (hD.lands hR hC)⟩

theorem Sound.insertBatch (h : s.Sound bs) (hR : s.events.Rested)
    (hEvents : ∀ d ∈ dels, Authentic bs d.1)
    (hOk : s.insertBatch dels = .ok (outs, s')) : Keeps bs s s' := by
  obtain ⟨m, -, ⟨rfl, -⟩ | hL⟩ := h.insertBatch_ok hEvents hOk (fun _ _ _ => True) trivial fun _ _ _ _ _ _ => trivial
  · exact .refl h hR
  · exact hL.keeps

theorem Sound.acceptWrite_ok (h : s.Sound bs)
    (hEvent : Authentic bs a.frozen) (hOk : s.acceptWrite a now = .ok (o, s')) :
    o = .refused .alreadyExpired ∧ s' = s ∨ ∃ m, s.Accepts a o m ∧ Lands bs s m s' := by
  unfold Store.acceptWrite at hOk
  split at hOk
  · cases hOk
    exact .inl ⟨rfl, rfl⟩
  simp only [run_ok] at hOk
  obtain ⟨⟨_, m⟩, hA, _, hC, rfl, rfl⟩ := hOk
  have ha := acceptWithTables_ok h.events hA
  obtain ⟨hD, hR⟩ := h.accepts hEvent ha
  exact .inr ⟨m, ha, hD.lands hR hC⟩

theorem Sound.acceptWrite (h : s.Sound bs) (hR : s.events.Rested)
    (hEvent : Authentic bs a.frozen)
    (hOk : s.acceptWrite a now = .ok (o, s')) : Keeps bs s s' := by
  rcases h.acceptWrite_ok hEvent hOk with ⟨-, rfl⟩ | ⟨m, -, hL⟩
  · exact .refl h hR
  · exact hL.keeps

theorem Sound.promoteSigned_ok (h : s.Sound bs) (hOk : s.promoteSigned i ver = .ok (o, s')) :
    s.Promotes i ver o s' :=
  Store.promoteSigned_ok h.events (fun _ _ _ st hI hEvent hA =>
    h.sameBody (h.queue.frozen _ _ _ _ hI hEvent) st hA) hOk

theorem Sound.promoteSigned (h : s.Sound bs) (hR : s.events.Rested)
    (hOk : s.promoteSigned i ver = .ok (o, s')) : Keeps bs s s' := by
  have hP := h.promoteSigned_ok hOk
  obtain ⟨hS, hr⟩ := h.promotes hP
  refine ⟨hS, ?_, hr⟩
  cases hP with
  | notFound => exact hR
  | promoted _ _ _ _ _ _ _ hC => exact hC.rested

theorem Sound.compensateWrite (h : s.Sound bs) (hR : s.events.Rested)
    (hOk : s.compensateWrite i reason now = .ok (o, s')) : Keeps bs s s' := by
  have hC := compensateWrite_ok h.events hOk
  obtain ⟨hS, hr⟩ := h.compensates hC
  refine ⟨hS, ?_, hr⟩
  cases hC with
  | notFound => exact hR
  | alreadySigned => exact hR
  | compensated _ _ _ _ _ hc => exact hc.rested

def Thinned (s s' : Store) : Prop :=
  ∃ (events : EventTables) (coverage : CoverageTable), s.events.Thins events ∧ commit { s with events, coverage } = .ok s'

theorem Sound.thinned (h : s.Sound bs) (hT : s.Thinned s') : Keeps bs s s' := by
  obtain ⟨events, coverage, ht, hOk⟩ := hT
  have hD : Sound bs { s with events, coverage } :=
    ⟨ht.ok, fun id st hA => h.authentic id st (ht.rows id st hA),
      fun id st hA => h.allowed id st (ht.rows id st hA), h.queue⟩
  exact hD.commits (fun _ hR => hR) hOk

theorem remove_thinned (h : s.events.Ok) {id : EventId}
    (hOk : s.remove id = .ok (gone, s')) : s.Thinned s' := by
  simp only [Store.remove, run_ok] at hOk
  obtain ⟨⟨_, ev⟩, hR, _, hC, rfl, rfl⟩ := hOk
  exact ⟨ev, s.coverage, EventTables.removeRow_thins h hR, hC⟩

theorem expireKey_thins {a next : List StoredEvent × EventTables}
    (h : t.Thins a.2) (hOk : expireKey a k = .ok next) : t.Thins next.2 := by
  obtain ⟨rm, m⟩ := a
  simp only [expireKey, bind_ok] at hOk
  obtain ⟨fd, -, hOk⟩ := hOk
  cases fd with
  | none =>
    cases hOk
    exact h
  | some st =>
    simp only [run_ok] at hOk
    obtain ⟨⟨_, af⟩, hR, rfl⟩ := hOk
    exact h.trans (EventTables.removeRow_thins h.ok hR)

theorem expireDue_thinned (h : s.events.Ok)
    (hOk : s.expireDue now = .ok (removed, s')) : s.Thinned s' := by
  simp only [Store.expireDue, run_ok] at hOk
  obtain ⟨⟨_, ev⟩, hL, _, hC, rfl, rfl⟩ := hOk
  have hT := foldlM_induction (fun _ a => s.events.Thins a.2) (EventTables.Thins.refl h)
    (fun _ _ _ _ _ hA hN => expireKey_thins hA hN) hL
  exact ⟨ev, s.coverage, hT, hC⟩

theorem evict_thins (h : t.Thins m)
    (hOk : evict m e = .ok next) : t.Thins next := by
  simp only [evict, bind_ok] at hOk
  obtain ⟨⟨gn, af⟩, hR, hOk⟩ := hOk
  cases gn with
  | none => simp at hOk
  | some st =>
    cases hOk
    exact h.trans (EventTables.removeRow_thins h.ok hR)

theorem gc_thinned (h : s.events.Ok) {cl : Event → Bool}
    (hOk : s.gc cl = .ok (report, s')) : s.Thinned s' := by
  simp only [Store.gc, run_ok, mapError_ok] at hOk
  obtain ⟨ev, hL, updates, -, _, hC, -, rfl⟩ := hOk
  have hT := foldlM_induction (fun _ m => s.events.Thins m) (EventTables.Thins.refl h)
    (fun _ _ _ _ _ hA hN => evict_thins hA hN) hL
  exact ⟨ev, _, hT, hC⟩

theorem Sound.step (h : s.Sound bs) (hR : s.events.Rested) (hStep : Step bs s s') : Keeps bs s s' := by
  cases hStep with
  | insert hEvent hOk => exact h.insert hEvent hOk
  | insertBatch hEvents hOk => exact h.insertBatch hR hEvents hOk
  | acceptWrite hEvent hOk => exact h.acceptWrite hR hEvent hOk
  | promoteSigned hOk => exact h.promoteSigned hR hOk
  | compensateWrite hOk => exact h.compensateWrite hR hOk
  | remove hOk => exact h.thinned (remove_thinned h.events hOk)
  | expireDue hOk => exact h.thinned (expireDue_thinned h.events hOk)
  | gc hOk => exact h.thinned (gc_thinned h.events hOk)

theorem Reachable.keeps (h : Reachable bs s) : Keeps bs {} s := by
  induction h with
  | empty => exact .refl sound_empty EventTables.rested_empty
  | step hReach hStep ih =>
    have hN := ih.sound.step ih.rested hStep
    exact ⟨hN.sound, hN.rested, ih.remembers.trans hN.remembers⟩

/-- What an invariant has to survive to survive every call. -/
structure Survives (bodies : Bodies) (P : Store → Prop) : Prop where
  ingests : ∀ {s s' event source outcome}, P s → s.Ingests event source outcome s' → P s'
  accepts : ∀ {s s' accept outcome}, P s → s.events.Ok → s.Accepts accept outcome s' → P s'
  promotes : ∀ {s s' intentId verified outcome}, P s → s.Sound bodies → s.Promotes intentId verified outcome s' → P s'
  compensates : ∀ {s s' intentId outcome}, P s → s.Compensates intentId outcome s' → P s'
  thinned : ∀ {s s'}, P s → s.Thinned s' → P s'
  commits : ∀ {s s'}, P s → s.Commits s' → P s'

variable {P : Store → Prop}

theorem Survives.step (hP : Survives bs P) (h : P s) (hS : s.Sound bs) (hStep : Step bs s s') : P s' := by
  cases hStep with
  | insert hEvent hOk =>
    obtain ⟨m, hI, hL⟩ := hS.insert_ok hEvent hOk
    exact hP.commits (hP.ingests h hI) hL.commits
  | insertBatch hEvents hOk =>
    obtain ⟨m, hD, ⟨rfl, -⟩ | hL⟩ := hS.insertBatch_ok hEvents hOk (fun _ _ s => P s) h
      fun _ _ _ _ hI hN => hP.ingests hN hI
    · exact h
    · exact hP.commits hD hL.commits
  | acceptWrite hEvent hOk =>
    rcases hS.acceptWrite_ok hEvent hOk with ⟨-, rfl⟩ | ⟨m, hA, hL⟩
    · exact h
    · exact hP.commits (hP.accepts h hS.events hA) hL.commits
  | promoteSigned hOk => exact hP.promotes h hS (hS.promoteSigned_ok hOk)
  | compensateWrite hOk => exact hP.compensates h (compensateWrite_ok hS.events hOk)
  | remove hOk => exact hP.thinned h (remove_thinned hS.events hOk)
  | expireDue hOk => exact hP.thinned h (expireDue_thinned hS.events hOk)
  | gc hOk => exact hP.thinned h (gc_thinned hS.events hOk)

/-- In every store that a run reaches, the indexes are exactly what the rows say. -/
theorem reachable_relational (h : Reachable bodies s) : s.events.Relational := h.keeps.rested.relational

def expiringNote : Event := { Event.bare 7 3 10 1 with tags := { expiration := some 50 }, sig := 1 }

omit [ShardHash] in
theorem reachable_relational_two_notes : ∃ s : Store, s.events.rows.size = 2 ∧
    @Reachable oneShard (fun id => { expiringNote with id }) s ∧ @EventTables.Relational oneShard s.events := by
  let _ := oneShard
  have hR : ((insert {} expiringNote ⟨"wss://relay", 11⟩).toOption.any fun first =>
      (insert first.2 { expiringNote with id := 8 } ⟨"wss://relay", 12⟩).toOption.any fun second =>
        second.2.events.rows.size = 2) = true := by decide +kernel
  simp only [any_eq_true, toOption_some, decide_eq_true_eq] at hR
  obtain ⟨first, hF, second, hS, hTwo⟩ := hR
  have hReach : Reachable (fun id => { expiringNote with id }) second.2 :=
    .step (.step .empty (.insert (by exact .refl _) hF)) (.insert (by exact .refl _) hS)
  exact ⟨second.2, hTwo, hReach, reachable_relational hReach⟩

end Store

end NmpStore

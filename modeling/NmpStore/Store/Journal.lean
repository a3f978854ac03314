import NmpStore.Store.Run

/-! # Open intents and their receipts

An open intent and its receipt name each other and speak of the same work. The ordinary doors keep that.
-/

namespace NmpStore

def IntentRecord.coordinate (record : IntentRecord) : Option Coordinate :=
  match record.work with
  | .replaceableOperation coordinate _ => some coordinate
  | .event _ _ _ => none

variable {record : IntentRecord}

theorem IntentRecord.coordinate_of_event
    (hE : record.event = some (frz, sig)) : record.coordinate = none := by
  unfold IntentRecord.event at hE
  unfold IntentRecord.coordinate
  split
  · simp_all
  · rfl

theorem IntentRecord.signWith_coordinate (record : IntentRecord) (cn : Event) :
    (record.signWith cn).coordinate = record.coordinate ∧ (record.signWith cn).receiptId = record.receiptId := by
  unfold IntentRecord.signWith IntentRecord.coordinate
  cases hW : record.work with
  | replaceableOperation co mt => simp [hW]
  | event fr rt sg => by_cases hS : sg = .signed <;> simp [hW, hS]

namespace Queue

variable {q q' q'' : Queue} {i r : Nat} {id : IntentId} {closed : IntentId → Prop}

def Refers (q : Queue) (receiptId : Nat) (id : IntentId) (work : Option Coordinate) : Prop :=
  ∃ receipt, q.receipts[receiptId]? = some receipt ∧ receipt.intentId = some id ∧ receipt.payload.coordinate = work

theorem refers_of_insert {rs : Table Nat ReceiptRecord} (hR : q.receipts = rs.insert rcId rcpt)
    (hI : rcpt.intentId = some id) (hW : rcpt.payload.coordinate = work) : q.Refers rcId id work :=
  ⟨rcpt, by rw [hR, get_insert, if_pos rfl], hI, hW⟩

def FiledBelow (i r : Nat) (q : Queue) : Prop :=
  ∀ (id : IntentId) record, q.intents[id]? = some record →
    (id < i ∧ record.receiptId < r) ∧ q.Refers record.receiptId id record.coordinate

def Filed (q : Queue) : Prop := q.FiledBelow q.nextIntentId q.nextReceiptId

def OpenAt (q : Queue) (coordinate : Coordinate) (id : IntentId) : Prop :=
  ∃ record, q.intents[id]? = some record ∧ record.coordinate = some coordinate

theorem OpenAt.unique (h : q.OpenAt co id) (h' : q.OpenAt o id) :
    co = o := by
  obtain ⟨record, hAt, hW⟩ := h
  obtain ⟨_, hAt', hW'⟩ := h'
  cases hAt.symm.trans hAt'
  exact Option.some.inj (hW.symm.trans hW')

/-- The journal after a change that draws nothing and closes no operation but those in `closed`. -/
structure Refiles (closed : IntentId → Prop) (q q' : Queue) : Prop where
  counters : q'.nextIntentId = q.nextIntentId ∧ q'.nextReceiptId = q.nextReceiptId
  filed : ∀ i r, q.FiledBelow i r → q'.FiledBelow i r ∧
    ∀ coordinate id, ¬ closed id → q.OpenAt coordinate id → q'.OpenAt coordinate id

abbrev RefilesAll (q q' : Queue) : Prop := Refiles (fun _ => False) q q'

theorem Refiles.refl (closed : IntentId → Prop) (q : Queue) : Refiles closed q q :=
  ⟨⟨rfl, rfl⟩, fun _ _ h => ⟨h, fun _ _ _ ho => ho⟩⟩

theorem Refiles.trans (h : Refiles closed q q') (h' : Refiles closed q' q'') : Refiles closed q q'' := by
  refine ⟨⟨h'.counters.1.trans h.counters.1, h'.counters.2.trans h.counters.2⟩, fun i r hF => ?_⟩
  obtain ⟨hD, ho⟩ := h.filed i r hF
  obtain ⟨hL, ho'⟩ := h'.filed i r hD
  exact ⟨hL, fun co id hY hA => ho' co id hY (ho co id hY hA)⟩

theorem Refiles.settled (h : Refiles closed q q') (hF : q.Filed) : q'.Filed := by
  unfold Filed
  rw [h.counters.1, h.counters.2]
  exact (h.filed _ _ hF).1

theorem refiles_displaced (q : Queue) (displaced : Table IntentId StoredEvent) : RefilesAll q { q with displaced } :=
  ⟨⟨rfl, rfl⟩, fun _ _ h => ⟨h, fun _ _ _ ho => ho⟩⟩

theorem ClaimsOnly.refiles (h : q.ClaimsOnly q') : RefilesAll q q' := by
  obtain ⟨_, _, _, rfl⟩ := h
  exact ⟨⟨rfl, rfl⟩, fun _ _ h => ⟨h, fun _ _ _ ho => ho⟩⟩

theorem SameFiles.refers (h : q.SameFiles q') (hR : q.Refers rcId id work) : q'.Refers rcId id work := by
  obtain ⟨rc, hAt, hi, hW⟩ := hR
  have hF := h rcId
  rw [hAt, map_some, map_eq_some_iff] at hF
  obtain ⟨af, hA, hS⟩ := hF
  obtain ⟨hI, hC, -⟩ := (by simpa [ReceiptRecord.file] using hS :
    af.intentId = rc.intentId ∧ af.payload.coordinate = rc.payload.coordinate ∧ af.terminal = rc.terminal)
  exact ⟨af, hA, hI.trans hi, hC.trans hW⟩

theorem FansOut.refiles (h : q.FansOut canon owns q') : RefilesAll q q' := by
  refine ⟨h.delivery.1, fun i r hF => ⟨fun id af hAt => ?_, fun co id _ ho => ?_⟩⟩
  · rw [h.intents] at hAt
    obtain ⟨record, hr, hC, hW⟩ : ∃ record, q.intents[id]? = some record ∧
        af.receiptId = record.receiptId ∧ af.coordinate = record.coordinate := by
      split_ifs at hAt
      · obtain ⟨record, hr, rfl⟩ := map_eq_some_iff.mp hAt
        exact ⟨record, hr, (record.signWith_coordinate canon).2, (record.signWith_coordinate canon).1⟩
      · exact ⟨af, hAt, rfl, rfl⟩
    obtain ⟨hB, hR⟩ := hF id record hr
    rw [hC, hW]
    exact ⟨hB, h.files.refers hR⟩
  · obtain ⟨record, hr, hW⟩ := ho
    unfold OpenAt
    rw [h.intents, hr]
    split_ifs
    · exact ⟨_, rfl, (record.signWith_coordinate canon).1.trans hW⟩
    · exact ⟨_, rfl, hW⟩

theorem eligible_mem (hM : ret ∈ q.eligible owns) :
    ret.intentId ∈ owns ∧ ∃ record, q.intents[ret.intentId]? = some record ∧ record.receiptId = ret.receiptId := by
  simp only [eligible, mem_filterMap, map_eq_some_iff, Std.ExtTreeSet.mem_toList] at hM
  obtain ⟨o, hO, record, hR, rfl⟩ := hM
  exact ⟨hO, record, hR, rfl⟩

theorem Retires.refiles (hR : ret = q.eligible owns) (h : q.Retires ret q') :
    Refiles (fun id => id ∈ ret.map RetiredIntent.intentId) q q' := by
  refine ⟨h.counters, fun i r hF => ⟨fun id record hA => ?_, fun co id hY ho => ?_⟩⟩
  · rw [h.intents] at hA
    split_ifs at hA with hG
    obtain ⟨hB, receipt, hr, hi, hW⟩ := hF id record hA
    refine ⟨hB, receipt, (h.receipts _ fun hS => hG ?_).trans hr, hi, hW⟩
    -- a receipt belongs to one intent only
    obtain ⟨one, hO, hs⟩ := mem_map.mp hS
    obtain ⟨-, other, hX, hI⟩ := eligible_mem (hR ▸ hO)
    obtain ⟨-, found, hf, hN, -⟩ := hF _ other hX
    rw [hI, hs, hr] at hf
    cases hf
    exact mem_map.mpr ⟨one, hO, Option.some.inj (hN.symm.trans hi)⟩
  · unfold OpenAt
    rw [h.intents, if_neg hY]
    exact ho

theorem FiledBelow.mono (h : q.FiledBelow i r) (hI : i ≤ j) (hR : r ≤ k) : q.FiledBelow j k := fun id record hA =>
  ⟨⟨(h id record hA).1.1.trans_le hI, (h id record hA).1.2.trans_le hR⟩, (h id record hA).2⟩

theorem FiledBelow.file (h : q.FiledBelow i r) (hR : record.receiptId = r)
    (hi : rcpt.intentId = some i) (hW : rcpt.payload.coordinate = record.coordinate)
    (hI : q'.intents = q.intents.insert i record) (hr : q'.receipts = q.receipts.insert r rcpt) :
    q'.FiledBelow (i + 1) (r + 1) ∧ ∀ co id, q.OpenAt co id → q'.OpenAt co id := by
  refine ⟨fun id fd hAt => ?_, fun co id ho => ?_⟩
  · rw [hI, get_insert] at hAt
    split_ifs at hAt with hN
    · cases hAt
      subst hN
      refine ⟨⟨Nat.lt_add_one _, hR ▸ Nat.lt_add_one _⟩, ?_⟩
      rw [hR]
      exact refers_of_insert hr hi hW
    · obtain ⟨⟨hd, hL⟩, old, hO, hn, hS⟩ := h id fd hAt
      refine ⟨⟨hd.trans (Nat.lt_add_one _), hL.trans (Nat.lt_add_one _)⟩, old, ?_, hn, hS⟩
      rw [hr, get_insert, if_neg hL.ne']
      exact hO
  · obtain ⟨fd, hAt, hF⟩ := ho
    refine ⟨fd, ?_, hF⟩
    rw [hI, get_insert, if_neg (h id fd hAt).1.1.ne']
    exact hAt

end Queue

namespace Store

open Queue (RefilesAll)

variable [ShardHash] {s s' : Store}

variable {q : Queue} {i r : Nat}

section
omit [ShardHash]

theorem journal_filed (a : AcceptWrite) (fr : Event) (sg : IntentSigState)
    (st : ReceiptState) (ds : Option StoredEvent) (h : q.FiledBelow i r) :
    (journal q a i r fr sg st ds).FiledBelow (i + 1) (r + 1) ∧
      ∀ co id, q.OpenAt co id → (journal q a i r fr sg st ds).OpenAt co id :=
  h.file rfl rfl rfl rfl rfl

theorem joinedQueue_counters (q : Queue) (a : AcceptWrite) (o : StoredEvent) (i : IntentId)
    (rc : Nat) : (joinedQueue q a o i rc).nextIntentId = q.nextIntentId ∧
      (joinedQueue q a o i rc).nextReceiptId = q.nextReceiptId := by
  unfold joinedQueue
  split_ifs
  · exact ⟨rfl, rfl⟩
  · exact (q.staked_frame i a.frozen).refiles.counters
  · exact ⟨rfl, rfl⟩

theorem joinedQueue_filed (a : AcceptWrite) (o : StoredEvent) (h : q.FiledBelow i r) :
    (joinedQueue q a o i r).FiledBelow (i + 1) (r + 1) ∧
      ∀ co id, q.OpenAt co id → (joinedQueue q a o i r).OpenAt co id := by
  unfold joinedQueue
  split_ifs
  · exact journal_filed _ _ _ _ _ h
  · obtain ⟨hS, ho⟩ := (q.staked_frame i a.frozen).refiles.filed i r h
    obtain ⟨hF, ho'⟩ := journal_filed _ _ _ _ _ hS
    exact ⟨hF, fun co id hA => ho' co id (ho co id (fun h => h) hA)⟩
  · exact journal_filed _ _ _ _ _ h

end

def SupersededBy (s : Store) (write : Event) (id : IntentId) : Prop :=
  ∃ address row, addressOf write = some address ∧ s.events.rowAt address = some row ∧
    candidateWins write row.event = true ∧ id ∈ ownersOf row.provenance.localOrigin

theorem Accepts.filed (h : s.queue.Filed)
    (ha : s.Accepts a o s') : s'.queue.Filed ∧ ∀ co id, ¬ s.SupersededBy a.frozen id →
      s.queue.OpenAt co id → s'.queue.OpenAt co id := by
  have hr : s.queue.allocated.FiledBelow s.queue.nextIntentId s.queue.nextReceiptId := h
  have hJ : ∀ (ds : Option StoredEvent) {q : Queue} {closed : IntentId → Prop},
      Queue.Refiles closed s.queue.allocated q → (fileDraft q s a ds).Filed ∧
        ∀ co id, ¬ closed id → s.queue.OpenAt co id → (fileDraft q s a ds).OpenAt co id := by
    intro ds q closed hR
    obtain ⟨hD, ho⟩ := hR.filed _ _ hr
    obtain ⟨hF, ho'⟩ := journal_filed a a.frozen a.sigState .accepted ds hD
    refine ⟨?_, fun co id hY hA => ho' co id (ho co id hY hA)⟩
    show Queue.FiledBelow q.nextIntentId q.nextReceiptId _
    rw [hR.counters.1, hR.counters.2]
    exact hF
  have hj : ∀ (ol : StoredEvent) {q : Queue}, RefilesAll s.queue.allocated q →
      (joinedQueue q a ol s.queue.nextIntentId s.queue.nextReceiptId).Filed ∧
        ∀ co id, s.queue.OpenAt co id →
          (joinedQueue q a ol s.queue.nextIntentId s.queue.nextReceiptId).OpenAt co id := by
    intro ol q hR
    obtain ⟨hD, ho⟩ := hR.filed _ _ hr
    obtain ⟨hF, ho'⟩ := joinedQueue_filed a ol hD
    refine ⟨?_, fun co id hA => ho' co id (ho co id (fun h => h) hA)⟩
    unfold Queue.Filed
    rw [(joinedQueue_counters ..).1, (joinedQueue_counters ..).2, hR.counters.1, hR.counters.2]
    exact hF
  cases ha with
  | joinedRow hA =>
    have hd := fun ol => hj ol (.refl _ _)
    exact ⟨(hd _).1, fun co id _ => (hd _).2 co id⟩
  | joinedStash hN hA hI =>
    have hd := fun ol ds => hj ol (Queue.refiles_displaced s.queue.allocated ds)
    exact ⟨(hd _ _).1, fun co id _ => (hd _ _).2 co id⟩
  | refused => exact ⟨h, fun _ _ _ ho => ho⟩
  | stale =>
    have hd := hJ none (.refl (fun _ => False) _)
    exact ⟨hd.1, fun co id _ => hd.2 co id (fun h => h)⟩
  | stored =>
    have hS : RefilesAll s.queue.allocated (if a.frozen.isDeletion then
        s.queue.allocated.staked s.queue.nextIntentId a.frozen else s.queue.allocated) := by
      split_ifs
      · exact (Queue.staked_frame _ _ _).refiles
      · exact .refl _ _
    have hd := hJ none hS
    exact ⟨hd.1, fun co id _ => hd.2 co id (fun h => h)⟩
  | superseded hN hU hl hP he ht hs =>
    have hd := fun ds => hJ ds (ht.refiles he)
    refine ⟨(hd _).1, fun co id hY => (hd _).2 co id fun hM => hY ?_⟩
    obtain ⟨on, hO, rfl⟩ := mem_map.mp hM
    obtain ⟨hw, -⟩ := Queue.eligible_mem (he ▸ hO)
    cases hP with
    | wins hAd hC hWins => exact ⟨_, _, hAd, hC, hWins, hw⟩

theorem Ingests.queue_relates {R : Queue → Queue → Prop} (hR : ∀ q, R q q)
    (hF : ∀ {q q' : Queue} {ow : List IntentId}, q.FansOut ev ow q' → R q q')
    (hI : s.Ingests ev src o s') : R s.queue s'.queue := by
  cases hI with
  | adopted _ _ _ _ _ hf hD => exact hD.queue ▸ hF hf
  | deleting _ _ _ _ _ _ hD => exact hD.queue ▸ hR _
  | expired | merged | refused | placed => exact hR _

theorem Ingests.refiles (hI : s.Ingests ev src o s') : RefilesAll s.queue s'.queue :=
  hI.queue_relates (.refl _) (·.refiles)

theorem Promotes.queue_relates {R : Queue → Queue → Prop} (hR : ∀ q, R q q) (hT : ∀ {a b c}, R a b → R b c → R a c)
    (hF : ∀ {q q' : Queue} {cn : Event} {ow : List IntentId}, q.FansOut cn ow q' → R q q')
    (hS : ∀ {q : Queue} {k : IntentId} {bf : StoredEvent}, q.displaced[k]? = some bf → ∀ st,
      R q { q with displaced := q.displaced.insert k st }) (hP : s.Promotes i ver o s') :
    R s.queue s'.queue := by
  cases hP with
  | notFound => exact hR _
  | promoted hI hE hU hi hs hf hD hC =>
    rw [hC.queue, hD.queue]
    refine hT ?_ (hF hf)
    cases hs with
    | row | signedRow | gone => exact hR _
    | stash _ hA => exact hS hA _

theorem Promotes.refiles (hP : s.Promotes i ver o s') : RefilesAll s.queue s'.queue :=
  hP.queue_relates (.refl _) .trans (·.refiles) fun _ _ => Queue.refiles_displaced _ _

theorem Disowns.refiles (hD : s.Disowns i frozenId s') :
    RefilesAll s.queue s'.queue := by
  cases hD with
  | retracted | kept | nowhere => exact .refl _ _
  | dropped | stashed => exact Queue.refiles_displaced _ _

theorem Reinserts.refiles (hR : s.Reinserts se restored s') :
    RefilesAll s.queue s'.queue := by
  cases hR with
  | joinedSigned _ _ _ _ _ hF hD => exact hD.queue ▸ hF.refiles
  | joined | refused | placed | stale => exact .refl _ _

section
omit [ShardHash]

theorem closed_refiles (hI : s.queue.intents[iid]? = some record)
    (hE : record.coordinate = none) : RefilesAll s.queue (s.closed iid).queue := by
  refine ⟨⟨rfl, rfl⟩, fun i r hF => ⟨fun id fd hAt => ?_, fun co id _ ho => ?_⟩⟩
  · exact hF id fd (of_erase hAt)
  obtain ⟨fd, hAt, hW⟩ := ho
  refine ⟨fd, ?_, hW⟩
  show (s.queue.intents.erase iid)[id]? = some fd
  rw [get_erase]
  split_ifs with hS
  · subst hS
    cases hAt.symm.trans hI
    cases hW.symm.trans hE
  · exact hAt

theorem terminates_refiles (sq tm : Nat) (h : q.Terminates rcId { q with receipts }) :
    RefilesAll q { q with receipts, nextTerminalSequence := sq, lastTerminalAt := tm } := by
  refine ⟨⟨rfl, rfl⟩, fun i r hF => ⟨fun id record hA => ?_, fun _ _ _ ho => ho⟩⟩
  obtain ⟨hB, receipt, hR, hI, hW⟩ := hF id record hA
  refine ⟨hB, ?_⟩
  by_cases hS : record.receiptId = rcId
  · obtain ⟨b, after, hb, ha, hId, hC, -⟩ := h.terminal
    rw [hS] at hR
    cases hb.symm.trans hR
    exact ⟨after, hS ▸ ha, hId.trans hI, hC.trans hW⟩
  · exact ⟨receipt, (h.others _ hS).trans hR, hI, hW⟩

end

theorem Compensates.refiles (hc : s.Compensates i o s') :
    RefilesAll s.queue s'.queue := by
  cases hc with
  | notFound => exact .refl _ _
  | alreadySigned => exact .refl _ _
  | compensated hI hE hU hd hR ho hr =>
    rename_i record fr sg m af rt rv rs sq tm
    have hD := hd.refiles
    have hS : m.queue.intents[i]? = some record := by
      cases hd <;> exact hI
    have hC := closed_refiles hS (IntentRecord.coordinate_of_event hE)
    have hA : RefilesAll m.queue af.queue := by
      cases hR with
      | nothing => exact hC
      | offered ha hn => exact hC.trans hn.refiles
    have hT := terminates_refiles sq tm hr
    rw [ho.queue]
    refine (hD.trans hA).trans (hT.trans ?_)
    obtain ⟨_, _, _, he⟩ := af.queue.dropClaims_frame i
    exact Queue.ClaimsOnly.refiles ⟨_, _, _, by rw [he]⟩

section Relates

variable {R : Queue → Queue → Prop}

theorem insert_relates (hI : ∀ {s s' : Store} {ev : Event} {sr : RelayObserved} {o : InsertOutcome},
      s.Ingests ev sr o s' → R s.queue s'.queue) (h : s.Sound bs)
    (hE : Authentic bs ev) (ho : s.insert ev sr = .ok (o, s')) :
    R s.queue s'.queue := by
  obtain ⟨m, hD, hL⟩ := h.insert_ok hE ho
  rw [hL.commits.queue]
  exact hI hD

theorem insertBatch_relates (hR : ∀ q, R q q) (hT : ∀ {q q' q''}, R q q' → R q' q'' → R q q'')
    (hI : ∀ {s s' : Store} {ev : Event} {sr : RelayObserved} {o : InsertOutcome},
      s.Ingests ev sr o s' → R s.queue s'.queue) (h : s.Sound bs)
    (hE : ∀ d ∈ dels, Authentic bs d.1)
    (ho : s.insertBatch dels = .ok (outs, s')) : R s.queue s'.queue := by
  obtain ⟨m, hD, ⟨rfl, -⟩ | hL⟩ := h.insertBatch_ok hE ho (fun _ _ nw => R s.queue nw.queue) (hR _)
    fun _ _ _ _ hN hn => hT hn (hI hN)
  · exact hR _
  · rw [hL.commits.queue]
    exact hD

theorem acceptWrite_relates (hR : ∀ q, R q q)
    (hA : ∀ {s s' : Store} {a : AcceptWrite} {o : AcceptOutcome},
      s.Accepts a o s' → R s.queue s'.queue) (h : s.Sound bs)
    (hE : Authentic bs a.frozen)
    (ho : s.acceptWrite a now = .ok (o, s')) : R s.queue s'.queue := by
  rcases h.acceptWrite_ok hE ho with ⟨-, rfl⟩ | ⟨m, hD, hL⟩
  · exact hR _
  · rw [hL.commits.queue]
    exact hA hD

end Relates

theorem acceptWrite_filed (h : s.Sound bs) (hF : s.queue.Filed)
    (hE : Authentic bs a.frozen) (ho : s.acceptWrite a now = .ok (o, s')) :
    s'.queue.Filed ∧ ∀ co id, ¬ s.SupersededBy a.frozen id →
      s.queue.OpenAt co id → s'.queue.OpenAt co id := by
  rcases h.acceptWrite_ok hE ho with ⟨-, rfl⟩ | ⟨m, hA, hL⟩
  · exact ⟨hF, fun _ _ _ hp => hp⟩
  · rw [hL.commits.queue]
    exact hA.filed hF

theorem Thinned.queue (hT : s.Thinned s') : s'.queue = s.queue := by
  obtain ⟨events, coverage, ht, ho⟩ := hT
  exact (commit_ok (s := { s with events, coverage }) ht.ok ho).queue

theorem Step.relates {R : Queue → Queue → Prop} (hR : ∀ q, R q q) (hT : ∀ {q q' q''}, R q q' → R q' q'' → R q q'')
    (hI : ∀ {s s' : Store} {ev : Event} {sr : RelayObserved} {o : InsertOutcome},
      s.Ingests ev sr o s' → R s.queue s'.queue)
    (hA : ∀ {s s' : Store} {a : AcceptWrite} {o : AcceptOutcome},
      s.Accepts a o s' → R s.queue s'.queue)
    (hP : ∀ {s s' : Store} {i : IntentId} {vr : VerifiedSignature} {o : PromoteOutcome},
      s.Promotes i vr o s' → R s.queue s'.queue)
    (hC : ∀ {s s' : Store} {i : IntentId} {o : CompensateOutcome},
      s.Compensates i o s' → R s.queue s'.queue)
    (h : s.Sound bs) (hS : Step bs s s') : R s.queue s'.queue := by
  cases hS with
  | insert hE ho => exact insert_relates hI h hE ho
  | insertBatch he ho => exact insertBatch_relates hR hT hI h he ho
  | acceptWrite hE ho => exact acceptWrite_relates hR hA h hE ho
  | promoteSigned ho => exact hP (h.promoteSigned_ok ho)
  | compensateWrite ho => exact hC (compensateWrite_ok h.events ho)
  | remove ho => exact (remove_thinned h.events ho).queue ▸ hR _
  | expireDue ho => exact (expireDue_thinned h.events ho).queue ▸ hR _
  | gc ho => exact (gc_thinned h.events ho).queue ▸ hR _

end Store

end NmpStore

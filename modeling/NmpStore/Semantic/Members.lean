import NmpStore.Semantic.Winner
import NmpStore.Store.Journal

/-! # The operations of a resource and the publish queue

Every operation that a resource lists is open in the journal, at the coordinate of the resource, with a receipt of its
own.
-/

namespace NmpStore.Semantic

variable {intent : IntentRecord} {i r : Nat} {s' : Store}

theorem coordinateKeyOf_inj (h : coordinateKeyOf co = coordinateKeyOf o) :
    co = o := by
  cases co
  cases o
  simpa [coordinateKeyOf] using h

structure Loaded (q : Queue) (coordinate : Coordinate) (id : IntentId) (member : MemberRecord) : Prop where
  intent : q.intents[id]? = some member.intent
  work : member.intent.coordinate = some coordinate
  receipt : q.receipts[member.intent.receiptId]? = some member.receipt
  names : member.receipt.intentId = some id

variable {q : Queue} {id : IntentId}

theorem Loaded.openAt (h : Loaded q co id mb) : q.OpenAt co id := ⟨mb.intent, h.intent, h.work⟩

theorem coordinate_of_operationAt (h : IntentWork.operationAt co intent.work = some mat) :
    intent.coordinate = some co := by
  unfold IntentRecord.coordinate
  cases hW : intent.work with
  | event fr rt sg => simp [hW, IntentWork.operationAt] at h
  | replaceableOperation jr wr =>
    simp only [hW, IntentWork.operationAt] at h
    split_ifs at h with hS
    exact congrArg some hS

theorem operationAt_of_coordinate (h : intent.coordinate = some co) :
    ∃ mt, IntentWork.operationAt co intent.work = some mt ∧
      intent.work = .replaceableOperation co mt := by
  unfold IntentRecord.coordinate at h
  split at h
  · next jr mt hW =>
    cases h
    exact ⟨mt, by simp [hW, IntentWork.operationAt], hW⟩
  · cases h

theorem filedAt_of_coordinate (h : payload.coordinate = some co) :
    ∃ ac state, ReceiptPayload.operationAt co payload = some (ac, state) ∧
      payload = .replaceableOperation co ac state := by
  cases payload with
  | event ed state => cases h
  | replaceableOperation fl ac state =>
    cases h
    exact ⟨ac, state, by simp [ReceiptPayload.operationAt], rfl⟩

theorem loadMember_loaded (h : loadMember q co id = .ok mb) : Loaded q co id mb := by
  unfold loadMember at h
  split at h
  · cases h
  next intent hI =>
  split at h
  · cases h
  next mt hW =>
  split at h
  · cases h
  next rc hR =>
  split at h
  · cases h
  next ac st hF =>
  split_ifs at h with hN
  cases h
  exact ⟨hI, coordinate_of_operationAt hW, hR, not_not.mp hN⟩

theorem loadMember_progress (h : q.FiledBelow i r)
    (ho : q.OpenAt co id) : ∃ mb, loadMember q co id = .ok mb := by
  obtain ⟨intent, hI, hW⟩ := ho
  obtain ⟨-, receipt, hR, hN, hF⟩ := h id intent hI
  obtain ⟨materialization, hAt, -⟩ := operationAt_of_coordinate hW
  obtain ⟨acceptance, state, hP, -⟩ := filedAt_of_coordinate (hF.trans hW)
  exact ⟨⟨intent, materialization, receipt, acceptance, state⟩,
    by simp [loadMember, hI, hAt, hR, hP, hN, pure, Except.pure]⟩

theorem loadMemberRecords_loaded (h : loadMemberRecords q updates ni co = .ok mems) :
    ∀ e ∈ mems, e.1 ∈ updates ∧ Loaded q co e.1.intentId e.2 := by
  intro e hE
  obtain ⟨u, hU, hL⟩ := Except.mem_of_mapM_ok h hE
  simp only [run_ok] at hL
  obtain ⟨mb, hM, rfl⟩ := hL
  exact ⟨(mem_filter.mp hU).1, loadMember_loaded hM⟩

theorem waitingMembers_loaded :
    ∀ {l : List IntentId} {members : List (IntentId × MemberRecord)},
      SemanticStore.waitingMembers q co mat l = .ok (some members) →
      ∀ entry ∈ members, Loaded q co entry.1 entry.2
  | [], members, h, entry, hE => by
    cases h
    cases hE
  | id :: rs, members, h, entry, hE => by
    unfold SemanticStore.waitingMembers at h
    split at h
    · cases h
    next intent hI =>
    split at h
    · cases h
    next wr hW =>
    split_ifs at h
    · cases h
    split at h
    · cases h
    next rc hR =>
    split at h
    · cases h
    next ac st hF =>
    dsimp only at h
    split_ifs at h with hA
    · simp only [run_ok, map_eq_some_iff] at h
      obtain ⟨_, hRest, others, rfl, rfl⟩ := h
      rcases mem_cons.mp hE with rfl | hX
      · simp only [SemanticStore.awaitsSignature, and_eq_true, decide_eq_true_eq] at hA
        exact ⟨hI, coordinate_of_operationAt hW, hR, hA.1.1.1⟩
      · exact waitingMembers_loaded hRest entry hX
    · cases h

theorem closingMember_loaded (h : SemanticStore.closingMember q co mat id = .ok (.ready mb)) :
    Loaded q co id mb := by
  unfold SemanticStore.closingMember at h
  split at h
  · cases h
  next intent hI =>
  split at h
  · next wr hW =>
    split_ifs at h
    · cases h
    split at h
    · cases h
    next rc hr =>
    split at h
    · split_ifs at h with hR
      · cases h
        exact ⟨hI, coordinate_of_operationAt hW, hr, hR.1⟩
      · cases h
    · cases h
  · cases h

theorem closingMembers_each :
    ∀ {l : List IntentId} {members : List (IntentId × MemberRecord)},
      SemanticStore.closingMembers q co mat l = .ok (.ok members) →
      ∀ entry ∈ members, entry.1 ∈ l ∧ Loaded q co entry.1 entry.2
  | [], members, h, entry, hE => by
    cases h
    cases hE
  | id :: rs, members, h, entry, hE => by
    simp only [SemanticStore.closingMembers, bind_ok] at h
    obtain ⟨vd, hV, h⟩ := h
    cases vd with
    | stale => cases h
    | destinationOpen => cases h
    | ready mb =>
      simp only [run_ok] at h
      obtain ⟨ot, hRest, hM⟩ := h
      cases ot with
      | error o => cases hM
      | ok ot =>
        cases hM
        rcases mem_cons.mp hE with rfl | hX
        · exact ⟨.head _, closingMember_loaded hV⟩
        · exact (closingMembers_each hRest entry hX).imp_left (mem_cons_of_mem _)

theorem closingMembers_progress (h : q.FiledBelow i r)
    : ∀ {l : List IntentId}, (∀ id ∈ l, q.OpenAt co id) →
      ∃ vd, SemanticStore.closingMembers q co mat l = .ok vd
  | [], _ => ⟨.ok [], rfl⟩
  | id :: rs, ho => by
    obtain ⟨intent, hI, hW⟩ := ho id (by simp)
    obtain ⟨-, receipt, hR, -, -⟩ := h id intent hI
    obtain ⟨others, hRest⟩ : ∃ vd, SemanticStore.closingMembers q co mat rs = .ok vd :=
      closingMembers_progress h fun o hX => ho o (mem_cons_of_mem id hX)
    have hM : ∃ vd, SemanticStore.closingMember q co mat id = .ok vd := by
      unfold SemanticStore.closingMember
      simp only [hI, hR]
      repeat' split
      all_goals exact ⟨_, rfl⟩
    obtain ⟨vd, hV⟩ := hM
    unfold SemanticStore.closingMembers
    rw [hV]
    cases vd with
    | stale => exact ⟨_, rfl⟩
    | destinationOpen => exact ⟨_, rfl⟩
    | ready mb =>
      rw [hRest]
      exact ⟨_, rfl⟩

structure Rewrites (coordinate : Coordinate) (q : Queue) (id : IntentId) (member : MemberRecord) (stays : Bool)
    (q' : Queue) : Prop where
  counters : q'.nextIntentId = q.nextIntentId ∧ q'.nextReceiptId = q.nextReceiptId
  intents : ∀ other : IntentId, other ≠ id → q'.intents[other]? = q.intents[other]?
  intent : ∀ record, q'.intents[id]? = some record →
    record.receiptId = member.intent.receiptId ∧ record.coordinate = some coordinate
  kept : stays = true → ∃ record, q'.intents[id]? = some record
  receipts : ∀ other : Nat, other ≠ member.intent.receiptId → q'.receipts[other]? = q.receipts[other]?
  receipt : member.receipt.intentId = some id → q'.Refers member.intent.receiptId id (some coordinate)

inductive RewritesEach (coordinate : Coordinate) : Queue → List (IntentId × MemberRecord × Bool) → Queue → Prop
  | nil {q : Queue} : RewritesEach coordinate q [] q
  | cons {q q' q'' : Queue} {id : IntentId} {member : MemberRecord} {stays : Bool}
      {rest : List (IntentId × MemberRecord × Bool)} (hFirst : Rewrites coordinate q id member stays q')
      (hRest : RewritesEach coordinate q' rest q'') : RewritesEach coordinate q ((id, member, stays) :: rest) q''

structure Rewritten (base q : Queue) : Prop where
  counters : q.nextIntentId = base.nextIntentId ∧ q.nextReceiptId = base.nextReceiptId
  filed : ∀ i r, base.FiledBelow i r → q.FiledBelow i r
  owners : ∀ receiptId id work, base.Refers receiptId id work → ∃ work', q.Refers receiptId id work'

variable {q q' : Queue}

theorem Rewritten.refl (bs : Queue) : Rewritten bs bs := ⟨⟨rfl, rfl⟩, fun _ _ h => h, fun _ _ wr h => ⟨wr, h⟩⟩

theorem Rewritten.step (h : Rewritten base q)
    (hL : Loaded base co id mb) (hR : Rewrites co q id mb stays q') :
    Rewritten base q' where
  counters := ⟨hR.counters.1.trans h.counters.1, hR.counters.2.trans h.counters.2⟩
  filed i r hB := by
    intro o rc hA
    by_cases hS : o = id
    · subst hS
      obtain ⟨hC, hW⟩ := hR.intent rc hA
      rw [hC, hW]
      exact ⟨(hB _ _ hL.intent).1, hR.receipt hL.names⟩
    rw [hR.intents o hS] at hA
    obtain ⟨hb, receipt, hC, hN, hW⟩ := h.filed i r hB o rc hA
    refine ⟨hb, receipt, (hR.receipts _ fun hs => hS ?_).trans hC, hN, hW⟩
    -- the receipt still belongs to the member it was loaded with
    obtain ⟨_, found, hF, hO, -⟩ := h.owners _ id _ ⟨mb.receipt, hL.receipt, hL.names, rfl⟩
    rw [hs] at hC
    cases hC.symm.trans hF
    exact Option.some.inj (hN.symm.trans hO)
  owners receiptId o work hr := by
    by_cases hS : receiptId = mb.intent.receiptId
    · subst hS
      obtain ⟨receipt, hC, hN, -⟩ := hr
      cases hC.symm.trans hL.receipt
      cases hN.symm.trans hL.names
      exact ⟨_, hR.receipt hL.names⟩
    · obtain ⟨work', receipt, hC, hN, hW⟩ := h.owners receiptId o work hr
      exact ⟨work', receipt, (hR.receipts _ hS).trans hC, hN, hW⟩

theorem RewritesEach.rewritten (h : RewritesEach co q ents q')
    (hL : ∀ e ∈ ents, Loaded base co e.1 e.2.1) (hB : Rewritten base q) : Rewritten base q' := by
  induction h with
  | nil => exact hB
  | cons hFirst hRest ih =>
    exact ih (fun e hE => hL e (.tail _ hE)) (hB.step (hL _ (.head _)) hFirst)

theorem RewritesEach.openAt (h : RewritesEach co q ents q') (ho : q.OpenAt at' id)
    (hS : ∀ e ∈ ents, e.1 = id → e.2.2 = true ∧ at' = co) : q'.OpenAt at' id := by
  induction h with
  | nil => exact ho
  | cons hFirst hRest ih =>
    refine ih ?_ fun e hE => hS e (.tail _ hE)
    rename_i fr member st rs
    by_cases hs : fr = id
    · subst hs
      obtain ⟨hK, rfl⟩ := hS (fr, member, st) (by simp) rfl
      obtain ⟨r, hAt⟩ := hFirst.kept hK
      exact ⟨r, hAt, (hFirst.intent r hAt).2⟩
    · obtain ⟨r, hAt, hW⟩ := ho
      exact ⟨r, (hFirst.intents id (Ne.symm hs)).trans hAt, hW⟩

theorem rewrites_insert :
    Rewrites coord q id mb stays { q with
      intents := q.intents.insert id { mb.intent with work := .replaceableOperation coord rec }
      receipts := q.receipts.insert mb.intent.receiptId { mb.receipt with
        payload := .replaceableOperation coord acceptance st } } where
  counters := ⟨rfl, rfl⟩
  intents o hX := by simp [Ne.symm hX]
  intent fd hAt := by
    simp only [get_insert, if_true, Option.some.injEq] at hAt
    subst hAt
    exact ⟨rfl, rfl⟩
  kept _ := ⟨_, by simp only [get_insert, if_true]; rfl⟩
  receipts o hX := by simp [Ne.symm hX]
  receipt hN := Queue.refers_of_insert rfl hN rfl

theorem rewrites_erase :
    Rewrites co q id mb false { q with
      intents := q.intents.erase id
      receipts := q.receipts.insert mb.intent.receiptId { mb.receipt with
        payload := .replaceableOperation co acceptance st } } where
  counters := ⟨rfl, rfl⟩
  intents o hX := by simp [Ne.symm hX]
  intent fd hA := by simp at hA
  kept hS := by cases hS
  receipts o hX := by simp [Ne.symm hX]
  receipt hN := Queue.refers_of_insert rfl hN rfl

theorem updateMember_rewrites (r : Option MaterializationRecord) (e : SemanticReceiptUpdate × MemberRecord) :
    Rewrites co q e.1.intentId e.2 (e.1.resolution = .contributing) (updateMember co r q e) := by
  unfold updateMember
  dsimp only
  split_ifs with hC
  · exact rewrites_insert
  · rw [decide_eq_false hC]
    exact rewrites_erase

theorem updateMembers_rewrites (r : Option MaterializationRecord) :
    ∀ (mm : List (SemanticReceiptUpdate × MemberRecord)) (q : Queue), RewritesEach co q
      (mm.map fun e => (e.1.intentId, e.2, decide (e.1.resolution = .contributing)))
      (mm.foldl (updateMember co r) q)
  | [], _ => .nil
  | _ :: rs, _ => .cons (updateMember_rewrites r _) (updateMembers_rewrites r rs _)

theorem signMembers_rewrites : ∀ (mm : List (IntentId × MemberRecord)) (q : Queue), RewritesEach co q
      (mm.map fun e => (e.1, e.2, true)) (mm.foldl (SemanticStore.signMember co) q)
  | [], _ => .nil
  | _ :: rs, _ => .cons rewrites_insert (signMembers_rewrites rs _)

theorem markTerminalReceipt_refers (h : q.markTerminalReceipt rcId now = .ok q') :
    (∀ o : Nat, o ≠ rcId → q'.receipts[o]? = q.receipts[o]?) ∧
      ∀ id wr, q.Refers rcId id wr → q'.Refers rcId id wr := by
  unfold Queue.markTerminalReceipt at h
  cases hA : q.receipts[rcId]? with
  | none => simp [hA] at h
  | some r =>
    simp only [hA] at h
    split at h
    · cases h
      exact ⟨fun _ _ => rfl, fun _ _ hR => hR⟩
    simp only [run_ok] at h
    obtain ⟨-, -, rfl⟩ := h
    refine ⟨fun o hX => by simp [Ne.symm hX], fun id wr hR => ?_⟩
    obtain ⟨rc, hr, hN, hW⟩ := hR
    cases hA.symm.trans hr
    exact Queue.refers_of_insert rfl hN hW

theorem settleMember_rewrites
    (h : SemanticStore.settleMember co mat now q e = .ok q') :
    Rewrites co q e.1 e.2 false q' := by
  have hM := markTerminalReceipt_refers h
  obtain ⟨rs, sequence, time, rfl⟩ := Queue.markTerminalReceipt_frame h
  refine ⟨⟨rfl, rfl⟩, fun o hX => by simp [Ne.symm hX, Queue.clearIntentDeadlines], fun r hA => by simp at hA, by simp,
    fun o hX => ?_, fun hN => ?_⟩
  · refine (hM.1 o hX).trans ?_
    simp [Ne.symm hX, Queue.clearIntentDeadlines]
  · exact hM.2 _ _ (Queue.refers_of_insert rfl hN rfl)

theorem settleMembers_rewrites :
    ∀ {mm : List (IntentId × MemberRecord)} {q q' : Queue},
      mm.foldlM (SemanticStore.settleMember co mat now) q = .ok q' →
      RewritesEach co q (mm.map fun e => (e.1, e.2, false)) q'
  | [], q, q', h => by
    cases h
    exact .nil
  | e :: rs, q, q', h => by
    rw [foldlM_cons, bind_ok] at h
    obtain ⟨m, hFirst, hRest⟩ := h
    exact .cons (settleMember_rewrites hFirst) (settleMembers_rewrites hRest)

def Listed (w : SemanticStore) : Prop :=
  ∀ (key : CoordinateKey) state, w.resources[key]? = some state →
    ∀ id ∈ memberIds state.operations, w.store.queue.OpenAt state.coordinate id

structure Agreed (w : SemanticStore) : Prop where
  filed : w.store.queue.Filed
  listed : Listed w

theorem agreed_empty : Agreed {} where
  filed id r hA := by simp at hA
  listed k st hA := by simp at hA

def Draws (q : Queue) (newIntent : Option NewIntent) (i r : Nat) : Prop :=
  match newIntent with
  | none => q.nextIntentId = i ∧ q.nextReceiptId = r
  | some new => (new.intentId = i ∧ new.receiptId = r) ∧ q.nextIntentId = i + 1 ∧ q.nextReceiptId = r + 1

theorem journalOperation_filed (h : q.FiledBelow i r) (rc : Option MaterializationRecord)
    (up : List SemanticReceiptUpdate) (hI : n.intentId = i) (hR : n.receiptId = r) :
    ((journalOperation co rc up q n).FiledBelow (i + 1) (r + 1) ∧
      ∀ at' id, q.OpenAt at' id → (journalOperation co rc up q n).OpenAt at' id) ∧
      ((∃ u ∈ up, u.intentId = i) → (journalOperation co rc up q n).OpenAt co i) := by
  subst hI
  subst hR
  unfold journalOperation
  cases hF : up.find? (·.intentId = n.intentId) with
  | none =>
    refine ⟨⟨h.mono (Nat.le_succ _) (Nat.le_succ _), fun _ _ ho => ho⟩, fun ⟨u, hM, hi⟩ => ?_⟩
    exact absurd hi (by simpa using List.find?_eq_none.mp hF u hM)
  | some u =>
    refine ⟨h.file rfl rfl rfl rfl rfl, fun _ => ?_⟩
    simp only [Queue.OpenAt, get_insert, if_true, Option.some.injEq, exists_eq_left']
    rfl

theorem journalOperation_counters (r : Option MaterializationRecord) (up : List SemanticReceiptUpdate)
    (n : NewIntent) : (journalOperation co r up q n).nextIntentId = q.nextIntentId ∧
      (journalOperation co r up q n).nextReceiptId = q.nextReceiptId := by
  unfold journalOperation
  split <;> exact ⟨rfl, rfl⟩

theorem writeQueue_filed (pl : SemanticTransitionPlan) (h : base.FiledBelow i r)
    (hD : Draws base ni i r) (hL : ∀ e ∈ mems, Loaded base co e.1.intentId e.2) :
    (writeQueue co pl ni base mems).Filed ∧
      (∀ at' id, base.OpenAt at' id → (∀ e ∈ mems, e.1.intentId = id → e.1.resolution = .contributing) →
        (writeQueue co pl ni base mems).OpenAt at' id) ∧
      ∀ n, ni = some n → (∃ u ∈ pl.receiptUpdates, u.intentId = n.intentId) →
        (writeQueue co pl ni base mems).OpenAt co n.intentId := by
  have he : RewritesEach co base _ (mems.foldl (updateMember co (materializationRecord pl)) base) :=
    updateMembers_rewrites (materializationRecord pl) mems base
  have hW : Rewritten base (mems.foldl (updateMember co (materializationRecord pl)) base) := by
    refine he.rewritten (fun e hE => ?_) (.refl base)
    obtain ⟨mb, hM, rfl⟩ := mem_map.mp hE
    exact hL mb hM
  have hF := hW.filed i r h
  have hOp : ∀ at' id, base.OpenAt at' id → (∀ e ∈ mems, e.1.intentId = id → e.1.resolution = .contributing) →
      (mems.foldl (updateMember co (materializationRecord pl)) base).OpenAt at' id := by
    intro at' id hA hS
    refine he.openAt hA fun e hE hI => ?_
    obtain ⟨mb, hM, rfl⟩ := mem_map.mp hE
    have hI : mb.1.intentId = id := hI
    have hs := (hL mb hM).openAt
    rw [hI] at hs
    exact ⟨decide_eq_true (hS mb hM hI), hA.unique hs⟩
  cases ni with
  | none =>
    refine ⟨?_, hOp, fun n hN => by cases hN⟩
    unfold Queue.Filed
    rw [show writeQueue co pl none base mems =
      mems.foldl (updateMember co (materializationRecord pl)) base from rfl, hW.counters.1,
      hW.counters.2, hD.1, hD.2]
    exact hF
  | some n =>
    obtain ⟨⟨hF', hOp'⟩, hN⟩ := journalOperation_filed hF (materializationRecord pl) pl.receiptUpdates
      hD.1.1 hD.1.2
    refine ⟨?_, fun at' id hA hS => hOp' at' id (hOp at' id hA hS), fun _ hq hU => ?_⟩
    · unfold Queue.Filed
      rw [show writeQueue co pl (some n) base mems = journalOperation co (materializationRecord pl)
        pl.receiptUpdates (mems.foldl (updateMember co (materializationRecord pl)) base) n from rfl,
        (journalOperation_counters ..).1, (journalOperation_counters ..).2, hW.counters.1, hW.counters.2,
        hD.2.1, hD.2.2]
      exact hF'
    · cases hq
      rw [hD.1.1] at hU ⊢
      exact hN hU

theorem Planned.contributing (h : Planned co pv ni pl)
    (hx : pl.next = some next) (hI : id ∈ memberIds next.operations) :
    (id ∈ listedIds pv ∨ ni = some id) ∧ (∃ u ∈ pl.receiptUpdates, u.intentId = id) ∧
      ∀ u ∈ pl.receiptUpdates, u.intentId = id → id ∈ listedIds pv → ni ≠ some id →
        u.resolution = .contributing := by
  obtain ⟨o, resolved, hP, hu, ho, -⟩ := h.updates
  rw [ho next hx] at hI
  have hM := hI
  rw [hP.filtered, mem_append, mem_filter, Option.mem_toList] at hM
  refine ⟨hM.imp (fun hF => hF.1) fun hN => hN, ?_, fun u hU hS hL hO => ?_⟩
  · obtain ⟨op, hp, rfl⟩ := mem_map.mp hI
    exact ⟨_, by rw [hu, receiptUpdates]; exact mem_append_left _ (mem_map_of_mem hp), rfl⟩
  rw [hu, receiptUpdates, mem_append] at hU
  rcases hU with hC | hD
  · obtain ⟨op, -, rfl⟩ := mem_map.mp hC
    rfl
  obtain ⟨e, hE, rfl⟩ := mem_map.mp hD
  have hn := (hM.resolve_right hO).2
  rw [← hS, mem_toList.mp hE] at hn
  cases hn

variable [ShardHash] {w w' : SemanticStore}

theorem commit_queue {s : Store} (h : s.commit = .ok s') : s'.queue = s.queue := by
  simp only [Store.commit, run_ok] at h
  obtain ⟨_, -, rfl⟩ := h
  rfl

theorem Applies.agreed {ba : SemanticStore}
    (ap : Applies ba co ni pl w') (hF : ba.store.queue.FiledBelow i r)
    (hd : Draws ba.store.queue ni i r) (hL : Listed ba) (hR : Resources bs ba)
    (hP : Planned co ba.resources[coordinateKeyOf co]? (ni.map (·.intentId)) pl) :
    Agreed w' := by
  have hM := loadMemberRecords_loaded ap.hMembers
  obtain ⟨hW, hOp, hN⟩ := writeQueue_filed pl hF hd fun e hE => (hM e hE).2
  have hQ : w'.store.queue = ap.queue := commit_queue ap.hCommit
  obtain ⟨ln, routeRevisions, deadlines, hl⟩ := ap.hLanes
  have hS : ∀ at' id, (writeQueue co pl ni ba.store.queue ap.members).OpenAt at' id →
      w'.store.queue.OpenAt at' id := fun at' id hA => by
    rw [hQ, hl]
    exact hA
  -- an operation of another coordinate is no member of this plan
  have hX : ∀ k st, ba.resources[k]? = some st → k ≠ coordinateKeyOf co →
      ∀ id ∈ memberIds st.operations, w'.store.queue.OpenAt st.coordinate id := by
    intro k st hA hK id hI
    have hB := hL k st hA id hI
    refine hS _ _ (hOp _ _ hB fun e hE he => absurd ?_ hK)
    have hm := (hM e hE).2.openAt
    rw [he] at hm
    rw [← (hR k st hA).key, hB.unique hm]
  refine ⟨?_, fun k st hA => ?_⟩
  · rw [hQ, hl]
    exact hW
  rw [ap.hResources.1, writeResource] at hA
  cases hn : pl.next with
  | none =>
    simp only [hn, Option.elim_none, get_erase] at hA
    split_ifs at hA with hK
    exact hX k st hA (Ne.symm hK)
  | some next =>
    simp only [hn, elim_some, get_insert] at hA
    split_ifs at hA with hK
    · cases hA
      intro id hI
      rw [(hP.stays st hn).1]
      obtain ⟨ho, hU, hC⟩ := hP.contributing hn hI
      by_cases hD : ni.map (·.intentId) = some id
      · obtain ⟨n, hw, rfl⟩ := map_eq_some_iff.mp hD
        exact hS _ _ (hN n hw hU)
      have hO := ho.resolve_right hD
      obtain ⟨pv, hp, hs⟩ : ∃ pv, ba.resources[coordinateKeyOf co]? = some pv ∧
          id ∈ memberIds pv.operations := by
        cases hp : ba.resources[coordinateKeyOf co]? with
        | none => simp [listedIds, hp, memberIds] at hO
        | some pv => exact ⟨pv, rfl, by simpa [listedIds, hp] using hO⟩
      have hB := hL _ pv hp id hs
      rw [coordinateKeyOf_inj (hR _ pv hp).key] at hB
      refine hS _ _ (hOp _ _ hB fun e hE he => ?_)
      exact hC e.1 (hM e hE).1 he hO hD
    · exact hX k st hA (Ne.symm hK)

variable [ProgramDigest] {door : Door}

def Door.SparesOperations (w : SemanticStore) : Door → Prop
  | .acceptWrite write _ => ∀ (key : CoordinateKey) state, w.resources[key]? = some state →
    ∀ id ∈ memberIds state.operations, ¬ w.store.SupersededBy write.frozen id
  | _ => True

omit [ShardHash] [ProgramDigest] in
theorem Agreed.refiled (h : Agreed w) (hR : Queue.RefilesAll w.store.queue s'.queue) :
    Agreed { w with store := s' } where
  filed := hR.settled h.filed
  listed k st hA id hI := (hR.filed _ _ h.filed).2 _ _ (fun hF => hF) (h.listed k st hA id hI)

section
omit [ProgramDigest]

theorem SemanticStore.Promotion.agreed
    (pr : w.Promotion co mat ver o w')
    (h : Agreed w) : Agreed w' := by
  have hc : RewritesEach co w.store.queue _ (pr.members.foldl (signMember co) w.store.queue) :=
    signMembers_rewrites pr.members w.store.queue
  have hL := waitingMembers_loaded pr.hMembers
  have hW : Rewritten w.store.queue (pr.members.foldl (signMember co) w.store.queue) := by
    refine hc.rewritten (fun e hE => ?_) (.refl _)
    obtain ⟨mb, hM, rfl⟩ := mem_map.mp hE
    exact hL mb hM
  have hQ := commit_queue (commit_store pr.hCommit)
  refine ⟨?_, fun k st hA id hI => ?_⟩
  · rw [hQ]
    unfold Queue.Filed
    rw [hW.counters.1, hW.counters.2]
    exact hW.filed _ _ h.filed
  rw [(commit_sameResources pr.hCommit).1] at hA
  have ho := h.listed k st hA id hI
  rw [hQ]
  refine hc.openAt ho fun e hE he => ?_
  obtain ⟨mb, hM, rfl⟩ := mem_map.mp hE
  have he : mb.1 = id := he
  exact ⟨rfl, ho.unique (he ▸ (hL mb hM).openAt)⟩

theorem SemanticStore.Closing.agreed
    (sh : w.Closing close now o w') (h : Agreed w) (hR : Resources bs w) : Agreed w' := by
  have hc := settleMembers_rewrites sh.hQueue
  have hL := fun e hE => (closingMembers_each sh.hMembers e hE).2
  have hW : Rewritten w.store.queue sh.queue := by
    refine hc.rewritten (fun e hE => ?_) (.refl _)
    obtain ⟨mb, hM, rfl⟩ := mem_map.mp hE
    exact hL mb hM
  have hQ := commit_queue (commit_store sh.hCommit)
  refine ⟨?_, fun k st hA id hI => ?_⟩
  · rw [hQ]
    unfold Queue.Filed
    rw [hW.counters.1, hW.counters.2]
    exact hW.filed _ _ h.filed
  rw [(commit_sameResources sh.hCommit).1, get_erase] at hA
  split_ifs at hA with hK
  have ho := h.listed k st hA id hI
  rw [hQ]
  refine hc.openAt ho fun e hE he => absurd ?_ hK
  obtain ⟨mb, hM, rfl⟩ := mem_map.mp hE
  have he : mb.1 = id := he
  rw [← (hR k st hA).key, ho.unique (he ▸ (hL mb hM).openAt)]

end

theorem Door.Runs.agreed (h : Agreed w) (hT : Settled bs w) (hR : Resources bs w)
    (hD : door.Authentic bs) (hs : door.SparesOperations w) (hr : door.Runs w w') : Agreed w' := by
  have hS := hT.sound
  cases hr with
  | insert ho => exact h.refiled (Store.insert_relates (·.refiles) hS hD ho)
  | insertBatch ho => exact h.refiled (Store.insertBatch_relates (.refl _) .trans (·.refiles) hS hD ho)
  | acceptWrite ho =>
    obtain ⟨hF, hp⟩ := Store.acceptWrite_filed hS h.filed hD ho
    exact ⟨hF, fun k st hA id hI => hp _ _ (hs k st hA id hI) (h.listed k st hA id hI)⟩
  | promoteSigned ho => exact h.refiled (hS.promoteSigned_ok ho).refiles
  | compensateWrite ho => exact h.refiled (Store.compensateWrite_ok hS.events ho).refiles
  | remove ho => exact h.refiled ((Store.remove_thinned hS.events ho).queue ▸ .refl _ _)
  | expireDue ho => exact h.refiled ((Store.expireDue_thinned hS.events ho).queue ▸ .refl _ _)
  | gc ho => exact h.refiled ((Store.gc_thinned hS.events ho).queue ▸ .refl _ _)
  | accept ho =>
    rcases SemanticStore.accept_cases hS.events ho with rfl | ⟨⟨ac⟩⟩
    · exact h
    have hF : w.allocated.store.queue.FiledBelow w.store.queue.nextIntentId w.store.queue.nextReceiptId := h.filed
    have hL : Listed w.allocated := h.listed
    have hB : Resources bs w.allocated := hR
    exact ac.applies.agreed hF ⟨⟨rfl, rfl⟩, rfl, rfl⟩ hL hB ac.planned
  | installSource ho =>
    rcases SemanticStore.installSource_cases hS.events ho with rfl | ⟨⟨is⟩⟩
    · exact h
    · exact is.applies.agreed h.filed ⟨rfl, rfl⟩ h.listed hR is.planned
  | promote ho =>
    rcases SemanticStore.promote_cases ho with ⟨-, rfl⟩ | ⟨⟨pr⟩⟩
    · exact h
    · exact pr.agreed h
  | closeCohort ho =>
    rcases SemanticStore.closeCohort_cases ho with rfl | ⟨⟨sh⟩⟩
    · exact h
    · exact sh.agreed h hR

structure AgreesWith (q : Queue) (state : SemanticResourceState) : Prop where
  journaled : ∀ id ∈ memberIds state.operations, ∃ intent materialization receipt acceptance filed,
    q.intents[id]? = some intent ∧ intent.work = .replaceableOperation state.coordinate materialization ∧
      q.receipts[intent.receiptId]? = some receipt ∧ receipt.intentId = some id ∧
      receipt.payload = .replaceableOperation state.coordinate acceptance filed
  within : ∀ generation, state.generation = some generation →
    ∀ member ∈ generation.members, member ∈ memberIds state.operations

structure MembersLoad (w : SemanticStore) : Prop where
  accept : ∀ (edit : SemanticAccept) (acceptedAt : Nat) (plan : SemanticTransitionPlan),
    planAccept w.resources[coordinateKeyOf edit.coordinate]? w.highWater[coordinateKeyOf edit.coordinate]?
      w.store.queue.nextIntentId acceptedAt edit = .ok plan →
    ∃ members, loadMemberRecords w.allocated.store.queue plan.receiptUpdates (some w.store.queue.nextIntentId)
      edit.coordinate = .ok members
  install : ∀ (install : SemanticSourceInstall) (previous : SemanticResourceState) (plan : SemanticTransitionPlan),
    w.resources[coordinateKeyOf install.successor.coordinate]? = some previous →
    planSourceInstall previous install = .ok plan →
    ∃ members, loadMemberRecords w.store.queue plan.receiptUpdates none install.successor.coordinate = .ok members
  close : ∀ (coordinate : Coordinate) (state : SemanticResourceState) (generation : SemanticGeneration),
    w.resources[coordinateKeyOf coordinate]? = some state → state.generation = some generation →
    ∃ verdict, SemanticStore.closingMembers w.store.queue coordinate generation.materialization
      generation.members.toList = .ok verdict

section
omit [ShardHash] [ProgramDigest]

theorem Agreed.agreesWith (h : Agreed w) (hR : Resources bs w) {k : CoordinateKey}
    (hA : w.resources[k]? = some st) : AgreesWith w.store.queue st where
  journaled id hI := by
    obtain ⟨intent, hi, hW⟩ := h.listed k st hA id hI
    obtain ⟨-, receipt, hr, hN, hF⟩ := h.filed id intent hi
    obtain ⟨materialization, -, hO⟩ := operationAt_of_coordinate hW
    obtain ⟨acceptance, filed, -, hP⟩ := filedAt_of_coordinate (hF.trans hW)
    exact ⟨intent, materialization, receipt, acceptance, filed, hi, hO, hr, hN, hP⟩
  within := (hR k st hA).within

theorem Planned.loads (h : Planned co pv ni pl) (hF : q.FiledBelow i r)
    (hL : ∀ st, pv = some st → ∀ id ∈ memberIds st.operations, q.OpenAt co id) :
    ∃ mm, loadMemberRecords q pl.receiptUpdates ni co = .ok mm := by
  refine Except.mapM_progress fun u hU => ?_
  obtain ⟨hM, hO⟩ := mem_filter.mp hU
  obtain ⟨o, resolved, hP, hu, -, -⟩ := h.updates
  have hI : u.intentId ∈ listedIds pv := by
    rw [hu, receiptUpdates, mem_append] at hM
    rcases hM with hC | hD
    · obtain ⟨op, ho, rfl⟩ := mem_map.mp hC
      have hi : op.intentId ∈ memberIds o := mem_map_of_mem ho
      rw [hP.filtered, mem_append, mem_filter, Option.mem_toList] at hi
      exact (hi.resolve_right fun hN => by simp [hN] at hO).1
    · obtain ⟨e, hE, rfl⟩ := mem_map.mp hD
      exact hP.known _ _ (mem_toList.mp hE)
  obtain ⟨st, hS, hl⟩ : ∃ st, pv = some st ∧ u.intentId ∈ memberIds st.operations := by
    cases pv with
    | none => simp [listedIds, memberIds] at hI
    | some st => exact ⟨st, rfl, by simpa [listedIds] using hI⟩
  obtain ⟨mb, hm⟩ := loadMember_progress hF (hL st hS _ hl)
  exact ⟨(u, mb), by rw [hm]; rfl⟩

end

omit [ShardHash] in
theorem Agreed.membersLoad (h : Agreed w) (hR : Resources bs w) : MembersLoad w := by
  have ho : ∀ (co : Coordinate) (st : SemanticResourceState),
      w.resources[coordinateKeyOf co]? = some st → ∀ id ∈ memberIds st.operations,
        w.store.queue.OpenAt co id := fun co st hA id hI =>
    coordinateKeyOf_inj (hR _ st hA).key ▸ h.listed _ st hA id hI
  constructor
  · intro ed ac pl hP
    have hF : w.allocated.store.queue.FiledBelow w.store.queue.nextIntentId w.store.queue.nextReceiptId := h.filed
    exact (planAccept_planned hP).loads hF fun st hA => ho ed.coordinate st hA
  · intro is pv pl hA hP
    refine (planSourceInstall_planned hP).loads h.filed fun st hS => ?_
    cases hS
    exact ho _ pv hA
  · intro co st gn hA hG
    refine closingMembers_progress h.filed fun id hI => ho co st hA id ?_
    exact (hR _ st hA).within gn hG id (Std.ExtTreeSet.mem_toList.mp hI)

abbrev SparingRun (bodies : Bodies) : SemanticStore → SemanticStore → Prop :=
  Reaches fun w door => door.Authentic bodies ∧ door.SparesOperations w

/-- In every state of such a run the resources agree with the publish queue, and no member is missing. -/
theorem resources_agree (hRun : SparingRun bodies {} w) :
    (∀ (key : CoordinateKey) state, w.resources[key]? = some state →
      AgreesWith w.store.queue state) ∧ MembersLoad w := by
  suffices hA : Agreed w by
    have hR := (hRun.resources (fun _ _ hC => hC.1) settled_empty resources_empty).2
    exact ⟨fun key state ha => hA.agreesWith hR ha, hA.membersLoad hR⟩
  induction hRun with
  | refl => exact agreed_empty
  | step bfr hC hr ih =>
    obtain ⟨hS, hR⟩ := bfr.resources (fun _ _ hC => hC.1) settled_empty resources_empty
    exact hr.agreed ih hS hR hC.1 hC.2

def listDraft (event : Event) : AcceptWrite := ⟨event, "", .awaitingSigner, 2, "", event.createdAt⟩

section
omit [ShardHash] [ProgramDigest]

/-- A newer draft of the same list closes the operation; the resource still lists it, and the next edit stops there. -/
theorem draft_closes_listed_operation : ∃ w later : SemanticStore,
      @Door.Runs lengthDigest oneShard {} (.accept 2 "" 100 (defaultEdit (listEvent 9 100))) w ∧
      @Door.Runs lengthDigest oneShard w (.acceptWrite (listDraft (listEvent 5 200)) 200) later ∧
      (later.resources[coordinateKeyOf relayList]?).map (fun state => memberIds state.operations) = some [1] ∧
      later.store.queue.intents[1]? = none ∧
      @SemanticStore.accept lengthDigest oneShard later 2 "" 300 (secondEdit (listEvent 11 300)) =
        .error ⟨"semantic member intent 1 is missing"⟩ := by
  let _ := lengthDigest
  let _ := oneShard
  have hR : ((SemanticStore.accept {} 2 "" 100 (defaultEdit (listEvent 9 100))).toOption.any fun first =>
      (first.2.store.acceptWrite (listDraft (listEvent 5 200)) 200).toOption.any fun second =>
        ((first.2.resources[coordinateKeyOf relayList]?).map (fun state => memberIds state.operations) = some [1] &&
          second.2.queue.intents[1]?.isNone) &&
        match SemanticStore.accept { first.2 with store := second.2 } 2 "" 300 (secondEdit (listEvent 11 300)) with
        | .error e => e = ⟨"semantic member intent 1 is missing"⟩
        | .ok _ => false) = true := by
    decide +kernel
  simp only [any_eq_true, toOption_some, and_eq_true, decide_eq_true_eq, isNone_iff_eq_none] at hR
  obtain ⟨first, hFirst, second, hS, ⟨hL, hC⟩, hT⟩ := hR
  refine ⟨first.2, { first.2 with store := second.2 }, .accept hFirst, .acceptWrite hS, hL, hC, ?_⟩
  cases hA : SemanticStore.accept { first.2 with store := second.2 } 2 "" 300 (secondEdit (listEvent 11 300)) with
  | error e =>
    rw [hA] at hT
    exact congrArg Except.error (of_decide_eq_true hT)
  | ok rsl =>
    rw [hA] at hT
    cases hT

/-- After a second edit the resource agrees with the queue on both. -/
theorem resources_agree_two_edits :
    ∃ (w : SemanticStore) (state : SemanticResourceState), w.resources[coordinateKeyOf relayList]? = some state ∧
      AgreesWith w.store.queue state ∧ memberIds state.operations = [1, 2] := by
  let _ := lengthDigest
  let _ := oneShard
  obtain ⟨first, second, hFirst, hSecond, -, -, hR⟩ := two_edits_accepted
  obtain ⟨state, hS, hI⟩ := map_eq_some_iff.mp hR
  have hs : SparingRun listBodies {} second.2 := by
    refine .step (.step .refl ⟨?_, ?_⟩ (.accept hFirst)) ⟨?_, ?_⟩ (.accept hSecond)
    any_goals trivial
    all_goals
      rintro _ ⟨⟩ -
      exact .refl _
  exact ⟨second.2, state, hS, (resources_agree hs).1 _ state hS, hI⟩

end

end NmpStore.Semantic

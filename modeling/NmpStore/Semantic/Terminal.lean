import NmpStore.Semantic.Delivery

/-! # Closed work is terminal along a run

An operation leaves the journal when its cohort closes, when a draft supersedes its row, and when a source or an edit
resolves it.
-/

namespace NmpStore.Semantic

open Queue (RetainsAll Retains)

variable {q q' : Queue} {i r : Nat}

theorem retains_rewrite {id : IntentId} {mb : MemberRecord} (hL : Loaded base co id mb)
    (hA : RetainsAll base a) (work : IntentWork) (payload : ReceiptPayload) :
    RetainsAll base { a with
      intents := a.intents.insert id { mb.intent with work }
      receipts := a.receipts.insert mb.intent.receiptId { mb.receipt with payload } } := by
  refine ⟨hA.counter, fun o ho => ?_, fun o rc ha => ?_, fun r af ha => ?_,
    fun _ _ _ hF => hF.elim, hA.lanes⟩
  · have hI := get_insert a.intents id o { mb.intent with work }
    refine (congrArg _ hI).trans ?_
    split_ifs with hS
    · rw [← hS, hL.intent]
      rfl
    · exact hA.stays o ho
  · rcases insert_some.mp ha with ⟨hS, -⟩ | ⟨-, hI⟩
    · exact ⟨mb.intent, hS ▸ hL.intent⟩
    · exact hA.fewer o rc hI
  · rcases insert_some.mp ha with ⟨hS, rfl⟩ | ⟨-, hI⟩
    · by_cases hT : mb.receipt.terminal.isSome = true
      · exact .inl hT
      · exact .inr ⟨mb.receipt, hS ▸ hL.receipt, rfl, by simpa using hT⟩
    · exact hA.receipts r af hI

theorem retains_foldl {α : Type} {f : Queue → α → Queue} {en : List α} (hA : RetainsAll base a)
    (hS : ∀ e ∈ en, ∀ m, RetainsAll base m → RetainsAll base (f m e)) :
    RetainsAll base (en.foldl f a) := by
  induction en generalizing a with
  | nil => exact hA
  | cons e rs ih =>
    exact ih (hS e (.head _) a hA) fun o hX => hS o (.tail _ hX)

variable {mems : List (SemanticReceiptUpdate × MemberRecord)}

theorem updateMembers_retains (r : Option MaterializationRecord)
    (hM : ∀ e ∈ mems, e.1.resolution = .contributing ∧ Loaded base co e.1.intentId e.2) :
    RetainsAll base (mems.foldl (updateMember co r) base) := by
  refine retains_foldl (.refl base) fun e hE m hD => ?_
  obtain ⟨hC, hL⟩ := hM e hE
  unfold updateMember
  dsimp only
  rw [if_pos hC]
  exact retains_rewrite hL hD _ _

theorem signMembers_retains {mems : List (IntentId × MemberRecord)}
    (hM : ∀ e ∈ mems, Loaded base co e.1 e.2) :
    RetainsAll base (mems.foldl (SemanticStore.signMember co) base) :=
  retains_foldl (.refl base) fun e hE _ hD => retains_rewrite (hM e hE) hD _ _

def ResolvesNone (plan : SemanticTransitionPlan) : Prop := ∀ update ∈ plan.receiptUpdates, update.resolution = .contributing

theorem writeQueue_tidy (hr : ResolvesNone pl) (h : base.TidyBelow i) (hD : Draws base ni i r)
    (hM : loadMemberRecords base pl.receiptUpdates (ni.map (·.intentId)) co = .ok mems) :
    (writeQueue co pl ni base mems).Tidy ∧ ∀ u ∈ pl.receiptUpdates,
      ∃ rc, (writeQueue co pl ni base mems).intents[u.intentId]? = some rc := by
  have hR := updateMembers_retains (materializationRecord pl) fun e hE =>
    ⟨hr _ (loadMemberRecords_loaded hM e hE).1, (loadMemberRecords_loaded hM e hE).2⟩
  have hO : ∀ u ∈ pl.receiptUpdates, some u.intentId ≠ ni.map (·.intentId) → ∃ rc,
      (mems.foldl (updateMember co (materializationRecord pl)) base).intents[u.intentId]? = some rc := by
    intro u hU hY
    obtain ⟨e, hE⟩ := Except.apply_of_mapM_ok hM (mem_filter.mpr ⟨hU, by simpa using hY⟩)
    simp only [run_ok] at hE
    obtain ⟨mb, hm, -⟩ := hE
    obtain ⟨af, hA, -⟩ := hR.still (fun hF => hF) (loadMember_loaded hm).intent
    exact ⟨af, hA⟩
  have hT := hR.tidyBelow h
  cases ni with
  | none =>
    refine ⟨?_, fun u hU => hO u hU (by simp)⟩
    show Queue.TidyBelow (mems.foldl (updateMember co (materializationRecord pl)) base).nextIntentId _
    rw [hR.counter, hD.1]
    exact hT
  | some n =>
    obtain ⟨⟨rfl, rfl⟩, hC, -⟩ := hD
    show Queue.Tidy (journalOperation co _ pl.receiptUpdates _ n) ∧ ∀ u ∈ pl.receiptUpdates,
      ∃ rc, (journalOperation co _ pl.receiptUpdates _ n).intents[u.intentId]? = some rc
    unfold Queue.Tidy
    rw [(journalOperation_counters ..).1, hR.counter, hC]
    unfold journalOperation
    cases hf : pl.receiptUpdates.find? (·.intentId = n.intentId) with
    | none =>
      refine ⟨hT.mono (Nat.le_succ _), fun u hU => hO u hU ?_⟩
      simpa using List.find?_eq_none.mp hf u hU
    | some fd =>
      refine ⟨hT.file rfl rfl rfl rfl, fun u hU => ?_⟩
      by_cases hN : n.intentId = u.intentId
      · exact ⟨_, (get_insert ..).trans (if_pos hN)⟩
      · obtain ⟨rc, hc⟩ := hO u hU (by simpa using Ne.symm hN)
        exact ⟨rc, ((get_insert ..).trans (if_neg hN)).trans hc⟩

theorem Reroutes.tidy
    (h : Reroutes q pv own relays q') (hS : MovesLanes q q') (hn : ∃ rc, q.intents[own]? = some rc)
    (hT : q.Tidy) : q'.Tidy := by
  have hl : ∀ (o : IntentId) (r : QueueRelayId) (ln : Lane), q'.lanes[(o, r)]? = some ln →
      ln.state.isTerminal = false → ∃ rc, q.intents[o]? = some rc := by
    intro o r ln hL hs
    by_cases ho : o = own ∧ r ∈ relays
    · exact ho.1 ▸ hn
    rw [h.others o r ho] at hL
    split_ifs at hL
    exact hT.lanes o r ln hL hs
  obtain ⟨last, routes, deadlines, rfl⟩ := hS
  exact ⟨hT.drawn, hT.receipts, hl⟩

def OpensVacant (plan : SemanticTransitionPlan) (q : Queue) : Prop :=
  ∀ (previous next : SemanticGeneration) (owner : IntentId), plan.removedGeneration = some previous →
    plan.next.bind (·.generation) = some next → next.members.min? = some owner → owner ∉ previous.members →
    ∀ relay ∈ routedRelays q next.members, q.lanes[(owner, relay)]? = none

theorem SucceedsLanes.tidy (h : SucceedsLanes pl q q') (hS : MovesLanes q q')
    (hV : OpensVacant pl q) (ho : ∀ next, pl.next.bind (·.generation) = some next →
      ∀ mb ∈ next.members, ∃ rc, q.intents[mb]? = some rc) (hT : q.Tidy) (hM : q.Mirrors) :
    q'.Tidy ∧ q'.Mirrors := by
  unfold SucceedsLanes at h
  split at h
  · next pv next hP hN =>
    obtain ⟨o, hO, hR⟩ := installSuccessorDeliveryLanes_reroutes h
    have hm : o ∈ next.members := by
      rw [Std.ExtTreeSet.min?_eq_head?_toList] at hO
      exact Std.ExtTreeSet.mem_toList.mp (List.mem_of_mem_head? hO)
    exact ⟨hR.tidy hS (ho next hN o hm) hT,
      hR.mirrors (fun r hr hY => hV pv next o hP hN hO hY r hr) hM⟩
  · subst h
    exact ⟨hT, hM⟩

theorem OpensVacant.of_delivery (h : OpensVacant pl q) (hL : q'.lanes = q.lanes)
    (hr : q'.routeRevisions = q.routeRevisions) : OpensVacant pl q' := by
  intro pv next o hP hN ho hY r hR
  rw [hL]
  refine h pv next o hP hN ho hY r ?_
  unfold routedRelays at hR ⊢
  rwa [hr] at hR

variable {w' : SemanticStore}

theorem Applies.tidy [ShardHash] {bs : SemanticStore}
    (ap : Applies bs co ni pl w')
    (hP : Planned co pv (ni.map (·.intentId)) pl) (hD : Draws bs.store.queue ni i r)
    (hR : ResolvesNone pl) (hV : OpensVacant pl bs.store.queue) (hT : bs.store.queue.TidyBelow i)
    (hM : bs.store.queue.Mirrors) : w'.store.queue.Tidy ∧ w'.store.queue.Mirrors := by
  obtain ⟨hw, ho⟩ := writeQueue_tidy hR hT hD ap.hMembers
  have hW := writeQueue_delivery co pl ni bs.store.queue ap.members
  rw [commit_queue ap.hCommit]
  refine ap.hSucceeds.tidy ap.hLanes (hV.of_delivery hW.2.1 hW.2.2.2.2.2) ?_ hw
    (hM.of_same hW.2.1 hW.2.2.1)
  intro gn hG mb hm
  obtain ⟨next, hN, hg⟩ := bind_eq_some_iff.mp hG
  obtain ⟨-, ⟨u, hU, rfl⟩, -⟩ := hP.contributing hN (hP.within next gn hN hg mb hm)
  exact ho u hU

theorem settleMember_retains
    (ho : SemanticStore.settleMember co mat now q e = .ok q')
    (hR : ∀ rc, q.intents[e.1]? = some rc → rc = e.2.intent)
    (hI : ∀ (r : QueueRelayId) (ln : Lane), q.lanes[(e.1, r)]? = some ln → ln.state.isTerminal = true) :
    Retains (· = e.1) q q' ∧ q'.intents = q.intents.erase e.1 := by
  obtain ⟨i, mb⟩ := e
  simp only [SemanticStore.settleMember] at ho
  have hM := Queue.markTerminalReceipt_receipts ho
  obtain ⟨rs, sequence, time, rfl⟩ := Queue.markTerminalReceipt_frame ho
  refine ⟨Queue.retains_closing rfl rfl (fun rc hA => ?_) (fun o hX => (hM.1 o hX).trans ?_)
    hM.2 rfl hI, rfl⟩
  · rw [hR rc hA]
  · exact (get_insert ..).trans (if_neg hX.symm)

theorem SemanticStore.Closing.tidy [ProgramDigest] [ShardHash] {w : SemanticStore}
    (sh : w.Closing close now o w') (hT : w.store.queue.Tidy) :
    w'.store.queue.Tidy := by
  rw [commit_queue (commit_store sh.hCommit)]
  have hF := foldlM_induction (fun _ a => a.Tidy ∧ a.lanes = w.store.queue.lanes ∧
      ∀ (id : IntentId) rc, a.intents[id]? = some rc → w.store.queue.intents[id]? = some rc)
    ⟨hT, rfl, fun _ _ hA => hA⟩ (fun done e a next hP ha hN => ?_) sh.hQueue
  · exact hF.1
  obtain ⟨hc, hn, hI⟩ := ha
  have hE : e ∈ sh.members := hP.subset (by simp)
  obtain ⟨hM, hL⟩ := closingMembers_each sh.hMembers e hE
  have ho := Std.ExtTreeSet.mem_toList.mp hM
  have hi : ∀ (r : QueueRelayId) (ln : Lane), a.lanes[(e.1, r)]? = some ln →
      ln.state.isTerminal = true := fun r ln hl => sh.terminal ho (hn ▸ hl)
  obtain ⟨hR, he⟩ := settleMember_retains hN (fun rc hA =>
    Option.some.inj ((hI _ rc hA).symm.trans hL.intent)) hi
  refine ⟨hR.tidy hc, (settleMember_lapses hN hi).1.trans hn, fun id rc hA => ?_⟩
  rw [he, get_erase] at hA
  split_ifs at hA
  exact hI id rc hA

theorem tidy_of_filing (hT : q.Tidy) (hF : q.SameFiling q')
    (hL : ∀ (o : IntentId) (r : QueueRelayId) (ln : Lane), q'.lanes[(o, r)]? = some ln →
      ln.state.isTerminal = false → ∃ rc, q.intents[o]? = some rc) : q'.Tidy := by
  obtain ⟨hI, hR, hC⟩ := hF
  unfold Queue.Tidy
  rw [hC]
  exact ⟨hI ▸ hT.drawn, hI ▸ hR ▸ hT.receipts, hI ▸ hL⟩

theorem Moves.tidy (h : q.Moves own r old n q')
    (hF : q.SameFiling q') (ho : n.state.isTerminal = false → ∃ rc, q.intents[own]? = some rc)
    (hT : q.Tidy) : q'.Tidy := by
  refine tidy_of_filing hT hF fun o ol ln hL hS => ?_
  rcases h.cases hL with ⟨hs, rfl⟩ | ⟨-, hO⟩
  · cases hs
    exact ho hS
  · exact hT.lanes o ol ln hO hS

theorem Opens.tidy (h : q.Opens i relays q')
    (hF : q.SameFiling q') (ho : ∃ rc, q.intents[i]? = some rc) (hT : q.Tidy) : q'.Tidy := by
  refine tidy_of_filing hT hF fun o r ln hL hS => ?_
  rcases h.lanes o r with hs | ⟨rfl, -⟩
  · exact hT.lanes o r ln (hs.symm.trans hL) hS
  · exact ho

variable [ProgramDigest]

/-- The call resolves no operation, compensates no intent with a lane under way, resets no lane of a closed intent and
gives a successor no lane over another one. -/
def Call.ClosesCleanly (w : SemanticStore) : Call → Prop
  | .door (.accept _ _ acceptedAt edit) => ∀ plan,
      planAccept w.resources[coordinateKeyOf edit.coordinate]? w.highWater[coordinateKeyOf edit.coordinate]?
        w.store.queue.nextIntentId acceptedAt edit = .ok plan → ResolvesNone plan ∧ OpensVacant plan w.store.queue
  | .door (.installSource install) => ∀ previous plan,
      w.resources[coordinateKeyOf install.successor.coordinate]? = some previous →
      planSourceInstall previous install = .ok plan → ResolvesNone plan ∧ OpensVacant plan w.store.queue
  | .door (.compensateWrite intentId _ _) => ∀ (relay : QueueRelayId) (lane : Lane),
      w.store.queue.lanes[(intentId, relay)]? = some lane → lane.state.isTerminal = true
  | .lane inner => ∀ owner, Queue.Resets owner inner → ∃ record, w.store.queue.intents[owner]? = some record
  | _ => True

variable {w w' : SemanticStore}

theorem LaneEffect.tidy (h : Queue.LaneEffect w.store.queue q' door)
    (hC : (Call.lane door).ClosesCleanly w) (hT : w.store.queue.Tidy) (hm : w.store.queue.Mirrors) :
    q'.Tidy ∧ q'.Mirrors := by
  cases h with
  | lapsed hL hK => exact ⟨hK hT, hL.mirrors hm⟩
  | moved hM _ _ hF hA =>
    refine ⟨Moves.tidy hM hF (fun hS => ?_) hT, hM.mirrors hm⟩
    rcases hA hS with hO | ho | hR
    · exact hT.lanes _ _ _ hM.old hO
    · exact ho
    · exact hC _ hR
  | started hM _ _ hF ho => exact ⟨Moves.tidy hM hF (fun _ => ho) hT, hM.mirrors hm⟩
  | opened hn hF ho => exact ⟨Opens.tidy hn hF ho hT, hn.mirrors hm⟩

variable [ShardHash]

theorem Door.Runs.tidy (hu : door.Runs w w') (h : Settled bs w) (hD : door.Authentic bs)
    (hC : (Call.door door).ClosesCleanly w) (hT : w.store.queue.Tidy) (hM : w.store.queue.Mirrors) :
    w'.store.queue.Tidy ∧ w'.store.queue.Mirrors := by
  have ho := h.sound.events
  have hL : Store.Step bs w.store w'.store → w'.store.queue.Mirrors := fun hS => (hS.lapses h.sound).mirrors hM
  cases hu with
  | insert hR =>
    exact ⟨Store.insert_relates (R := fun q q' => q.Tidy → q'.Tidy) (·.tidy) h.sound hD hR hT, hL (.insert hD hR)⟩
  | insertBatch hR =>
    exact ⟨Store.insertBatch_relates (R := fun q q' => q.Tidy → q'.Tidy) (fun _ => id) (fun fr last => last ∘ fr) (·.tidy)
      h.sound hD hR hT, hL (.insertBatch hD hR)⟩
  | acceptWrite hR =>
    exact ⟨Store.acceptWrite_relates (R := fun q q' => q.Tidy → q'.Tidy) (fun _ => id) (·.tidy) h.sound hD hR hT,
      hL (.acceptWrite hD hR)⟩
  | promoteSigned hR => exact ⟨(h.sound.promoteSigned_ok hR).tidy hT, hL (.promoteSigned hR)⟩
  | compensateWrite hR =>
    exact ⟨(Store.compensateWrite_ok ho hR).tidy hC hT, hL (.compensateWrite hR)⟩
  | remove hR => exact (Store.remove_thinned ho hR).queue ▸ ⟨hT, hM⟩
  | expireDue hR => exact (Store.expireDue_thinned ho hR).queue ▸ ⟨hT, hM⟩
  | gc hR => exact (Store.gc_thinned ho hR).queue ▸ ⟨hT, hM⟩
  | accept hR =>
    rcases SemanticStore.accept_cases ho hR with rfl | ⟨⟨ac⟩⟩
    · exact ⟨hT, hM⟩
    obtain ⟨hr, hV⟩ := hC _ ac.hPlan
    have hd : w.allocated.store.queue.TidyBelow w.store.queue.nextIntentId := ⟨hT.drawn, hT.receipts, hT.lanes⟩
    exact ac.applies.tidy ac.planned ⟨⟨rfl, rfl⟩, rfl, rfl⟩ hr (hV.of_delivery rfl rfl) hd
      (hM.of_same rfl rfl)
  | installSource hR =>
    rcases SemanticStore.installSource_cases ho hR with rfl | ⟨⟨is⟩⟩
    · exact ⟨hT, hM⟩
    · obtain ⟨hr, hV⟩ := hC _ _ is.hPrevious is.hPlan
      exact is.applies.tidy is.planned ⟨rfl, rfl⟩ hr hV hT hM
  | promote hR =>
    rcases SemanticStore.promote_cases hR with ⟨-, rfl⟩ | ⟨⟨pr⟩⟩
    · exact ⟨hT, hM⟩
    rename_i co r dg mt ed vr o
    have hs := sameDelivery_foldl (signMember_delivery co) pr.members w.store.queue
    rw [commit_queue (commit_store pr.hCommit)]
    exact ⟨(signMembers_retains (waitingMembers_loaded pr.hMembers)).tidy hT, hs.lapses.mirrors hM⟩
  | closeCohort hR =>
    rcases SemanticStore.closeCohort_cases hR with rfl | ⟨⟨sh⟩⟩
    · exact ⟨hT, hM⟩
    · exact ⟨sh.tidy hT, sh.lapses.mirrors hM⟩

abbrev CleanRun (bodies : Bodies) : SemanticStore → SemanticStore → Prop :=
  Serves fun w call => call.Authentic bodies ∧ call.ClosesCleanly w

theorem Serves.tidy (hR : CleanRun bs {} w) : Settled bs w ∧ w.store.queue.Tidy ∧ w.store.queue.Mirrors := by
  induction hR with
  | refl => exact ⟨settled_empty, Queue.tidy_empty, Queue.mirrors_empty⟩
  | step _ hC hr ih =>
    obtain ⟨hT, hTidy, hM⟩ := ih
    cases hr with
    | door hr =>
      have hD := hC.1
      exact ⟨(hr.settled hT hD).1, hr.tidy hT hD hC.2 hTidy hM⟩
    | lane ho =>
      obtain ⟨hE, ht⟩ := LaneDoor.run_effect ho
      exact ⟨settled_thins hT ht, LaneEffect.tidy hE hC.2 hTidy hM⟩

/-- As long as every call closes cleanly, an intent that is no longer open has a terminal receipt, no deadline and no
lane under way. -/
theorem closed_work_terminal (hRun : CleanRun bodies {} w) :
    (∀ (id : Nat) (receipt : ReceiptRecord) (owner : IntentId), w.store.queue.receipts[id]? = some receipt →
      receipt.intentId = some owner → w.store.queue.intents[owner]? = none → receipt.terminal.isSome = true) ∧
    (∀ (owner : IntentId), w.store.queue.intents[owner]? = none → ∀ (instant : Nat) (relay : QueueRelayId),
      w.store.queue.deadlines[(instant, owner, relay)]? = none) ∧
    ∀ (owner : IntentId), w.store.queue.intents[owner]? = none → ∀ (relay : QueueRelayId) (lane : Lane),
      w.store.queue.lanes[(owner, relay)]? = some lane → lane.state.isTerminal = true := by
  obtain ⟨-, ht, hM⟩ := hRun.tidy
  have hL : ∀ (owner : IntentId), w.store.queue.intents[owner]? = none → ∀ (relay : QueueRelayId) (lane : Lane),
      w.store.queue.lanes[(owner, relay)]? = some lane → lane.state.isTerminal = true := by
    intro owner hC relay lane hl
    by_contra hS
    obtain ⟨rcr, hR⟩ := ht.lanes owner relay lane hl (by simpa using hS)
    cases hC.symm.trans hR
  refine ⟨fun id receipt owner hA ho hC => ?_, fun owner hC instant relay => ?_, hL⟩
  · rcases ht.receipts id receipt owner hA ho with hT | ⟨rcr, hR, -⟩
    · exact hT
    · cases hC.symm.trans hR
  rw [hM instant owner relay]
  cases hl : w.store.queue.lanes[(owner, relay)]? with
  | none => rfl
  | some lane =>
    refine Lane.deadlineAt_eq_none fun knd hD => ?_
    cases (Queue.deadline_of_terminal (hL owner hC relay lane hl)).symm.trans hD

def resolvingSource : SemanticSourceInstall where
  source := ⟨{ listEvent 20 500 with sig := 77 }, ⟨(∅ : Table RelayUrl Nat).insert "wss://relay" 500, none⟩⟩
  successor :=
    { coordinate := relayList
      expectedSourceRevision := .initial ⟨1, 1, .unresolved⟩
      expectedProgramDigest := 1
      expectedCurrentMaterialization := some 1
      source := ⟨1, 1, .event 20 500⟩
      evaluatedAt := 500
      materialized := none
      contributingOperations := []
      resolvedOperations := [⟨1, .resolved⟩] }

def resolvedWhileWaiting : List Call :=
  [.door (.accept 2 "" 100 (defaultEdit (listEvent 9 100))), .lane (.recordRouteRevision 1 (.ofList [7])),
    .lane (.bootstrapLanes 1), .lane (.setLaneTransient ⟨1, 9, 7⟩ 1 0 600 .connectionLost none),
    .door (.installSource resolvingSource)]

section
omit [ProgramDigest] [ShardHash]

/-- The operation is closed; its receipt is not terminal, and its lane and its deadline are still there. -/
theorem resolved_operation_left_open : ∃ (w : SemanticStore) (receipt : ReceiptRecord) (lane : Lane),
      @Serves lengthDigest oneShard (fun _ call => call.Authentic listBodies) {} w ∧
      w.store.queue.intents[1]? = none ∧
      (w.store.queue.receipts[1]? = some receipt ∧ receipt.intentId = some 1 ∧ receipt.terminal = none) ∧
      (w.store.queue.lanes[(1, 7)]? = some lane ∧ lane.state.isTerminal = false) ∧
      w.store.queue.deadlines[(600, 1, 7)]? = some (2, DeadlineKind.retryEligible) := by
  let _ := lengthDigest
  let _ := oneShard
  have hr : ((resolvedWhileWaiting.foldlM Call.run {}).any fun w =>
      w.store.queue.intents[1]?.isNone &&
      (w.store.queue.receipts[1]?.any fun receipt => receipt.intentId = some 1 && receipt.terminal.isNone) &&
      (w.store.queue.lanes[(1, 7)]?.any fun lane => !lane.state.isTerminal) &&
      w.store.queue.deadlines[(600, 1, 7)]? = some (2, DeadlineKind.retryEligible)) = true := by
    decide +kernel
  simp only [any_eq_true, and_eq_true, decide_eq_true_eq, isNone_iff_eq_none, not_eq_true'] at hr
  obtain ⟨w, ha, ⟨⟨hC, receipt, hR, hI, hP⟩, lane, hL, hS⟩, hD⟩ := hr
  refine ⟨w, receipt, lane, .calls .refl (fun call hc state => ?_) ha, hC, ⟨hR, hI, hP⟩,
    ⟨hL, hS⟩, hD⟩
  simp only [resolvedWhileWaiting, mem_cons, not_mem_nil, or_false] at hc
  rcases hc with rfl | rfl | rfl | rfl | rfl
  · rintro _ ⟨rfl⟩ _
    rfl
  · exact trivial
  · exact trivial
  · exact trivial
  · rintro _ ⟨⟩

def acknowledged : List Call :=
  routedDraft ++ .lane (.bootstrapLanes 1) :: handedOff ++
    [.lane (.finishLaneAttempt ⟨1, 9, 7⟩ 4 1 .acked 140), .lane (.closeIntent 1 .allTerminal 150)]

/-- The receipt of a draft that a relay has acknowledged is terminal. -/
theorem closed_work_terminal_acknowledged :
    ∃ (w : SemanticStore) (receipt : ReceiptRecord), w.store.queue.intents[1]? = none ∧
      w.store.queue.receipts[1]? = some receipt ∧ receipt.terminal.isSome = true := by
  let _ := lengthDigest
  let _ := oneShard
  have hu : ((acknowledged.foldlM Call.run {}).any fun w => w.store.queue.intents[1]?.isNone &&
      w.store.queue.receipts[1]?.any fun receipt => receipt.intentId = some 1) = true := by
    decide +kernel
  simp only [any_eq_true, and_eq_true, decide_eq_true_eq, isNone_iff_eq_none] at hu
  obtain ⟨w, ha, hC, receipt, hR, hI⟩ := hu
  have hW : CleanRun listBodies {} w := by
    refine .calls .refl (fun cll hc stt => ?_) ha
    simp only [acknowledged, routedDraft, handedOff, List.cons_append, nil_append, mem_cons, not_mem_nil,
      or_false] at hc
    rcases hc with rfl | rfl | rfl | rfl | rfl | rfl | rfl | rfl | rfl
    · exact ⟨rfl, trivial⟩
    · exact ⟨trivial, trivial⟩
    all_goals exact ⟨trivial, fun _ hr => hr.elim⟩
  exact ⟨w, receipt, hC, hR, (closed_work_terminal hW).1 1 receipt 1 hR hI hC⟩

end

end NmpStore.Semantic

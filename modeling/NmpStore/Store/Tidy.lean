import NmpStore.Store.Lanes
import NmpStore.Store.Edits

/-! # Closed work is terminal

The receipt of an intent that is no longer open is terminal, and so is what is left of its lanes.
-/

namespace NmpStore

namespace Queue

variable {q q' q'' : Queue} {i : Nat} {closed : IntentId → Prop}

/-- Every receipt of an intent is terminal or belongs to it while it is open, and lanes under way belong to open
intents. -/
structure TidyBelow (i : Nat) (q : Queue) : Prop where
  drawn : ∀ (owner : IntentId) record, q.intents[owner]? = some record → owner < i
  receipts : ∀ (id : Nat) (receipt : ReceiptRecord) (owner : IntentId), q.receipts[id]? = some receipt →
    receipt.intentId = some owner → receipt.terminal.isSome = true ∨
      ∃ record, q.intents[owner]? = some record ∧ record.receiptId = id
  lanes : ∀ (owner : IntentId) (relay : QueueRelayId) (lane : Lane), q.lanes[(owner, relay)]? = some lane →
    lane.state.isTerminal = false → ∃ record, q.intents[owner]? = some record

def Tidy (q : Queue) : Prop := q.TidyBelow q.nextIntentId

theorem tidy_empty : Tidy {} := ⟨by simp, by simp, by simp⟩

/-- A change that closes the intents in `closed`, with their receipts and lanes, and leaves the others as they were
filed. -/
structure Retains (closed : IntentId → Prop) (q q' : Queue) : Prop where
  counter : q'.nextIntentId = q.nextIntentId
  stays : ∀ owner : IntentId, ¬ closed owner →
    (q'.intents[owner]?).map IntentRecord.receiptId = (q.intents[owner]?).map IntentRecord.receiptId
  fewer : ∀ (owner : IntentId) record, q'.intents[owner]? = some record →
    ∃ before, q.intents[owner]? = some before
  receipts : ∀ (id : Nat) after, q'.receipts[id]? = some after → after.terminal.isSome = true ∨
    ∃ before, q.receipts[id]? = some before ∧ after.intentId = before.intentId ∧ before.terminal.isSome = false
  ends : ∀ (owner : IntentId) (record : IntentRecord) (after : ReceiptRecord), closed owner → q.intents[owner]? = some record →
    q'.receipts[record.receiptId]? = some after → after.terminal.isSome = true
  lanes : ∀ (owner : IntentId) (relay : QueueRelayId) (lane : Lane), q'.lanes[(owner, relay)]? = some lane →
    lane.state.isTerminal = false → ¬ closed owner ∧ ∃ old, q.lanes[(owner, relay)]? = some old ∧ old.state.isTerminal = false

abbrev RetainsAll (q q' : Queue) : Prop := Retains (fun _ => False) q q'

theorem Retains.still (h : Retains closed q q') (ho : ¬ closed owner) (hA : q.intents[owner]? = some record) :
    ∃ af, q'.intents[owner]? = some af ∧ af.receiptId = record.receiptId := by
  have hS := h.stays owner ho
  rw [hA, map_some, map_eq_some_iff] at hS
  exact hS

theorem Retains.tidyBelow (h : Retains closed q q') (hT : q.TidyBelow i) : q'.TidyBelow i where
  drawn o rc hA := by
    obtain ⟨b, hB⟩ := h.fewer o rc hA
    exact hT.drawn o b hB
  receipts id af o hA ho := by
    rcases h.receipts id af hA with ht | ⟨b, hB, hs, hP⟩
    · exact .inl ht
    rcases hT.receipts id b o hB (hs.symm.trans ho) with ht | ⟨rc, hR, rfl⟩
    · cases ht.symm.trans hP
    by_cases hC : closed o
    · exact .inl (h.ends o rc af hC hR hA)
    · exact .inr (h.still hC hR)
  lanes o r ln hL hS := by
    obtain ⟨hp, old, hO, hU⟩ := h.lanes o r ln hL hS
    obtain ⟨rc, hR⟩ := hT.lanes o r old hO hU
    obtain ⟨af, ha, -⟩ := h.still hp hR
    exact ⟨af, ha⟩

theorem Retains.tidy (h : Retains closed q q') (hT : q.Tidy) : q'.Tidy := by
  unfold Tidy
  rw [h.counter]
  exact h.tidyBelow hT

theorem retainsAll_of_same (hC : q'.nextIntentId = q.nextIntentId) (hI : q'.intents = q.intents)
    (hR : q'.receipts = q.receipts) (hL : q'.lanes = q.lanes) : RetainsAll q q' where
  counter := hC
  stays o _ := by rw [hI]
  fewer o rec hAt := ⟨rec, hI ▸ hAt⟩
  receipts id af hAt := by
    rw [hR] at hAt
    by_cases hT : af.terminal.isSome = true
    · exact .inl hT
    · exact .inr ⟨af, hAt, rfl, by simpa using hT⟩
  ends _ _ _ hF := hF.elim
  lanes o r lane hl hS := ⟨fun hF => hF, lane, hL ▸ hl, hS⟩

theorem RetainsAll.refl (q : Queue) : RetainsAll q q := retainsAll_of_same rfl rfl rfl rfl

theorem Retains.after (h : Retains closed q q') (h' : RetainsAll q' q'') : Retains closed q q'' where
  counter := h'.counter.trans h.counter
  stays o ho := (h'.stays o fun hF => hF).trans (h.stays o ho)
  fewer o rec hA := by
    obtain ⟨mid, hD⟩ := h'.fewer o rec hA
    exact h.fewer o mid hD
  receipts id af hA := by
    rcases h'.receipts id af hA with hT | ⟨mid, hD, hSm, hP⟩
    · exact .inl hT
    rcases h.receipts id mid hD with hT | ⟨b, hB, hSm', hP'⟩
    · cases hT.symm.trans hP
    · exact .inr ⟨b, hB, hSm.trans hSm', hP'⟩
  ends o rec af hC hR hA := by
    rcases h'.receipts _ af hA with hT | ⟨mid, hD, -, hP⟩
    · exact hT
    · cases (h.ends o rec mid hC hR hD).symm.trans hP
  lanes o r ln hL hS := by
    obtain ⟨-, mid, hD, hM⟩ := h'.lanes o r ln hL hS
    exact h.lanes o r mid hD hM

theorem TidyBelow.file (h : q.TidyBelow i)
    (hI : q'.intents = q.intents.insert i record) (hR : q'.receipts = q.receipts.insert record.receiptId rcpt)
    (hi : rcpt.intentId = some i) (hl : q'.lanes = q.lanes) : q'.TidyBelow (i + 1) := by
  have hO : ∀ (ow : IntentId) bf, q.intents[ow]? = some bf →
      q'.intents[ow]? = some bf := fun ow bf hA => by
    rw [hI, get_insert, if_neg (h.drawn ow bf hA).ne']
    exact hA
  refine ⟨fun ow fd hA => ?_, fun id fd ow hA ho => ?_, fun ow r ln hL hS => ?_⟩
  · rw [hI, get_insert] at hA
    split_ifs at hA with hN
    · exact hN ▸ Nat.lt_add_one _
    · exact (h.drawn ow fd hA).trans (Nat.lt_add_one _)
  · rw [hR, get_insert] at hA
    split_ifs at hA with hN
    · cases hA
      cases hi.symm.trans ho
      exact .inr ⟨record, by rw [hI, get_insert, if_pos rfl], hN⟩
    · refine (h.receipts id fd ow hA ho).imp_right fun ⟨bf, hB, hd⟩ => ?_
      exact ⟨bf, hO ow bf hB, hd⟩
  · rw [hl] at hL
    obtain ⟨bf, hB⟩ := h.lanes ow r ln hL hS
    exact ⟨bf, hO ow bf hB⟩

theorem TidyBelow.thin (h : q.TidyBelow i) (hI : q'.intents = q.intents)
    (hR : ∀ (id : Nat) rcpt, q'.receipts[id]? = some rcpt → q.receipts[id]? = some rcpt)
    (hL : ∀ (o : IntentId) (r : QueueRelayId) (ln : Lane), q'.lanes[(o, r)]? = some ln →
      q.lanes[(o, r)]? = some ln) : q'.TidyBelow i where
  drawn o rec hA := h.drawn o rec (hI ▸ hA)
  receipts id rcpt o hA ho := hI ▸ h.receipts id rcpt o (hR id rcpt hA) ho
  lanes o r ln hl hS := hI ▸ h.lanes o r ln (hL o r ln hl) hS

theorem TidyBelow.mono (h : q.TidyBelow i) (hL : i ≤ j) : q.TidyBelow j :=
  ⟨fun o r hA => (h.drawn o r hA).trans_le hL, h.receipts, h.lanes⟩

theorem ClaimsOnly.retains (h : q.ClaimsOnly q') : RetainsAll q q' := by
  obtain ⟨_, _, _, rfl⟩ := h
  exact retainsAll_of_same rfl rfl rfl rfl

theorem FansOut.retains (h : q.FansOut canon owns q') : RetainsAll q q' where
  counter := h.delivery.1.1
  stays o _ := by
    rw [h.intents]
    split_ifs
    · rw [Option.map_map]
      congr 1
      funext rec
      exact (rec.signWith_coordinate canon).2
    · rfl
  fewer o rec hA := by
    rw [h.intents] at hA
    split_ifs at hA
    · obtain ⟨b, hB, -⟩ := map_eq_some_iff.mp hA
      exact ⟨b, hB⟩
    · exact ⟨rec, hA⟩
  receipts id af hA := by
    have hf := h.files id
    rw [hA, map_some, eq_comm, map_eq_some_iff] at hf
    obtain ⟨b, hB, hS⟩ := hf
    obtain ⟨hI, -, hT⟩ := (by simpa [ReceiptRecord.file] using hS :
      b.intentId = af.intentId ∧ b.payload.coordinate = af.payload.coordinate ∧ b.terminal = af.terminal)
    by_cases hD : af.terminal.isSome = true
    · exact .inl hD
    · exact .inr ⟨b, hB, hI.symm, by rw [hT]; simpa using hD⟩
  ends _ _ _ hF := hF.elim
  lanes o r lane hL hs := ⟨fun hF => hF, lane, h.delivery.2.1 ▸ hL, hs⟩

theorem Retires.retains (hR : ret = q.eligible owns)
    (h : q.Retires ret q') : Retains (fun o => o ∈ ret.map RetiredIntent.intentId) q q' where
  counter := h.counters.1
  stays o ho := by rw [h.intents, if_neg ho]
  fewer o rec hAt := by
    rw [h.intents] at hAt
    split_ifs at hAt
    exact ⟨rec, hAt⟩
  receipts id af hAt := by
    by_cases hO : id ∈ ret.map RetiredIntent.receiptId
    · obtain ⟨on, hE, rfl⟩ := mem_map.mp hO
      exact .inl (h.terminal on hE af hAt)
    rw [h.receipts id hO] at hAt
    by_cases hT : af.terminal.isSome = true
    · exact .inl hT
    · exact .inr ⟨af, hAt, rfl, by simpa using hT⟩
  ends o rec af hC hr hAt := by
    obtain ⟨on, hO, rfl⟩ := mem_map.mp hC
    obtain ⟨-, found, hF, hI⟩ := eligible_mem (hR ▸ hO)
    cases hr.symm.trans hF
    exact h.terminal on hO af (hI ▸ hAt)
  lanes o r lane hL hS := by
    refine ⟨fun hC => ?_, lane, ?_, hS⟩
    · obtain ⟨on, hO, rfl⟩ := mem_map.mp hC
      cases (h.gone on hO r).symm.trans hL
    rcases h.lapses.lanes o r with hs | hG
    · exact hs.symm.trans hL
    · cases hG.symm.trans hL

theorem markTerminalReceipt_receipts (ho : q.markTerminalReceipt rcId now = .ok q') :
    (∀ o : Nat, o ≠ rcId → q'.receipts[o]? = q.receipts[o]?) ∧
      ∀ af, q'.receipts[rcId]? = some af → af.terminal.isSome = true := by
  unfold markTerminalReceipt at ho
  split at ho
  · cases ho
  next r hR =>
  split_ifs at ho with hT
  · cases ho
    refine ⟨fun _ _ => rfl, fun af hA => ?_⟩
    cases hR.symm.trans hA
    exact hT
  simp only [run_ok] at ho
  obtain ⟨-, -, rfl⟩ := ho
  refine ⟨fun o hX => by simp [Ne.symm hX], fun af hA => ?_⟩
  simp only [get_insert, if_true, Option.some.injEq] at hA
  subst hA
  rfl

theorem retains_closing (hc : q'.nextIntentId = q.nextIntentId)
    (hI : q'.intents = q.intents.erase i)
    (hR : ∀ rc, q.intents[i]? = some rc → rc.receiptId = rcId)
    (ho : ∀ o : Nat, o ≠ rcId → q'.receipts[o]? = q.receipts[o]?)
    (hT : ∀ af, q'.receipts[rcId]? = some af → af.terminal.isSome = true)
    (hL : q'.lanes = q.lanes)
    (hi : ∀ (r : QueueRelayId) (lane : Lane), q.lanes[(i, r)]? = some lane → lane.state.isTerminal = true) :
    Retains (· = i) q q' where
  counter := hc
  stays own hp := by rw [hI, get_erase, if_neg (Ne.symm hp)]
  fewer own rc hAt := by
    rw [hI, get_erase] at hAt
    split_ifs at hAt
    exact ⟨rc, hAt⟩
  receipts id af hAt := by
    by_cases hS : id = rcId
    · exact .inl (hT af (hS ▸ hAt))
    rw [ho id hS] at hAt
    by_cases hD : af.terminal.isSome = true
    · exact .inl hD
    · exact .inr ⟨af, hAt, rfl, by simpa using hD⟩
  ends own rc af hC hr hAt := by
    subst hC
    rw [hR rc hr] at hAt
    exact hT af hAt
  lanes own r lane hl hs := by
    rw [hL] at hl
    refine ⟨fun hC => ?_, lane, hl, hs⟩
    subst hC
    cases (hi r lane hl).symm.trans hs

end Queue

namespace Store

open Queue (Retains RetainsAll retainsAll_of_same)

variable [ShardHash] {s s' : Store}

theorem Ingests.tidy (hI : s.Ingests ev src o s') (h : s.queue.Tidy) : s'.queue.Tidy := by
  cases hI with
  | adopted _ _ _ _ _ hF hD => exact hD.queue ▸ hF.retains.tidy h
  | deleting _ _ _ _ _ _ hD => exact hD.queue ▸ h
  | expired | merged | refused | placed => exact h

theorem Promotes.tidy (hP : s.Promotes i ver o s') (h : s.queue.Tidy) : s'.queue.Tidy := by
  cases hP with
  | notFound => exact h
  | promoted hI hE hU hi hS hF hD hC =>
    rw [hC.queue, hD.queue]
    refine hF.retains.tidy ?_
    cases hS with
    | row | signedRow | gone => exact h
    | stash => exact ⟨h.drawn, h.receipts, h.lanes⟩

theorem Accepts.tidy (hA : s.Accepts a o s')
    (h : s.queue.Tidy) : s'.queue.Tidy := by
  have hd : s.queue.allocated.TidyBelow s.queue.nextIntentId := ⟨h.drawn, h.receipts, h.lanes⟩
  have hF : ∀ (q : Queue) (ds : Option StoredEvent), q.nextIntentId = s.queue.nextIntentId + 1 →
      q.TidyBelow s.queue.nextIntentId → (fileDraft q s a ds).Tidy := by
    intro q ds hC hD
    show Queue.TidyBelow q.nextIntentId _
    rw [hC]
    exact hD.file rfl rfl rfl rfl
  have hS : ∀ q : Queue, q.nextIntentId = s.queue.nextIntentId + 1 → q.TidyBelow s.queue.nextIntentId →
      (q.staked s.queue.nextIntentId a.frozen).nextIntentId = s.queue.nextIntentId + 1 ∧
        (q.staked s.queue.nextIntentId a.frozen).TidyBelow s.queue.nextIntentId := fun q hC hD =>
    have hR := (q.staked_frame s.queue.nextIntentId a.frozen).retains
    ⟨hR.counter.trans hC, hR.tidyBelow hD⟩
  have hJ : ∀ (q : Queue) (ol : StoredEvent), q.nextIntentId = s.queue.nextIntentId + 1 →
      q.TidyBelow s.queue.nextIntentId →
      (joinedQueue q a ol s.queue.nextIntentId s.queue.nextReceiptId).Tidy := by
    intro q ol hC hD
    unfold Queue.Tidy
    rw [(joinedQueue_counters ..).1, hC]
    unfold joinedQueue
    split_ifs
    · exact hD.file rfl rfl rfl rfl
    · exact (hS q hC hD).2.file rfl rfl rfl rfl
    · exact hD.file rfl rfl rfl rfl
  cases hA with
  | joinedRow => exact hJ _ _ rfl hd
  | joinedStash => exact hJ _ _ rfl ⟨hd.drawn, hd.receipts, hd.lanes⟩
  | refused => exact h
  | stale => exact hF _ _ rfl hd
  | stored =>
    refine hF _ _ ?_ ?_
    · split_ifs
      · exact (hS _ rfl hd).1
      · rfl
    · split_ifs
      · exact (hS _ rfl hd).2
      · exact hd
  | superseded _ _ _ _ hr hs =>
    have hR := hs.retains hr
    exact hF _ _ hR.counter (hR.tidyBelow hd)

theorem Compensates.tidy (hC : s.Compensates i o s')
    (hI : ∀ (rl : QueueRelayId) (ln : Lane), s.queue.lanes[(i, rl)]? = some ln →
      ln.state.isTerminal = true) (h : s.queue.Tidy) : s'.queue.Tidy := by
  cases hC with
  | notFound => exact h
  | alreadySigned => exact h
  | compensated hi he hu hd hr hc hR =>
    rename_i r fr sg m af rs rv receipts sq tm
    have hD : m.queue = { s.queue with displaced := m.queue.displaced } := by
      cases hd <;> rfl
    have ha : RetainsAll (m.closed i).queue af.queue := by
      cases hr with
      | nothing => exact .refl _
      | offered _ hn =>
        cases hn with
        | joined | refused | placed | stale => exact .refl _
        | joinedSigned _ _ _ _ _ hF hl => exact hl.queue ▸ hF.retains
    -- the receipt of the closed intent is the one that ends terminal
    have hL : Retains (· = i) s.queue { af.queue with receipts } := by
      obtain ⟨b, last, hB, hLa, -, -, hT⟩ := hR.terminal
      have hs : (m.closed i).queue = { s.queue with
          intents := s.queue.intents.erase i, displaced := m.queue.displaced.erase i } := by
        show { m.queue with intents := m.queue.intents.erase i, displaced := m.queue.displaced.erase i } = _
        rw [hD]
      rw [hs] at ha
      refine ⟨ha.counter, fun ow hp => ?_, fun ow fd hA => ?_, fun id fd hA => ?_,
        fun ow fd last ho hf hA => ?_, fun ow rl ln hN ht => ?_⟩
      · refine (ha.stays ow fun h1 => h1).trans ?_
        rw [get_erase, if_neg (Ne.symm hp)]
      · obtain ⟨old, hO⟩ := ha.fewer ow fd hA
        exact ⟨old, of_erase hO⟩
      · have hA : receipts[id]? = some fd := hA
        by_cases hS : id = r.receiptId
        · subst hS
          cases hLa.symm.trans hA
          exact .inl hT
        · exact ha.receipts id fd ((hR.others id hS).symm.trans hA)
      · subst ho
        cases hi.symm.trans hf
        cases hLa.symm.trans hA
        exact hT
      · obtain ⟨-, old, hO, hU⟩ := ha.lanes ow rl ln hN ht
        refine ⟨fun ho => ?_, old, hO, hU⟩
        subst ho
        cases (hI rl old hO).symm.trans hU
    have hLa : RetainsAll { af.queue with receipts }
        { af.queue.dropClaims i with receipts, nextTerminalSequence := sq, lastTerminalAt := tm } := by
      obtain ⟨cl, ids, addrs, hE⟩ := af.queue.dropClaims_frame i
      rw [hE]
      exact retainsAll_of_same rfl rfl rfl rfl
    rw [hc.queue]
    exact (hL.after hLa).tidy h

end Store

end NmpStore

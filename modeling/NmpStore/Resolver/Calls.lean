import NmpStore.Postings.Flush
import NmpStore.Resolver.Demand

/-! # Calls and their consumer

A run is a list of calls on a resolver that starts empty. Every call may read a store of its own, and any of its reads
may fail.
-/

namespace NmpStore.Resolver

namespace Engine

def Settles (e e' : Engine) (delta : DemandDelta) : Prop :=
  ∃ closes opens : List ContextualAtom, delta = closes.map .close ++ opens.map .open ∧ Moves e e' closes opens

variable {e e' : Engine}

theorem Settles.of_withdraws (h : e.Sound) (hG : Withdraws e e' delta) : Settles e e' delta := by
  obtain ⟨l, rfl, hM⟩ := hG.then h (.of_same (hG.sound h).counted rfl rfl rfl)
  exact ⟨l ++ [], [], by simp, hM⟩

theorem Settles.after (h : e.Sound) (hG : Withdraws e m dropped)
    (hT : Settles m e' delta) : Settles e e' (dropped ++ delta) := by
  obtain ⟨closes, opens, rfl, hM⟩ := hT
  obtain ⟨l, rfl, hM⟩ := hG.then h hM
  exact ⟨l ++ closes, opens, by simp, hM⟩

section

variable [EventText]

variable {e : Engine}

theorem runRecompute_settles (h : e.Sound)
    (hR : runRecompute e₁ reader pend = (e', res))
    (hG : e₁.graph = e.graph) (hA : e₁.atoms = e.atoms) (ho : e₁.metrics.atomsOpened = e.metrics.atomsOpened)
    (hC : e₁.metrics.atomsClosed = e.metrics.atomsClosed) (hr : ∀ r, e₁.registered r ↔ e.registered r) :
    e'.Sound ∧ ∀ dl, res = .ok dl → Settles e e' dl := by
  have hS : e₁.Sound := h.congr (by rw [hG]) (by rw [hG]) (by rw [hG]) hA hr
  obtain ⟨⟨done, acc, hP, -⟩, ha⟩ := runRecompute_passes hS hR
  refine ⟨hP.sound hS, fun dl hk => ?_⟩
  obtain ⟨done, acc, rfl, hP⟩ := ha dl hk
  exact ⟨_, _, rfl, hP.moves.congr hG hA ho hC⟩

/-- What every call does: it keeps the counts and the trees, also when it fails, and settles the demand when it does not. -/
def Keeps (e : Engine) (out : Engine × Result DemandDelta) : Prop :=
  out.1.Sound ∧ ∀ delta, out.2 = .ok delta → Settles e out.1 delta

omit [EventText] in
theorem Keeps.after (h : e.Sound) (hG : Withdraws e m dropped)
    (hT : Keeps m o) : Keeps e (o.1, o.2.map (dropped ++ ·)) := by
  refine ⟨hT.1, fun dl ho => ?_⟩
  cases hU : o.2 with
  | error er =>
    rw [hU] at ho
    cases ho
  | ok rs =>
    rw [hU] at ho
    cases ho
    exact .after h hG (hT.2 rs hU)

theorem setActivePubkey_keeps (h : e.Sound) (rd : StoreReader) (k : Option PublicKey) :
    Keeps e (e.setActivePubkey rd k) := by
  have hG := drainPendingDrops_withdraws h
  have hD := hG.sound h
  unfold setActivePubkey
  generalize drainPendingDrops e = drained at hG hD ⊢
  obtain ⟨m, dr⟩ := drained
  dsimp only at hG hD ⊢
  split
  · refine ⟨hD.congr rfl rfl (le_rfl) rfl fun _ => .rfl, fun dl ho => ?_⟩
    cases ho
    have hN : Settles m { m with identity := k } [] :=
      ⟨[], [], rfl, .of_same hD.counted rfl rfl rfl⟩
    simpa using hN.after h hG
  · generalize hR : runRecompute _ _ _ = r
    obtain ⟨e', rs⟩ := r
    exact .after h hG (runRecompute_settles hD hR rfl rfl rfl rfl fun _ => .rfl)

theorem react_keeps (h : e.Sound) (rd : StoreReader) (is rm : List Event) :
    Keeps e (e.react rd is rm) := by
  have hG := drainPendingDrops_withdraws h
  have hD := hG.sound h
  unfold react
  generalize drainPendingDrops e = drained at hG hD ⊢
  obtain ⟨m, dr⟩ := drained
  dsimp only at hG hD ⊢
  split
  · refine ⟨hD, fun dl ho => ?_⟩
    cases ho
    exact .of_withdraws h hG
  · generalize hR : runRecompute _ _ _ = r
    obtain ⟨e', rs⟩ := r
    exact .after h hG (runRecompute_settles hD hR rfl rfl rfl rfl fun _ => .rfl)

theorem subscribe_keeps (h : e.Sound) (rd : StoreReader) (br : Demand) :
    Keeps e ((e.subscribe rd br).1, .ok (e.subscribe rd br).2.delta) := by
  have hG := drainPendingDrops_withdraws h
  have hD := hG.sound h
  unfold subscribe
  generalize drainPendingDrops e = drained at hG hD ⊢
  obtain ⟨m, dr⟩ := drained
  dsimp only at hG hD ⊢
  generalize ho : openBranch m rd br = opened
  obtain ⟨e', o⟩ := opened
  obtain ⟨hS, opens, hd, hM⟩ := openBranch_moves hD ho
  refine ⟨hS, fun dl hk => ?_⟩
  have hA : (o.after dr).delta = dr ++ o.delta := by cases o <;> rfl
  cases hk
  rw [hA]
  exact .after h hG ⟨[], opens, hd, hM⟩

omit [EventText] in
theorem unsubscribe_keeps (h : e.Sound) (id : HandleId) : Keeps e ((e.unsubscribe id).1, .ok (e.unsubscribe id).2) := by
  have hG := drainPendingDrops_withdraws h
  have hD := hG.sound h
  have hB := hG.trans (unsubscribeInner_withdraws hD id)
  refine ⟨hB.sound h, fun dl ho => ?_⟩
  cases ho
  exact .of_withdraws h hB

end

end Engine

/-- A call on the resolver. Ingest commits to the store it is given before it touches the graph. -/
inductive Call where
  | subscribe (reader : StoreReader) (branch : Demand)
  | unsubscribe (id : HandleId)
  | dropHandle (id : HandleId)
  | setActivePubkey (reader : StoreReader) (key : Option PublicKey)
  | ingestObserved (store : Store) (reader : Store → StoreReader) (deliveries : List Delivery)
  | retract (reader : StoreReader) (inserted : List StoredEvent) (removed : List Event)

section

variable [EventText] [ShardHash]

/-- The resolver after a call, and the delta the caller gets. A refused subscription still hands over its delta. -/
def Call.run (e : Engine) : Call → Engine × Result DemandDelta
  | .subscribe reader branch => ((e.subscribe reader branch).1, .ok (e.subscribe reader branch).2.delta)
  | .unsubscribe id => ((e.unsubscribe id).1, .ok (e.unsubscribe id).2)
  | .dropHandle id => (e.dropHandle id, .ok [])
  | .setActivePubkey reader key => e.setActivePubkey reader key
  | .ingestObserved store reader deliveries =>
    match ingestObservedDetailed e store reader deliveries with
    | (e, _, .ok result) => (e, .ok result.delta)
    | (e, _, .error (.eventCommit err)) | (e, _, .error (.postCommitProjection err)) => (e, .error err)
  | .retract reader inserted removed => e.retract reader inserted removed

variable (calls : List Call)

def runCalls (state : Engine × ExtTreeSet ContextualAtom) : Engine × ExtTreeSet ContextualAtom :=
  calls.foldl (fun (e, held) call =>
    match call.run e with
    | (e, .ok delta) => (e, DemandDelta.replay delta held)
    | (e, .error _) => (e, held)) state

variable {e e' : Engine} {closes opens : List ContextualAtom} {a : ContextualAtom}

theorem Call.run_keeps (h : e.Sound) (cl : Call) : e.Keeps (cl.run e) := by
  cases cl with
  | subscribe rd br => exact Engine.subscribe_keeps h rd br
  | unsubscribe id => exact Engine.unsubscribe_keeps h id
  | dropHandle id =>
    refine ⟨h.congr rfl rfl (le_rfl) rfl fun _ => .rfl, fun dt ho => ?_⟩
    cases ho
    exact ⟨[], [], rfl, .of_same h.counted rfl rfl rfl⟩
  | setActivePubkey rd k => exact Engine.setActivePubkey_keeps h rd k
  | retract rd is rm => exact Engine.react_keeps h rd _ rm
  | ingestObserved st rd dl =>
    simp only [Call.run, ingestObservedDetailed]
    cases st.insertBatch dl with
    | error er => exact ⟨h, fun dt ho => by cases ho⟩
    | ok cm =>
      obtain ⟨ot, st⟩ := cm
      have hK := Engine.react_keeps h (rd st) ((batchFacts dl ot).inserted ++
        (batchFacts dl ot).provenanceGrew) (batchFacts dl ot).removed
      dsimp only [Engine.ingestFacts]
      generalize Engine.react _ _ _ _ = o at hK ⊢
      obtain ⟨e', rs⟩ := o
      cases rs with
      | error er => exact hK
      | ok dt => exact hK

section
omit [EventText] [ShardHash]

theorem mem_replay :
    a ∈ DemandDelta.replay (closes.map .close ++ opens.map .open) hl ↔ a ∈ opens ∨ a ∈ hl ∧ a ∉ closes := by
  have ho : ∀ hl : ExtTreeSet ContextualAtom,
      a ∈ DemandDelta.replay (opens.map .open) hl ↔ a ∈ opens ∨ a ∈ hl := by
    induction opens with
    | nil => simp [DemandDelta.replay]
    | cons am opens ih =>
      intro hl
      have hS := ih (hl.insert am)
      simp only [DemandDelta.replay, map_cons, foldl_cons] at hS ⊢
      rw [hS, mem_insert, Std.compare_eq_iff_eq, mem_cons, eq_comm (a := am)]
      tauto
  induction closes generalizing hl with
  | nil => simpa using ho hl
  | cons am closes ih =>
    have hS := @ih (hl.erase am)
    refine hS.trans ?_
    rw [mem_erase, Ne, Std.compare_eq_iff_eq, mem_cons, eq_comm (a := am)]
    tauto

theorem Engine.Settles.replay (h : e.Sound) (h' : e'.Sound) (hS : e.Settles e' delta) :
    DemandDelta.replay delta e.activeDemand = e'.activeDemand := by
  obtain ⟨closes, opens, rfl, hM⟩ := hS
  refine ext_mem fun a => ?_
  rw [mem_replay, mem_activeDemand h.counted.noZero, mem_activeDemand h'.counted.noZero]
  have hB := hM.balance a
  rw [hM.opensNodup.count, hM.closesNodup.count] at hB
  have ho := hM.opened a
  have hC := hM.closed a
  unfold live at hB
  split_ifs at hB <;> simp_all

end

theorem runCalls_concat (cl : Call) (st : Engine × ExtTreeSet ContextualAtom) :
    runCalls (calls ++ [cl]) st = match cl.run (runCalls calls st).1 with
      | (e, .ok delta) => (e, DemandDelta.replay delta (runCalls calls st).2)
      | (e, .error _) => (e, (runCalls calls st).2) := by
  rw [runCalls, List.foldl_append]
  rfl

theorem runCalls_concat_engine (cl : Call) (st : Engine × ExtTreeSet ContextualAtom) :
    (runCalls (calls ++ [cl]) st).1 = (cl.run (runCalls calls st).1).1 := by
  rw [runCalls_concat]
  generalize cl.run _ = o
  obtain ⟨e, rs⟩ := o
  cases rs <;> rfl

omit [EventText] [ShardHash] in
theorem Engine.empty_sound : Sound {} := by
  refine ⟨⟨fun a => ?_, fun a => ?_⟩, fun _ => [], ?_⟩
  · simp
  · rfl
  · exact ⟨fun r hr => by simp [registered] at hr, fun r hr => nodup_nil, fun r r' n hr => by simp [registered] at hr,
      fun n hn => by simp at hn, fun n hn => by simp at hn, fun n hn => by simp at hn⟩

theorem runCalls_sound (hl : ExtTreeSet ContextualAtom) : (runCalls calls ({}, hl)).1.Sound := by
  induction calls using List.reverseRecOn with
  | nil => exact Engine.empty_sound
  | append_singleton calls cl ih =>
    rw [runCalls_concat_engine]
    exact (Call.run_keeps ih cl).1

section
omit [EventText] [ShardHash]

theorem length_eq_size {l : List ContextualAtom} (hN : l.Nodup) {set : ExtTreeSet ContextualAtom}
    (hM : ∀ a, a ∈ l ↔ a ∈ set) : l.length = set.size := by
  rw [← Std.ExtTreeSet.length_toList]
  refine ((List.perm_ext_iff_of_nodup hN (Graph.nodup_toList set)).mpr fun a => ?_).length_eq
  rw [hM, Std.ExtTreeSet.mem_toList]

structure Exact (e e' : Engine) (delta : DemandDelta) : Prop where
  closes : ∀ a, .close a ∈ delta ↔ a ∈ e.activeDemand ∧ a ∉ e'.activeDemand
  opens : ∀ a, .open a ∈ delta ↔ a ∈ e'.activeDemand ∧ a ∉ e.activeDemand
  counted : e'.metrics.atomsOpened + e'.metrics.atomsClosed = e.metrics.atomsOpened + e.metrics.atomsClosed +
    ((e.activeDemand \ e'.activeDemand).size + (e'.activeDemand \ e.activeDemand).size)

theorem Engine.Moves.sides (h : Moves e e' closes opens) (hC : 0 < e.count a → 0 < e'.count a → e.Carries e' a) :
    (a ∈ closes ↔ 0 < e.count a ∧ ¬0 < e'.count a) ∧ (a ∈ opens ↔ 0 < e'.count a ∧ ¬0 < e.count a) := by
  have hB := h.balance a
  have hc := h.closed a
  have ho := h.opened a
  rw [h.opensNodup.count, h.closesNodup.count] at hB
  unfold live at hB
  by_cases hb : 0 < e.count a ∧ 0 < e'.count a
  · have hU : a ∉ closes := fun hI => (hc.mp hI).2 (hC hb.1 hb.2)
    simp_all
  · split_ifs at hB <;> simp_all

theorem Engine.Moves.exact_iff (h : e.Sound) (h' : e'.Sound)
    (hM : Moves e e' closes opens) : Exact e e' (closes.map .close ++ opens.map .open) ↔
      ∀ a, a ∈ e.activeDemand → a ∈ e'.activeDemand → e.Carries e' a := by
  have hB : ∀ a, a ∈ e.activeDemand ↔ 0 < e.count a := fun a => mem_activeDemand h.counted.noZero
  have hA : ∀ a, a ∈ e'.activeDemand ↔ 0 < e'.count a := fun a => mem_activeDemand h'.counted.noZero
  constructor
  · intro hE a ha ha'
    by_contra hY
    have hI : a ∈ closes := (hM.closed a).mpr ⟨(hB a).mp ha, hY⟩
    exact ((hE.closes a).mp (by simp [hI])).2 ha'
  · intro hC
    have hS : ∀ a, (a ∈ closes ↔ a ∈ e.activeDemand ∧ a ∉ e'.activeDemand) ∧
        (a ∈ opens ↔ a ∈ e'.activeDemand ∧ a ∉ e.activeDemand) := fun a => by
      rw [hB, hA]
      exact hM.sides fun hL hL' => hC a ((hB a).mpr hL) ((hA a).mpr hL')
    refine ⟨fun a => ?_, fun a => ?_, ?_⟩
    · rw [← (hS a).1]
      simp
    · rw [← (hS a).2]
      simp
    have hc : closes.length = (e.activeDemand \ e'.activeDemand).size :=
      length_eq_size hM.closesNodup fun a => by rw [(hS a).1, mem_diff_iff]
    have ho : opens.length = (e'.activeDemand \ e.activeDemand).size :=
      length_eq_size hM.opensNodup fun a => by rw [(hS a).2, mem_diff_iff]
    obtain ⟨hp, hl⟩ := hM.metrics
    omega

end

/-- From every state a run reaches: the delta of a call is exact just if each atom demanded before and after is carried
over: some node that held it is still there, and by its turn it or a node before it holds the atom. -/
theorem delta_exact (calls : List Call) (call : Call) (e' : Engine) (delta : DemandDelta)
    (hRun : call.run (runCalls calls ({}, ∅)).1 = (e', .ok delta)) :
    Exact (runCalls calls ({}, ∅)).1 e' delta ↔ ∀ a, a ∈ (runCalls calls ({}, ∅)).1.activeDemand → a ∈ e'.activeDemand →
      (runCalls calls ({}, ∅)).1.Carries e' a := by
  have hS := runCalls_sound calls ∅
  obtain ⟨hS', hs⟩ := Call.run_keeps hS call
  rw [hRun] at hS' hs
  obtain ⟨closes, opens, rfl, hM⟩ := hs delta rfl
  exact hM.exact_iff hS hS'

end

/-- Keys of one byte. -/
@[reducible] def byteKeys : EventText where
  parsePublicKey value := match value with
    | [byte] => some byte.toNat
    | _ => none
  parseEventId _ := none
  publicKeyHex key := [UInt8.ofNat key]
  eventIdHex _ := []
  tagValues _ _ := []

def emptyReader : StoreReader := ⟨fun _ => .ok [], fun _ _ => .ok [], fun _ _ _ => .ok []⟩

def failingReader : StoreReader :=
  ⟨fun _ => .error ⟨"read"⟩, fun _ _ => .error ⟨"read"⟩, fun _ _ _ => .error ⟨"read"⟩⟩

def notesOf (authors : Binding) : Demand :=
  .mk (.mk { kinds := some (.ofList [1]) } (.cons .authors authors .nil)) .auto none .agnostic .live

def noteAtom (author : PublicKey) : ContextualAtom :=
  ⟨{ kinds := some (.ofList [1]), authors := some (.ofList [author]) }, .auto, none, ∅⟩

/-- One query for the notes of the active key, and one for those of whoever of the two is not active. -/
def complementaryQueries : List Call :=
  [.subscribe emptyReader (notesOf (.reactive .activePubkey)),
    .subscribe emptyReader
      (notesOf (.setOp .diff (.cons (.literal (.ofList [[(1 : UInt8)], [2]])) (.cons (.reactive .activePubkey) .nil)))),
    .setActivePubkey emptyReader (some 1)]

def literalQuery : Engine :=
  (@runCalls byteKeys oneShard [.subscribe emptyReader (notesOf (.literal (.ofList [[(1 : UInt8)]]))),
    .subscribe emptyReader (notesOf (.reactive .activePubkey))] ({}, ∅)).1

def complementary : Engine := (@runCalls byteKeys oneShard complementaryQueries ({}, ∅)).1

def exchanged : Engine × Result DemandDelta :=
  @Call.run byteKeys oneShard complementary (.setActivePubkey emptyReader (some 2))

/-- The notes of the literal query stay demanded, by the same node, while the key opens those of the other. -/
theorem delta_exact_literal_stays :
    Exact literalQuery (@Call.run byteKeys oneShard literalQuery (.setActivePubkey emptyReader (some 2))).1
      [.open (noteAtom 2)] := by
  refine (@delta_exact byteKeys oneShard _ (.setActivePubkey emptyReader (some 2)) _ _ ?_).mpr fun a ha _ => ?_
  · exact Prod.ext rfl (toOption_some.mp (by decide +kernel))
  have hN : literalQuery.activeDemand = .ofList [noteAtom 1] := by decide +kernel
  rw [literalQuery] at hN
  rw [hN] at ha
  obtain rfl : noteAtom 1 = a := by simpa using ha
  exact ⟨1, 1, by decide +kernel, by decide +kernel, by decide +kernel, .inl rfl⟩

/-- The two queries exchange their atoms: the demand stays as it is, and one atom is closed and opened. -/
theorem exchange_closes_and_opens :
    complementary.activeDemand = .ofList [noteAtom 1, noteAtom 2] ∧ exchanged.1.activeDemand = complementary.activeDemand ∧
      exchanged.2.toOption = some [.close (noteAtom 1), .open (noteAtom 1)] ∧
      exchanged.1.metrics.atomsOpened + exchanged.1.metrics.atomsClosed =
        complementary.metrics.atomsOpened + complementary.metrics.atomsClosed + 2 := by
  decide +kernel

end NmpStore.Resolver

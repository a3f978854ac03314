import NmpStore.Resolver.Calls

/-! # Calls that fail

A call that fails returns no delta. What it has closed or opened by then is lost to the consumer.
-/

namespace NmpStore.Resolver

def Node.isFilter : Node → Bool
  | .filter _ => true
  | _ => false

/-- Wherever a pass may come, the nodes that read the store are evaluated before those that hold atoms. -/
def Graph.ReadsFirst (g : Graph) (seeds : ExtTreeSet NodeId) : Prop :=
  ∀ holder reading, g.Reaches seeds holder → g.Reaches seeds reading → (g.nodes[holder]?).any Node.isFilter = true →
    (g.nodes[reading]?).any Node.isDerived = true → ¬g.Precedes holder reading

theorem Graph.ReadsFirst.of_list {g : Graph} (l : List NodeId) (hSeeds : ∀ seed ∈ seeds.toList, seed ∈ l)
    (hClosed : ∀ child ∈ l, (g.parentOf child).parent.all (· ∈ l) = true)
    (hOrder : ∀ holder ∈ l, ∀ reading ∈ l, (g.nodes[holder]?).any Node.isFilter = true →
      (g.nodes[reading]?).any Node.isDerived = true → ¬g.Precedes holder reading) : g.ReadsFirst seeds := by
  have hMem : ∀ n, g.Reaches seeds n → n ∈ l := by
    rintro n ⟨seed, hSeed, hPath⟩
    induction hPath with
    | refl => exact hSeeds seed (Std.ExtTreeSet.mem_toList.mpr hSeed)
    | tail _ hStep ih =>
      have hParent := hClosed _ ih
      rw [hStep] at hParent
      simpa using hParent
  exact fun holder reading hHolder hReading => hOrder holder (hMem holder hHolder) reading (hMem reading hReading)

namespace Engine

variable {e e' : Engine}

theorem activeDemand_eq (h : e.Counted) (h' : e'.Counted) (hHolds : ∀ n a, e'.graph.Holds n a ↔ e.graph.Holds n a) :
    e'.activeDemand = e.activeDemand := by
  refine ext_mem fun a => ?_
  rw [mem_activeDemand h'.noZero, mem_activeDemand h.noZero, h'.count, h.count, Graph.holders_pos_iff,
    Graph.holders_pos_iff]
  exact exists_congr fun n => hHolds n a

theorem Withdraws.activeDemand (h : e.Sound) (hW : Withdraws e e' []) : e'.activeDemand = e.activeDemand := by
  obtain ⟨l, hNil, -, hClosed, -⟩ := hW.closes
  obtain rfl : l = [] := List.map_eq_nil_iff.mp hNil.symm
  refine ext_mem fun a => ?_
  rw [mem_activeDemand (hW.sound h).counted.noZero, mem_activeDemand h.counted.noZero]
  have hLe := hW.le a
  have hKept := (hClosed a).not.mp not_mem_nil
  omega

section

variable [EventText]

theorem runRecompute_spares (h : e.Sound) (hReads : e.graph.ReadsFirst seeds)
    (hRun : runRecompute e reader seeds = (e', .error err)) : e'.activeDemand = e.activeDemand := by
  obtain ⟨⟨done, acc, hPasses, hFails⟩, -⟩ := runRecompute_passes h hRun
  obtain ⟨id, hAt⟩ := hFails err rfl
  refine activeDemand_eq h.counted hPasses.counted fun n a => ?_
  by_cases hDone : n ∈ done
  · -- the pass has not been at a filter, and no other node holds atoms
    obtain ⟨hBefore, hReached⟩ := hAt.before n hDone
    have hOther : ¬(e.graph.nodes[n]?).any Node.isFilter = true := fun hFilter =>
      hReads n id hReached hAt.reached hFilter hAt.derived hBefore
    have hShape := (hPasses.agree n).1
    unfold Graph.Holds Graph.atomsOf
    generalize e.graph.nodes[n]? = before at hOther hShape ⊢
    generalize e'.graph.nodes[n]? = after at hShape ⊢
    cases before with
    | none =>
      rw [Option.map_eq_none_iff.mp hShape]
    | some node =>
      obtain ⟨node', rfl, hShape⟩ := Option.map_eq_some_iff.mp hShape
      cases node <;> cases node' <;> simp_all [Node.shape, Node.atoms, Node.isFilter]
  · rw [Graph.Holds, Graph.atomsOf, hPasses.untouched n hDone]
    exact .rfl

/-- Draining the dropped handles closes nothing, and the pass that starts from the seeds reads first. -/
def Spares (e : Engine) (seeds : Engine → ExtTreeSet NodeId) : Prop :=
  (drainPendingDrops e).2 = [] ∧ (drainPendingDrops e).1.graph.ReadsFirst (seeds (drainPendingDrops e).1)

theorem Spares.pass {start : Engine} (h : e.Sound) (hSpares : e.Spares seeds)
    (hRun : runRecompute start reader (seeds (drainPendingDrops e).1) = (e', .error err))
    (hGraph : start.graph = (drainPendingDrops e).1.graph) (hAtoms : start.atoms = (drainPendingDrops e).1.atoms)
    (hSound : (drainPendingDrops e).1.Sound → start.Sound) :
    e'.activeDemand = e.activeDemand := by
  have hW := drainPendingDrops_withdraws h
  obtain ⟨hDropped, hReads⟩ := hSpares
  have hDemand : start.activeDemand = (drainPendingDrops e).1.activeDemand := by rw [activeDemand, hAtoms, activeDemand]
  have hStart := hSound (hW.sound h)
  rw [hDropped] at hW
  exact (runRecompute_spares hStart (hGraph ▸ hReads) hRun).trans (hDemand.trans (hW.activeDemand h))

theorem setActivePubkey_spares (h : e.Sound) (hSpares : e.Spares Engine.reactiveNodes) (reader : StoreReader)
    (key : Option PublicKey) (hRun : (e.setActivePubkey reader key).2 = .error err) :
    (e.setActivePubkey reader key).1.activeDemand = e.activeDemand := by
  unfold setActivePubkey at hRun ⊢
  simp only at hRun ⊢
  split at hRun
  · cases hRun
  rw [if_neg ‹_›]
  generalize hPass : runRecompute _ _ _ = pass at hRun ⊢
  obtain ⟨e', result⟩ := pass
  cases result with
  | ok delta => cases hRun
  | error err' => exact hSpares.pass h hPass rfl rfl fun hSound => hSound.congr rfl rfl le_rfl rfl fun _ => .rfl

theorem react_spares (h : e.Sound) (hSpares : e.Spares fun e => dirtySeed e.graph (inserted ++ removed))
    (reader : StoreReader) (hRun : (e.react reader inserted removed).2 = .error err) :
    (e.react reader inserted removed).1.activeDemand = e.activeDemand := by
  unfold react at hRun ⊢
  simp only at hRun ⊢
  split at hRun
  · cases hRun
  rw [if_neg ‹_›]
  generalize hPass : runRecompute _ _ _ = pass at hRun ⊢
  obtain ⟨e', result⟩ := pass
  cases result with
  | ok delta => cases hRun
  | error err' => exact hSpares.pass h hPass rfl rfl fun hSound => hSound.congr rfl rfl le_rfl rfl fun _ => .rfl

end

end Engine

section

variable [EventText] [ShardHash]

/-- Nothing is lost if the call fails. A batch that does not commit does not reach the graph. -/
def Call.Spares (e : Engine) : Call → Prop
  | .setActivePubkey _ _ => e.Spares Engine.reactiveNodes
  | .ingestObserved store _ deliveries => ∀ outcomes next, store.insertBatch deliveries = .ok (outcomes, next) →
      e.Spares fun e => Engine.dirtySeed e.graph ((batchFacts deliveries outcomes).inserted ++
        (batchFacts deliveries outcomes).provenanceGrew ++ (batchFacts deliveries outcomes).removed)
  | .retract _ inserted removed => e.Spares fun e => Engine.dirtySeed e.graph (inserted.map StoredEvent.event ++ removed)
  | _ => True

theorem Call.run_spares {e : Engine} {call : Call} (h : e.Sound) (hSpares : call.Spares e)
    (hRun : (call.run e).2 = .error err) : (call.run e).1.activeDemand = e.activeDemand := by
  cases call with
  | subscribe reader branch => cases hRun
  | unsubscribe id => cases hRun
  | dropHandle id => cases hRun
  | setActivePubkey reader key => exact Engine.setActivePubkey_spares h hSpares reader key hRun
  | retract reader inserted removed => exact Engine.react_spares h hSpares reader hRun
  | ingestObserved store reader deliveries =>
    simp only [Call.run, ingestObservedDetailed] at hRun ⊢
    cases hCommit : store.insertBatch deliveries with
    | error err' => rfl
    | ok committed =>
      obtain ⟨outcomes, next⟩ := committed
      have hReact := fun err' => @Engine.react_spares e _ _ _ err' h (hSpares outcomes next hCommit) (reader next)
      rw [hCommit] at hRun
      dsimp only [Engine.ingestFacts] at hRun ⊢
      generalize Engine.react _ _ _ _ = out at hReact hRun ⊢
      obtain ⟨e', result⟩ := out
      cases result with
      | ok delta => cases hRun
      | error err' => exact hReact err' rfl

/-- Through every run whose failing calls have nothing to lose, the consumer follows the demand. -/
theorem consumer_follows (calls : List Call)
    (hSpares : ∀ past call err, past ++ [call] <+: calls → (call.run (runCalls past ({}, ∅)).1).2 = .error err →
      call.Spares (runCalls past ({}, ∅)).1) :
    ∀ past, past <+: calls → (runCalls past ({}, ∅)).2 = (runCalls past ({}, ∅)).1.activeDemand := by
  intro past
  induction past using List.reverseRecOn with
  | nil =>
    intro _
    rfl
  | append_singleton past call ih =>
    intro hPast
    have hBefore := ih ((List.prefix_append past [call]).trans hPast)
    have hSound := runCalls_sound past ∅
    obtain ⟨hAfter, hSettles⟩ := Call.run_keeps hSound call
    have hFails := fun err hErr => Call.run_spares hSound (hSpares past call err hPast hErr) hErr
    rw [runCalls_concat, hBefore]
    generalize call.run (runCalls past ({}, ∅)).1 = out at hAfter hSettles hFails ⊢
    obtain ⟨e, result⟩ := out
    cases result with
    | ok delta => exact (hSettles delta rfl).replay hSound hAfter
    | error err => exact (hFails err rfl).symm

end

def firstNote : Event := .bare 1 1 1 1

/-- A query for the notes of whoever has written the first key's notes: it cannot be read once, and later can. -/
def failedRead : List Call :=
  [.subscribe emptyReader (notesOf (.derived (notesOf (.literal (.ofList [[(1 : UInt8)]]))) .authors)),
    .retract failingReader [] [firstNote], .retract emptyReader [] [firstNote], .unsubscribe 1]

theorem failedRead_spares : @Call.Spares byteKeys oneShard (@runCalls byteKeys oneShard (failedRead.take 1) ({}, ∅)).1
    (.retract failingReader [] [firstNote]) := by
  let _ := byteKeys
  let _ := oneShard
  refine ⟨by decide +kernel, .of_list [1, 2] (by decide +kernel) (by decide +kernel) ?_⟩
  unfold Graph.Precedes
  decide +kernel

theorem consumer_follows_failed_read :
    (@Call.run byteKeys oneShard (@runCalls byteKeys oneShard (failedRead.take 1) ({}, ∅)).1
      (.retract failingReader [] [firstNote])).2.toOption = none ∧
    (@runCalls byteKeys oneShard (failedRead.take 2) ({}, ∅)).2 = .ofList [noteAtom 1] ∧
    (@runCalls byteKeys oneShard failedRead ({}, ∅)).2 = (@runCalls byteKeys oneShard failedRead ({}, ∅)).1.activeDemand := by
  let _ := byteKeys
  let _ := oneShard
  refine ⟨by decide +kernel, by decide +kernel, consumer_follows failedRead ?_ failedRead (List.prefix_refl _)⟩
  rintro past call err ⟨rest, hCalls⟩ hErr
  match past, hCalls with
  | [], hCalls =>
    cases hCalls
    cases hErr
  | [_], hCalls =>
    cases hCalls
    exact failedRead_spares
  | [_, _], hCalls =>
    cases hCalls
    have hReads : (Call.run (runCalls (failedRead.take 2) ({}, ∅)).1
      (.retract emptyReader [] [firstNote])).2.toOption.isSome = true := by decide +kernel
    have hFails : (Call.run (runCalls (failedRead.take 2) ({}, ∅)).1 (.retract emptyReader [] [firstNote])).2 =
      .error err := hErr
    rw [hFails] at hReads
    cases hReads
  | [_, _, _], hCalls =>
    cases hCalls
    cases hErr
  | _ :: _ :: _ :: _ :: _, hCalls =>
    have hLength := congrArg List.length hCalls
    simp [failedRead] at hLength

def dropBeforeFailure : List Call :=
  [.subscribe emptyReader (notesOf (.literal (.ofList [[(1 : UInt8)]]))),
    .subscribe emptyReader (notesOf (.derived (notesOf (.reactive .activePubkey)) .authors)),
    .dropHandle 1, .setActivePubkey failingReader (some 2)]

def laterCalls : List Call :=
  [.setActivePubkey emptyReader (some 2), .retract emptyReader [] [], .unsubscribe 2]

/-- The withdrawal of the dropped handle goes with the failed call: in the end nothing is demanded, and the consumer still
holds the dropped query's atom. -/
theorem failure_loses_close :
    (@runCalls byteKeys oneShard (dropBeforeFailure ++ laterCalls) ({}, ∅)).1.activeDemand = ∅ ∧
      (@runCalls byteKeys oneShard (dropBeforeFailure ++ laterCalls) ({}, ∅)).2 = .ofList [noteAtom 1] := by
  decide +kernel

end NmpStore.Resolver

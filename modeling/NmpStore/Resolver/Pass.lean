import NmpStore.Resolver.Trees

/-! # One pass over the graph

A pass recomputes nodes in rounds of descending depth.
-/

namespace NmpStore.Resolver

def Graph.Precedes (g : Graph) (m n : NodeId) : Prop := g.depthOf n < g.depthOf m ∨ g.depthOf m = g.depthOf n ∧ m < n

variable {g : Graph} {m n : NodeId}

theorem Graph.Precedes.ne (h : g.Precedes m n) : m ≠ n := by
  rintro rfl
  rcases h with hD | ⟨-, hI⟩
  · exact lt_irrefl _ hD
  · exact lt_irrefl _ hI

theorem Graph.Precedes.asymm (h : g.Precedes m n) : ¬g.Precedes n m := by
  intro h'
  rcases h with hD | ⟨hD, hI⟩ <;> rcases h' with hD' | ⟨hD', hI'⟩
  · omega
  · omega
  · omega
  · exact Nat.lt_asymm hI hI'

def Node.isDerived : Node → Bool
  | .derived .. => true
  | _ => false

/-- A pass may come to the node: it starts from it, or from one below it. -/
def Graph.Reaches (g : Graph) (seeds : ExtTreeSet NodeId) (n : NodeId) : Prop :=
  ∃ seed ∈ seeds, Relation.ReflTransGen (fun child parent => (g.parentOf child).parent = some parent) seed n

/-- The pass fails at a node that reads the store, and has only been at nodes that come before it. -/
structure Graph.FailsAt (g : Graph) (seeds : ExtTreeSet NodeId) (done : List NodeId) (id : NodeId) : Prop where
  reached : g.Reaches seeds id
  derived : (g.nodes[id]?).any Node.isDerived = true
  before : ∀ n ∈ done, g.Precedes n id ∧ g.Reaches seeds n

namespace Engine

def live (n : Nat) : Nat := if 0 < n then 1 else 0

structure Passes (e₀ e : Engine) (done : List NodeId) (acc : DeltaAcc) : Prop where
  frame : e = { e₀ with graph := e.graph, atoms := e.atoms, metrics := e.metrics }
  next : e.graph.nextId = e₀.graph.nextId
  agree : ∀ n, e₀.graph.AgreeAt e.graph n
  counted : e.Counted
  untouched : ∀ n : NodeId, n ∉ done → e.graph.nodes[n]? = e₀.graph.nodes[n]?
  closesNodup : acc.closes.Nodup
  opensNodup : acc.opens.Nodup
  closed : ∀ a, a ∈ acc.closes ↔ 0 < e₀.count a ∧
    ∀ n, e₀.graph.Holds n a → ∀ m, (m = n ∨ e₀.graph.Precedes m n) → ¬e.graph.Holds m a
  opened : ∀ a ∈ acc.opens, 0 < e.count a ∧ ∀ n, n ∉ done → ¬e₀.graph.Holds n a
  balance : ∀ a, acc.opens.count a + live (e₀.count a) = acc.closes.count a + live (e.count a)
  metrics : e.metrics.atomsOpened = e₀.metrics.atomsOpened + acc.opens.length ∧
    e.metrics.atomsClosed = e₀.metrics.atomsClosed + acc.closes.length

variable {e e₀ : Engine}

theorem Passes.start (h : e.Counted) : Passes e e [] {} where
  frame := rfl
  next := rfl
  agree _ := ⟨rfl, rfl⟩
  counted := h
  untouched _ _ := rfl
  closesNodup := nodup_nil
  opensNodup := nodup_nil
  closed a := by
    refine ⟨fun ha => by simp at ha, fun ⟨hL, hl⟩ => ?_⟩
    rw [h.count, Graph.holders_pos_iff] at hL
    obtain ⟨n, hn⟩ := hL
    exact absurd hn (hl n hn n (.inl rfl))
  opened a ha := by simp at ha
  balance a := by simp
  metrics := by simp

theorem Passes.closed_done (h : Passes e₀ e done acc)
    (ha : a ∈ acc.closes) (hn : e₀.graph.Holds n a) : n ∈ done := by
  by_contra hU
  refine ((h.closed a).mp ha).2 n hn n (.inl rfl) ?_
  rw [Graph.Holds, Graph.atomsOf, h.untouched n hU]
  exact hn

theorem Passes.remeasure (h : Passes e₀ e done a)
    {metrics : Metrics} (ho : metrics.atomsOpened = e.metrics.atomsOpened)
    (hC : metrics.atomsClosed = e.metrics.atomsClosed) : Passes e₀ { e with metrics } done a where
  frame := by
    rw [h.frame]
  next := h.next
  agree := h.agree
  counted := ⟨h.counted.noZero, h.counted.count⟩
  untouched := h.untouched
  closesNodup := h.closesNodup
  opensNodup := h.opensNodup
  closed := h.closed
  opened := h.opened
  balance := h.balance
  metrics := by
    rw [ho, hC]
    exact h.metrics

section

variable [EventText]

variable {e e' e₀ : Engine} {a : ContextualAtom} {id n : NodeId}

theorem reevaluate_shape (ho : reevaluate e reader node = .ok value) : value.shape = node.shape := by
  cases node with
  | derived inn pr ca fr cc =>
    simp only [reevaluate, run_ok] at ho
    obtain ⟨_, -, rfl⟩ := ho
    rfl
  | literal _ =>
    cases ho
    rfl
  | reactive _ _ =>
    cases ho
    rfl
  | setOp _ _ _ =>
    cases ho
    rfl
  | filter _ =>
    cases ho
    rfl

section
omit [EventText]

theorem mem_difference {o n : ExtTreeSet ContextualAtom} :
    a ∈ (o.toList.filter fun a => !n.contains a) ↔ a ∈ o ∧ a ∉ n := by
  rw [mem_filter, Std.ExtTreeSet.mem_toList, not_eq_true', Bool.eq_false_iff, ne_eq,
    Std.ExtTreeSet.contains_iff_mem]

theorem exchangeAtoms_steps (hN : e.NoZero) (o n : ExtTreeSet ContextualAtom) (acc : DeltaAcc)
    (hO : ∀ a ∈ o, 0 < e.count a) : ∃ m ac,
      Unrefs e acc (o.toList.filter fun a => !n.contains a) m ac ∧
      Refs m ac (n.toList.filter fun a => !o.contains a) (exchangeAtoms e o n acc).1
        (exchangeAtoms e o n acc).2 := by
  refine ⟨_, _, unrefAtoms_unrefs _ hN acc fun a => ?_, refAtoms_refs _ _ _⟩
  by_cases hM : a ∈ o.toList.filter fun a => !n.contains a
  · have ho := ((Graph.nodup_toList o).filter fun a => !n.contains a).count (a := a)
    rw [if_pos hM] at ho
    have hP := hO a (mem_difference.mp hM).1
    omega
  · rw [List.count_eq_zero.mpr hM]
    omega

theorem count_difference (o n : ExtTreeSet ContextualAtom) (a : ContextualAtom) :
    (o.toList.filter fun a => !n.contains a).count a = if a ∈ o ∧ a ∉ n then 1 else 0 := by
  rw [((Graph.nodup_toList o).filter fun a => !n.contains a).count]
  simp only [mem_difference]

end

/-- What recomputing a node does: the demand gives up the atoms that the node has lost and takes those it has gained. -/
structure Recomputes (e : Engine) (id : NodeId) (node value : Node) (acc : DeltaAcc) (e' : Engine) (acc' : DeltaAcc) :
    Prop where
  before : e.graph.nodes[id]? = some node
  shape : value.shape = node.shape
  frame : e' = { e with graph := e.graph.setNode id value, atoms := e'.atoms, metrics := e'.metrics }
  noZero : e'.NoZero
  count : ∀ a, e'.count a + (if a ∈ node.atoms ∧ a ∉ value.atoms then 1 else 0) =
    e.count a + if a ∈ value.atoms ∧ a ∉ node.atoms then 1 else 0
  closes : ∃ gone, acc'.closes = acc.closes ++ gone ∧ gone.Nodup ∧
    (∀ a, a ∈ gone ↔ (a ∈ node.atoms ∧ a ∉ value.atoms) ∧ e'.count a = 0) ∧
    e'.metrics.atomsClosed = e.metrics.atomsClosed + gone.length
  opens : ∃ new, acc'.opens = acc.opens ++ new ∧ new.Nodup ∧
    (∀ a, a ∈ new ↔ (a ∈ value.atoms ∧ a ∉ node.atoms) ∧ e.count a = 0) ∧
    e'.metrics.atomsOpened = e.metrics.atomsOpened + new.length

theorem recomputeNode_cases (h : e.Counted) (ho : recomputeNode e reader id acc = .ok (changed, e', acc')) :
    (e.graph.nodes[id]? = none ∧ changed = false ∧ e' = e ∧ acc' = acc) ∨
      ∃ nd value, reevaluate e reader nd = .ok value ∧
        changed = (decide (value.resolvedSet ≠ nd.resolvedSet) || decide (value.atoms ≠ nd.atoms)) ∧
        Recomputes e id nd value acc e' acc' := by
  unfold recomputeNode at ho
  cases hAt : e.graph.nodes[id]? with
  | none =>
    rw [hAt] at ho
    obtain ⟨rfl, rfl, rfl⟩ : false = changed ∧ e = e' ∧ acc = acc' := by simpa [pure_ok] using ho
    exact .inl ⟨rfl, rfl, rfl, rfl⟩
  | some nd =>
    rw [hAt] at ho
    simp only [run_ok] at ho
    obtain ⟨value, hV, hc, he⟩ := ho
    let set : Engine := { e with graph := e.graph.setNode id value }
    obtain ⟨m, accMid, hU, hR⟩ := exchangeAtoms_steps (e := set) h.noZero nd.atoms value.atoms acc
      (fun a ha => by
        change 0 < e.count a
        rw [h.count, Graph.holders_pos_iff]
        exact ⟨id, (Graph.holds_of_get hAt).mpr ha⟩)
    rw [he] at hR
    have hD : ∀ a, m.count a + (if a ∈ nd.atoms ∧ a ∉ value.atoms then 1 else 0) = e.count a := fun a => by
      rw [← count_difference, hU.count]
      rfl
    have hE : ∀ a, e'.count a = m.count a + if a ∈ value.atoms ∧ a ∉ nd.atoms then 1 else 0 := fun a => by
      rw [← count_difference, hR.count]
    obtain ⟨n, hOpens, hN, hp⟩ := hR.opens
    obtain ⟨gn, hl, hg, hC⟩ := hU.closes
    refine .inr ⟨nd, value, hV, hc.symm, hAt, reevaluate_shape hV, ?_, ?_, fun a => ?_,
      ⟨gn, hR.closes.trans hl, ?_, fun a => ?_, ?_⟩, ⟨n, ?_, ?_, fun a => ?_, ?_⟩⟩
    · exact (hU.tallies.trans hR.tallies).frame
    · exact (hU.tallies.trans hR.tallies).noZero h.noZero
    · have hn := hD a
      have hT := hE a
      omega
    · refine List.nodup_iff_count_le_one.mpr fun a => ?_
      rw [hg]
      split <;> omega
    · have hT := hE a
      rw [← count_pos_iff, hg]
      simp only [mem_difference]
      by_cases hL : a ∈ nd.atoms ∧ a ∉ value.atoms
      · rw [if_neg fun hG => hL.2 hG.1] at hT
        simp only [hL, hT, true_and, Nat.add_zero]
        split <;> simp_all
      · simp [hL]
    · rw [hR.closed]
      exact hC
    · rw [hOpens, hU.opens]
    · refine List.nodup_iff_count_le_one.mpr fun a => ?_
      rw [hN]
      split <;> omega
    · have hn := hD a
      rw [← count_pos_iff, hN]
      simp only [mem_difference]
      by_cases hG : a ∈ value.atoms ∧ a ∉ nd.atoms
      · rw [if_neg fun hL => hG.2 hL.1, Nat.add_zero] at hn
        simp only [hG, hn, true_and]
        split <;> simp_all
      · simp [hG]
    · rw [hp, hU.opened]

section
omit [EventText]

theorem Recomputes.get (h : Recomputes e id node value acc e' acc') (n : NodeId) :
    e'.graph.nodes[n]? = if id = n then some value else e.graph.nodes[n]? := by
  rw [h.frame]
  simp [Graph.setNode]

theorem Recomputes.counted (h : Recomputes e id node value acc e' acc') (hc : e.Counted) : e'.Counted := by
  refine ⟨h.noZero, fun a => ?_⟩
  have hH := Graph.holders_setNode h.before value a
  have hC := h.count a
  have hG : e'.graph = e.graph.setNode id value := by rw [h.frame]
  rw [hc.count] at hC
  rw [hG]
  unfold Graph.hit at hH
  by_cases hO : a ∈ node.atoms <;> by_cases hN : a ∈ value.atoms <;> simp [hO, hN] at hH hC <;> omega

theorem Counted.other_holder (hC : e.Counted)
    (hA : e.graph.nodes[id]? = some node) (hN : n ≠ id) (hH : e.graph.Holds n a) :
    (if a ∈ node.atoms then 1 else 0) < e.count a := by
  have hP : 0 < (e.graph.removeNode id).holders a := by
    refine Graph.holders_pos_iff.mpr ⟨n, ?_⟩
    simpa [Graph.Holds, Graph.atomsOf, Graph.removeNode, get_erase, Ne.symm hN] using hH
  have hS := Graph.holders_removeNode hA a
  rw [hC.count]
  unfold Graph.hit at hS
  omega

theorem Passes.recompute (h : Passes e₀ e done acc) (hR : ∀ n ∈ done, e₀.graph.Precedes n id)
    (hs : Recomputes e id node value acc e' acc') : Passes e₀ e' (id :: done) acc' := by
  have hF : id ∉ done := fun hIn => (hR id hIn).ne rfl
  have hS : e₀.graph.nodes[id]? = some node := by rw [← h.untouched id hF, hs.before]
  have hr : e'.graph = e.graph.setNode id value := by rw [hs.frame]
  have hH : ∀ n a, n ≠ id → (e'.graph.Holds n a ↔ e.graph.Holds n a) := by
    intro n a hNe
    simp [Graph.Holds, Graph.atomsOf, hs.get, Ne.symm hNe]
  have hHe : ∀ a, e'.graph.Holds id a ↔ a ∈ value.atoms := fun a => Graph.holds_of_get (by simp [hs.get])
  have hf : ∀ a, e₀.graph.Holds id a ↔ a ∈ node.atoms := fun a => Graph.holds_of_get hS
  have hu : ∀ n a, n ∉ done → (e.graph.Holds n a ↔ e₀.graph.Holds n a) := by
    intro n a hn
    simp [Graph.Holds, Graph.atomsOf, h.untouched n hn]
  have hLh : ∀ a, a ∈ node.atoms → 0 < e.count a := by
    intro a ha
    rw [h.counted.count, Graph.holders_pos_iff]
    exact ⟨id, (Graph.holds_of_get hs.before).mpr ha⟩
  obtain ⟨gn, hC, hG, hg, hCl⟩ := hs.closes
  obtain ⟨new, hOpens, hE, hN, hp⟩ := hs.opens
  refine
    { frame := ?_, next := ?_, agree := fun n => ?_, counted := hs.counted h.counted, untouched := fun n hn => ?_,
      closesNodup := ?_, opensNodup := ?_, closed := fun a => ?_, opened := fun a ha => ?_,
      balance := fun a => ?_, metrics := ?_ }
  · rw [hs.frame, h.frame]
  · rw [hr]
    exact h.next
  · refine ⟨?_, ?_⟩
    · rw [hs.get]
      split
      · rename_i hQ
        rw [← hQ, hS, map_some, map_some, hs.shape]
      · exact (h.agree n).1
    · rw [hr]
      exact (h.agree n).2
  · have hU : id ≠ n ∧ n ∉ done := by simpa [eq_comm] using hn
    rw [hs.get, if_neg hU.1]
    exact h.untouched n hU.2
  · -- an atom closed before has no contributor among the nodes still to come
    rw [hC]
    refine nodup_append.mpr ⟨h.closesNodup, hG, ?_⟩
    rintro a ha b hb rfl
    have hO := ((hg a).mp hb).1.1
    exact hF (h.closed_done ha ((hf a).mpr hO))
  · rw [hOpens]
    refine nodup_append.mpr ⟨h.opensNodup, hE, ?_⟩
    rintro a ha b hb rfl
    have hZ := ((hN a).mp hb).2
    have hl := (h.opened a ha).1
    omega
  · -- the nodes up to one that is done are done as well, so the new value does not concern them
    have hEr : ∀ n ∈ done, ∀ m, (m = n ∨ e₀.graph.Precedes m n) → (e'.graph.Holds m a ↔ e.graph.Holds m a) := by
      rintro n hn m hm
      refine hH m a fun hQ => ?_
      rcases hm with rfl | hm
      · exact hF (hQ ▸ hn)
      · exact (hR n hn).asymm (hQ ▸ hm)
    have hNb : e'.count a = 0 → ∀ m, ¬e'.graph.Holds m a := fun hZ m hm => by
      have hP := Graph.holders_pos_iff.mpr ⟨m, hm⟩
      rw [← (hs.counted h.counted).count] at hP
      omega
    rw [hC, mem_append]
    constructor
    · rintro (ha | ha)
      · obtain ⟨hl, hL⟩ := (h.closed a).mp ha
        refine ⟨hl, fun n hn m hm => ?_⟩
        rw [hEr n (h.closed_done ha hn) m hm]
        exact hL n hn m hm
      obtain ⟨⟨hO, -⟩, hZ⟩ := (hg a).mp ha
      have hT : a ∉ acc.opens := fun hIn => (h.opened a hIn).2 id hF ((hf a).mpr hO)
      have hNc : a ∉ acc.closes := fun hIn => hF (h.closed_done hIn ((hf a).mpr hO))
      refine ⟨?_, fun n _ m _ => hNb hZ m⟩
      have hB := h.balance a
      rw [List.count_eq_zero.mpr hT, List.count_eq_zero.mpr hNc] at hB
      simp only [live, hLh a hO, ↓reduceIte] at hB
      by_contra hDe
      simp [hDe] at hB
    · rintro ⟨hl, hL⟩
      have hD : ∀ n, e₀.graph.Holds n a → n = id ∨ n ∈ done := by
        intro n hn
        by_contra hU
        obtain ⟨hNe, hU⟩ := not_or.mp hU
        exact hL n hn n (.inl rfl) ((hH n a hNe).mpr ((hu n a hU).mpr hn))
      by_cases hO : a ∈ node.atoms
      · -- the node is the last contributor, so the atom ends with it
        have hA := hL id ((hf a).mpr hO)
        have hZ : e'.count a = 0 := by
          rw [(hs.counted h.counted).count]
          by_contra hSo
          obtain ⟨m, hm⟩ := Graph.holders_pos_iff.mp (Nat.pos_of_ne_zero hSo)
          by_cases hh : m = id
          · exact hA m (.inl hh) hm
          by_cases hIn : m ∈ done
          · exact hA m (.inr (hR m hIn)) hm
          rw [hH m a hh, hu m a hIn] at hm
          rcases hD m hm with hQ | hIn'
          · exact hh hQ
          · exact hIn hIn'
        exact .inr ((hg a).mpr ⟨⟨hO, fun ho => hA id (.inl rfl) ((hHe a).mpr ho)⟩, hZ⟩)
      · refine .inl ((h.closed a).mpr ⟨hl, fun n hn m hm => ?_⟩)
        have hIn : n ∈ done := (hD n hn).resolve_left fun hQ => hO ((hf a).mp (hQ ▸ hn))
        rw [← hEr n hIn m hm]
        exact hL n hn m hm
  · rw [hOpens] at ha
    have hY : ∀ n, n ∉ id :: done → n ≠ id ∧ n ∉ done := fun n hn => by simpa using hn
    have hc := hs.count a
    rcases mem_append.mp ha with ha | ha
    · obtain ⟨hl, hNo⟩ := h.opened a ha
      have hO : a ∉ node.atoms := fun hIn => hNo id hF ((hf a).mpr hIn)
      refine ⟨?_, fun n hn => hNo n (hY n hn).2⟩
      rw [if_neg fun hL => hO hL.1] at hc
      omega
    · obtain ⟨hd, hZ⟩ := (hN a).mp ha
      rw [if_neg fun hL => hd.2 hL.1, if_pos hd] at hc
      refine ⟨by omega, fun n hn hHd => ?_⟩
      have hM := h.counted.other_holder hs.before (hY n hn).1 ((hu n a (hY n hn).2).mpr hHd)
      omega
  · have hB := h.balance a
    have hc := hs.count a
    have hGn : gn.count a = if (a ∈ node.atoms ∧ a ∉ value.atoms) ∧ e'.count a = 0 then 1 else 0 := by
      rw [hG.count]
      simp only [hg]
    have he : new.count a = if (a ∈ value.atoms ∧ a ∉ node.atoms) ∧ e.count a = 0 then 1 else 0 := by
      rw [hE.count]
      simp only [hN]
    have hHl := hLh a
    rw [hOpens, hC, count_append, count_append, he, hGn]
    unfold live at hB ⊢
    by_cases hO : a ∈ node.atoms <;> by_cases ho : a ∈ value.atoms <;>
      simp only [hO, ho, not_true_eq_false, not_false_eq_true, and_true, and_false, and_self, true_and, false_and,
        ↓reduceIte, forall_const, Nat.add_zero] at hc hHl ⊢
    · rw [hc]
      omega
    · split_ifs at hB ⊢ <;> omega
    · split_ifs at hB ⊢ <;> omega
    · rw [hc]
      omega
  · obtain ⟨hOn, hCs⟩ := h.metrics
    rw [hOpens, hC, length_append, length_append]
    omega

theorem Passes.skip (h : Passes e₀ e done acc) (id : NodeId) :
    Passes e₀ e (id :: done) acc :=
  { h with
    untouched := fun n hn => h.untouched n fun hM => hn (.tail _ hM)
    opened := fun a ha => ⟨(h.opened a ha).1, fun n hn => (h.opened a ha).2 n fun hM =>
      hn (.tail _ hM)⟩ }

end

theorem recomputeNode_fails (h : recomputeNode e reader id acc = .error err) :
    (e.graph.nodes[id]?).any Node.isDerived = true := by
  unfold recomputeNode at h
  cases hAt : e.graph.nodes[id]? with
  | none =>
    rw [hAt] at h
    cases h
  | some node =>
    rw [hAt] at h
    cases node with
    | derived => rfl
    | _ => cases h

theorem Passes.recomputeNode (h : Passes e₀ e done acc) (hO : ∀ n ∈ done, e₀.graph.Precedes n id)
    (hOk : Engine.recomputeNode e reader id acc = .ok (changed, e', acc')) : Passes e₀ e' (id :: done) acc' := by
  obtain ⟨-, -, rfl, rfl⟩ | ⟨nd, value, -, -, hS⟩ := recomputeNode_cases h.counted hOk
  · exact h.skip id
  · exact h.recompute hO hS

theorem runRound_passes
    (h : Passes e₀ e done acc) (hS : l.Pairwise e₀.graph.Precedes)
    (h1 : ∀ id ∈ l, ∀ n ∈ done, e₀.graph.Precedes n id) (hReach : ∀ n, n ∈ l ∨ n ∈ done → e₀.graph.Reaches seeds n)
    (hR : runRound reader l e pend acc = (e', res)) :
    (∃ done' acc', Passes e₀ e' done' acc' ∧ ∀ err, res = .error err → ∃ id, e₀.graph.FailsAt seeds done' id) ∧
      ∀ pend' acc', res = .ok (pend', acc') →
      Passes e₀ e' (l.reverse ++ done) acc' ∧
        ∀ n ∈ pend', n ∈ pend ∨ ∃ id ∈ l, (e₀.graph.parentOf id).parent = some n := by
  induction l generalizing e pend done acc with
  | nil =>
    cases hR
    refine ⟨⟨done, acc, h, fun err hE => nomatch hE⟩, fun pend' acc' hE => ?_⟩
    cases hE
    exact ⟨h, fun n hn => .inl hn⟩
  | cons id l ih =>
    obtain ⟨hF, hS⟩ := pairwise_cons.mp hS
    have hm : Passes e₀ { e with metrics := { e.metrics with setsReevaluated := e.metrics.setsReevaluated + 1 } }
        done acc := h.remeasure rfl rfl
    have hL : ∀ o ∈ l, ∀ n ∈ id :: done, e₀.graph.Precedes n o := by
      intro o hX n hM
      rcases mem_cons.mp hM with rfl | hM
      · exact hF o hX
      · exact h1 o (.tail _ hX) n hM
    have hH := h1 id (.head _)
    have hReach' : ∀ n, n ∈ l ∨ n ∈ id :: done → e₀.graph.Reaches seeds n := by
      rintro n (hn | hn)
      · exact hReach n (.inl (.tail _ hn))
      · rcases mem_cons.mp hn with rfl | hn
        · exact hReach n (.inl mem_cons_self)
        · exact hReach n (.inr hn)
    have hl : (id :: l).reverse ++ done = l.reverse ++ id :: done := by simp
    rw [runRound] at hR
    split at hR
    · rename_i er hEr
      cases hR
      refine ⟨⟨done, acc, hm, fun err _ => ⟨id, hReach id (.inl mem_cons_self), ?_, fun n hn => ⟨hH n hn, hReach n (.inr hn)⟩⟩⟩,
        fun _ _ hE => by cases hE⟩
      have hDerived := recomputeNode_fails hEr
      rwa [hm.untouched id fun hI => (hH id hI).ne rfl] at hDerived
    · rename_i next ac ho
      obtain ⟨hs, hA⟩ := ih (hm.recomputeNode hH ho) hS hL hReach' hR
      refine ⟨hs, fun pend' acc' hE => ?_⟩
      obtain ⟨hp, hr⟩ := hA pend' acc' hE
      rw [hl]
      refine ⟨hp, fun n hn => (hr n hn).imp_right ?_⟩
      rintro ⟨ch, hC, hP⟩
      exact ⟨ch, .tail _ hC, hP⟩
    rename_i next ac ho
    have hN : Passes e₀
        { next with metrics := { next.metrics with nodesRecomputed := next.metrics.nodesRecomputed + 1 } } _ _ :=
      (hm.recomputeNode hH ho).remeasure rfl rfl
    obtain ⟨hs, hA⟩ := ih hN hS hL hReach' hR
    refine ⟨hs, fun pend' acc' hE => ?_⟩
    obtain ⟨hp, hr⟩ := hA pend' acc' hE
    rw [hl]
    refine ⟨hp, fun n hn => ?_⟩
    rcases hr n hn with hI | ⟨ch, hC, hP⟩
    · have h2 : next.graph.parentOf id = e₀.graph.parentOf id := by
        rw [Graph.parentOf, (hN.agree id).2, Graph.parentOf]
      rw [h2] at hI
      cases hP : (e₀.graph.parentOf id).parent with
      | none =>
        rw [hP] at hI
        exact .inl hI
      | some pr =>
        rw [hP, elim_some, mem_insert, Std.LawfulEqOrd.compare_eq_iff_eq] at hI
        rcases hI with rfl | hI
        · exact .inr ⟨id, mem_cons_self, hP⟩
        · exact .inl hI
    · exact .inr ⟨ch, .tail _ hC, hP⟩

omit [EventText] in
theorem depthOf_le_maxDepth (g : Graph) (hM : n ∈ pend) :
    g.depthOf n ≤ maxDepth g pend := by
  have hF : ∀ (l : List Nat) (st : Nat), st ≤ l.foldl max st ∧ ∀ d ∈ l, d ≤ l.foldl max st := by
    intro l
    induction l with
    | nil => simp
    | cons d l ih =>
      intro st
      obtain ⟨hS, hA⟩ := ih (max st d)
      rw [foldl_cons]
      refine ⟨by omega, fun o hX => ?_⟩
      rcases mem_cons.mp hX with rfl | hX
      · omega
      · exact hA o hX
  exact (hF _ 0).2 _ (mem_map_of_mem hM)

theorem recomputeRounds_passes (hd : ∀ n p, (e₀.graph.parentOf n).parent = some p →
      e₀.graph.depthOf p < e₀.graph.depthOf n) (h : Passes e₀ e done acc)
    (hA : ∀ n ∈ done, ∀ p ∈ pend, e₀.graph.depthOf p < e₀.graph.depthOf n)
    (hReach : ∀ n, n ∈ pend ∨ n ∈ done → e₀.graph.Reaches seeds n)
    (hR : recomputeRounds reader fuel e pend acc = (e', res)) :
    (∃ done' acc', Passes e₀ e' done' acc' ∧ ∀ err, res = .error err → ∃ id, e₀.graph.FailsAt seeds done' id) ∧
      ∀ acc', res = .ok acc' → ∃ done', Passes e₀ e' done' acc' := by
  induction fuel generalizing e pend done acc with
  | zero =>
    cases hR
    refine ⟨⟨done, acc, h, fun err hE => nomatch hE⟩, fun acc' hE => ?_⟩
    cases hE
    exact ⟨done, h⟩
  | succ fuel ih =>
    have hD : ∀ n, e.graph.depthOf n = e₀.graph.depthOf n := fun n => by
      rw [Graph.depthOf, (h.agree n).2, Graph.depthOf]
    rw [recomputeRounds] at hR
    split at hR
    · cases hR
      refine ⟨⟨done, acc, h, fun err hE => nomatch hE⟩, fun acc' hE => ?_⟩
      cases hE
      exact ⟨done, h⟩
    simp only at hR
    generalize hx : maxDepth e.graph pend.toList = depth at hR
    have hl : (pend.toList.filter fun id => e.graph.depthOf id = depth).Pairwise (· < ·) :=
      (ordered_toList.imp fun h1 => Std.compare_eq_lt.mp h1 : pend.toList.Pairwise (· < ·)).filter _
    have hr : ∀ id ∈ pend.toList.filter (fun id => e.graph.depthOf id = depth),
        id ∈ pend ∧ e₀.graph.depthOf id = depth := by
      intro id hM
      obtain ⟨hi, hE⟩ := mem_filter.mp hM
      exact ⟨Std.ExtTreeSet.mem_toList.mp hi, by rw [← hD]; simpa using hE⟩
    generalize pend.toList.filter (fun id => e.graph.depthOf id = depth) = round at hR hl hr
    have hS := hl.imp_of_mem fun hm hn hI => (.inr ⟨(hr _ hm).2.trans (hr _ hn).2.symm, hI⟩ : e₀.graph.Precedes _ _)
    have ho : ∀ id ∈ round, ∀ n ∈ done, e₀.graph.Precedes n id := fun id hM n hn => .inl (hA n hn id (hr id hM).1)
    have hReach' : ∀ n, n ∈ round ∨ n ∈ done → e₀.graph.Reaches seeds n :=
      fun n hn => hReach n (hn.imp_left fun hM => (hr n hM).1)
    split at hR
    · rename_i st er hN
      cases hR
      obtain ⟨done', acc', hP, hFails⟩ := (runRound_passes h hS ho hReach' hN).1
      exact ⟨⟨done', acc', hP, fun _ _ => hFails er rfl⟩, fun _ hE => by cases hE⟩
    rename_i next pn ac hN
    obtain ⟨hP, h2⟩ := (runRound_passes h hS ho hReach' hN).2 _ _ rfl
    refine ih hP (fun n hn p hp => ?_) (fun n hn => ?_) hR
    case refine_2 =>
      rcases hn with hn | hn
      · rcases h2 n hn with hi | ⟨ch, hC, ha⟩
        · exact hReach n (.inl (Std.ExtTreeSet.mem_filter.mp hi).1)
        · obtain ⟨seed, hSeed, hPath⟩ := hReach ch (.inl (hr ch hC).1)
          exact ⟨seed, hSeed, hPath.tail ha⟩
      · exact hReach' n ((mem_append.mp hn).imp_left List.mem_reverse.mp)
    -- whatever is still pending lies above this round
    have hL : e₀.graph.depthOf p < depth ∧
        ((∃ q ∈ pend, e₀.graph.depthOf q = depth) ∨ p ∈ pend) := by
      rcases h2 p hp with hi | ⟨ch, hC, ha⟩
      · have hK : p ∈ pend ∧ e.graph.depthOf p ≠ depth := by
          simpa [Std.ExtTreeSet.mem_filter] using hi
        have he := depthOf_le_maxDepth e.graph (Std.ExtTreeSet.mem_toList.mpr hK.1)
        refine ⟨?_, .inr hK.1⟩
        rw [← hD]
        omega
      · obtain ⟨hi, hE⟩ := hr ch hC
        have := hd ch p ha
        exact ⟨by omega, .inl ⟨ch, hi, hE⟩⟩
    rcases mem_append.mp hn with hn | hn
    · rw [(hr n (List.mem_reverse.mp hn)).2]
      exact hL.1
    rcases hL.2 with ⟨q, hq, hE⟩ | hi
    · have := hA n hn q hq
      omega
    · exact hA n hn p hi

theorem runRecompute_passes (h : e.Sound) (hR : runRecompute e reader pend = (e', res)) :
    (∃ done acc, Passes e e' done acc ∧ ∀ err, res = .error err → ∃ id, e.graph.FailsAt pend done id) ∧
      ∀ dl, res = .ok dl → ∃ done acc, dl = acc.intoDelta ∧ Passes e e' done acc := by
  obtain ⟨tr, hF⟩ := h.forest
  unfold runRecompute at hR
  generalize hr : recomputeRounds reader (maxDepth e.graph pend.toList + 1) e pend {} = r at hR
  obtain ⟨last, inn⟩ := r
  cases hR
  obtain ⟨⟨done, acc, hP, hFails⟩, hA⟩ := recomputeRounds_passes (fun _ _ => hF.deep) (Passes.start h.counted)
    (by simp) (fun n hn => (⟨n, hn.resolve_right not_mem_nil, .refl⟩ : e.graph.Reaches pend n)) hr
  refine ⟨⟨done, acc, hP, fun err hE => ?_⟩, fun dl hE => ?_⟩
  · cases inn with
    | ok acc => cases hE
    | error er => exact hFails er rfl
  cases inn with
  | error er => cases hE
  | ok acc =>
    cases hE
    obtain ⟨done, hP⟩ := hA acc rfl
    exact ⟨done, acc, rfl, hP⟩

omit [EventText] in
theorem Passes.sound (h : Passes e₀ e done acc) (hs : e₀.Sound) : e.Sound := by
  obtain ⟨tree, hF⟩ := hs.forest
  have hE : ∀ r, e.registered r ↔ e₀.registered r := fun r => by
    rw [registered, h.frame, registered]
  have hS : ∀ n : NodeId, (e.graph.nodes[n]?).isSome = (e₀.graph.nodes[n]?).isSome := fun n => by
    have hP := congrArg Option.isSome (h.agree n).1
    simpa using hP
  refine ⟨h.counted, tree, ⟨fun r hr => ?_, fun r hr => hF.nodup r ((hE r).mp hr), fun r r' n hr hr' =>
    hF.apart r r' n ((hE r).mp hr) ((hE r').mp hr'), fun n hn => ?_, fun n hn => ?_, fun n hn => ?_⟩⟩
  · exact (hF.spans r ((hE r).mp hr)).congr fun n _ => h.agree n
  · rw [hS] at hn
    obtain ⟨r, hr, hM⟩ := hF.covers n hn
    exact ⟨r, (hE r).mpr hr, hM⟩
  · rw [(h.agree n).2] at hn
    rw [hS]
    exact hF.placed n hn
  · rw [hS] at hn
    rw [h.next]
    exact hF.bounded n hn

end

end Engine

end NmpStore.Resolver

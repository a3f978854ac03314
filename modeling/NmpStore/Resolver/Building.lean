import NmpStore.Resolver.Trees

/-! # Building the tree of a query

The nodes of a new query get fresh ids, so nothing that is there changes.
-/

namespace NmpStore.Resolver

namespace Graph

def Bounded (g : Graph) : Prop := ∀ n : Nat, g.nextId < n → g.nodes[n]? = none ∧ g.metas[n]? = none

theorem Spans.append {g : Graph} (h : g.Spans places l)
    (h' : g.Spans places' l') : g.Spans (places ++ places') (l ++ l') := by
  induction h with
  | nil => exact h'
  | node hA hM hL _ _ ih =>
    rw [append_assoc, List.cons_append]
    exact .node hA hM hL ih

end Graph

namespace Engine

structure Grows (e e' : Engine) : Prop where
  frame : e' = { e with graph := e'.graph, reactiveNodes := e'.reactiveNodes }
  next : e.graph.nextId ≤ e'.graph.nextId
  old : ∀ n : Nat, n ≤ e.graph.nextId →
    e'.graph.nodes[n]? = e.graph.nodes[n]? ∧ e'.graph.metas[n]? = e.graph.metas[n]?
  bounded : e'.graph.Bounded

variable {e : Engine}

theorem Grows.refl (h : e.graph.Bounded) : Grows e e := ⟨rfl, le_rfl, fun _ _ => ⟨rfl, rfl⟩, h⟩

theorem Grows.trans {e e' e'' : Engine} (h : Grows e e') (h' : Grows e' e'') : Grows e e'' where
  frame := by rw [h'.frame, h.frame]
  next := h.next.trans h'.next
  old n hn := by
    obtain ⟨hN, hM⟩ := h'.old n (hn.trans h.next)
    rw [hN, hM]
    exact h.old n hn
  bounded := h'.bounded

structure Plants (e e' : Engine) (places : List Place) : Prop extends Grows e e' where
  spans : ∃ l, e'.graph.Spans places l ∧ l.Nodup ∧ ∀ n : Nat, n ∈ l ↔ e.graph.nextId < n ∧ (e'.graph.nodes[n]?).isSome
  placed : ∀ n : Nat, e.graph.nextId < n → (e'.graph.metas[n]?).isSome → (e'.graph.nodes[n]?).isSome

theorem Plants.nil (h : e.graph.Bounded) : Plants e e [] where
  toGrows := .refl h
  spans := ⟨[], .nil, nodup_nil, fun n => by
    simp only [not_mem_nil, false_iff, not_and]
    intro hn
    simp [(h n hn).1]⟩
  placed n hn := by simp [(h n hn).2]

theorem Plants.append {e e' e'' : Engine} {pl pl' : List Place} (h : Plants e e' pl)
    (h' : Plants e' e'' pl') : Plants e e'' (pl ++ pl') := by
  obtain ⟨l, hSpans, hNd, hM⟩ := h.spans
  obtain ⟨l', hSpans', hNd', hM'⟩ := h'.spans
  have hL : ∀ n : Nat, n ∈ l → n ≤ e'.graph.nextId := by
    intro n hn
    by_contra hH
    exact absurd ((hM n).mp hn).2 (by simp [(h.bounded n (by omega)).1])
  have hK : e''.graph.Spans pl l := hSpans.congr fun n hn => by
    obtain ⟨hN, hm⟩ := h'.old n (hL n hn)
    exact ⟨by rw [hN], hm⟩
  refine ⟨h.toGrows.trans h'.toGrows, ⟨l ++ l', hK.append hSpans', ?_, fun n => ?_⟩, fun n hn ht => ?_⟩
  · refine nodup_append.mpr ⟨hNd, hNd', ?_⟩
    rintro a ha b hb rfl
    exact lt_irrefl _ ((hL a ha).trans_lt ((hM' a).mp hb).1)
  · rw [mem_append, hM, hM']
    have hx := h.next
    by_cases hH : e'.graph.nextId < n
    · simp only [hH, true_and, (h.bounded n hH).1, isSome_none, false_eq_true, and_false, false_or]
      exact ⟨fun hS => ⟨by omega, hS⟩, fun hS => hS.2⟩
    · simp [hH, (h'.old n (by omega)).1]
  · by_cases hH : e'.graph.nextId < n
    · exact h'.placed n hH ht
    obtain ⟨hN, hm⟩ := h'.old n (by omega)
    rw [hm] at ht
    rw [hN]
    exact h.placed n hn ht

def allocated (e : Engine) : Engine := { e with graph := { e.graph with nextId := e.graph.nextId + 1 } }

theorem allocated_bounded (h : e.graph.Bounded) : e.allocated.graph.Bounded := fun n hn =>
  h n (Nat.lt_of_succ_lt hn)

theorem Grows.of_allocated {e e' : Engine} (h : Grows e.allocated e') : Grows e e' where
  frame := h.frame
  next := Nat.le_of_succ_le h.next
  old n hn := h.old n (Nat.le_succ_of_le hn)
  bounded := h.bounded

theorem Plants.graft (nd : Node) (parent : ParentLink) (dp : Nat) (reactiveNodes : ExtTreeSet NodeId)
    (h : Plants e.allocated e' (nd.places (e.graph.nextId + 1) (dp + 1))) :
    Plants e { e' with graph := e'.graph.insertNode (e.graph.nextId + 1) nd parent dp, reactiveNodes }
      [(e.graph.nextId + 1, parent, dp)] := by
  generalize hA : ({ e' with
    graph := e'.graph.insertNode (e.graph.nextId + 1) nd parent dp, reactiveNodes } : Engine) = e''
  have hG : e''.graph = e'.graph.insertNode (e.graph.nextId + 1) nd parent dp := by rw [← hA]
  obtain ⟨l, hS, hd, hM⟩ := h.spans
  have hx : e.graph.nextId + 1 ≤ e'.graph.nextId := h.next
  have hD : ∀ n : Nat, e''.graph.nodes[n]? = if e.graph.nextId + 1 = n then some nd else e'.graph.nodes[n]? := by
    intro n
    rw [hG]
    simp [Graph.insertNode]
  have hT : ∀ n : Nat,
      e''.graph.metas[n]? = if e.graph.nextId + 1 = n then some ⟨parent, dp⟩ else e'.graph.metas[n]? := by
    intro n
    rw [hG]
    simp [Graph.insertNode]
  have hH : ∀ n : Nat, n ∈ l → e.graph.nextId + 1 < n := fun n hn => ((hM n).mp hn).1
  have hK : e''.graph.Spans (nd.places (e.graph.nextId + 1) (dp + 1)) l := hS.congr fun n hn => by
    have hN : e.graph.nextId + 1 ≠ n := ne_of_lt (hH n hn)
    exact ⟨by rw [hD, if_neg hN], by rw [hT, if_neg hN]⟩
  refine ⟨⟨?_, ?_, fun n hn => ?_, fun n hn => ?_⟩,
    ⟨l ++ [e.graph.nextId + 1], .node (by rw [hD, if_pos rfl]) (by rw [hT, if_pos rfl]) hK .nil, ?_,
      fun n => ?_⟩, fun n hn hm => ?_⟩
  · rw [← hA, h.of_allocated.frame]
  · rw [hG]
    exact Nat.le_of_succ_le hx
  · have hN : e.graph.nextId + 1 ≠ n := by omega
    rw [hD, hT, if_neg hN, if_neg hN]
    exact h.of_allocated.old n hn
  · have hB : e'.graph.nextId < n := by
      rw [hG] at hn
      exact hn
    have hN : e.graph.nextId + 1 ≠ n := by omega
    rw [hD, hT, if_neg hN, if_neg hN]
    exact h.bounded n hB
  · refine nodup_append.mpr ⟨hd, List.nodup_singleton _, ?_⟩
    rintro a ha b hb rfl
    exact ne_of_lt (hH a ha) (mem_singleton.mp hb).symm
  · rw [mem_append, mem_singleton, hD, hM]
    by_cases hE : e.graph.nextId + 1 = n
    · subst hE
      simp
    have hO : e.graph.nextId < n ↔ e.allocated.graph.nextId < n := by
      change _ ↔ e.graph.nextId + 1 < n
      omega
    simp [hE, Ne.symm hE, hO]
  · rw [hT] at hm
    rw [hD]
    by_cases hE : e.graph.nextId + 1 = n
    · simp [hE]
    · rw [if_neg hE] at hm ⊢
      exact h.placed n (show e.graph.nextId + 1 < n by omega) hm

section

variable [EventText] (reader : StoreReader)

mutual

theorem buildFilterNode_plants (routing : ReadRouting) (authenticateAs : Option PublicKey) (parent : ParentLink)
    (dp : Nat) (fl : Filter) {e e' : Engine} (h : e.graph.Bounded)
    (hR : buildFilterNode e reader routing authenticateAs parent dp fl = (e', res)) :
    Grows e e' ∧ ∀ id, res = .ok id → Plants e e' [(id, parent, dp)] := by
  obtain ⟨base, bound⟩ := fl
  rw [buildFilterNode] at hR
  simp only [Graph.allocId] at hR
  split at hR
  · rename_i st er hF
    cases hR
    exact ⟨(buildFields_plants _ _ bound (allocated_bounded h) hF).1.of_allocated, fun _ hE => by cases hE⟩
  rename_i bl fd hF
  cases hR
  have hP := (buildFields_plants _ _ bound (allocated_bounded h) hF).2 _ rfl
  let dt : FilterNode := { base, bound := fd, routing, authenticateAs }
  have hD := Plants.graft (.filter { dt with cachedAtoms := bl.graph.atomsFor dt }) parent dp
    bl.reactiveNodes (by
      rw [Node.places, Node.children, map_map]
      exact hP)
  refine ⟨hD.toGrows, fun id hE => ?_⟩
  cases hE
  exact hD

theorem buildFields_plants (id : NodeId) (dp : Nat) (fl : BoundFields) {e e' : Engine}
    (h : e.graph.Bounded)
    (hR : buildFields e reader id dp fl = (e', res)) : Grows e e' ∧ ∀ ch, res = .ok ch →
      Plants e e' (ch.map fun chi => (chi.2, .filterField id, dp)) := by
  cases fl with
  | nil =>
    cases hR
    refine ⟨.refl h, fun ch hE => ?_⟩
    cases hE
    exact .nil h
  | cons sl bn rs =>
    rw [buildFields] at hR
    split at hR
    · rename_i st er hF
      cases hR
      exact ⟨(buildBindingNode_plants _ _ bn h hF).1, fun _ hE => by cases hE⟩
    rename_i bl chi hF
    have hP := (buildBindingNode_plants _ _ bn h hF).2 _ rfl
    split at hR
    · rename_i st er hr
      cases hR
      exact ⟨hP.toGrows.trans (buildFields_plants _ _ rs hP.bounded hr).1, fun _ hE => by cases hE⟩
    rename_i later ch hr
    cases hR
    have hB := hP.append ((buildFields_plants _ _ rs hP.bounded hr).2 _ rfl)
    refine ⟨hB.toGrows, fun ch hE => ?_⟩
    cases hE
    exact hB

theorem buildBindingNode_plants (parent : ParentLink) (dp : Nat) (bn : Binding) {e e' : Engine}
    (h : e.graph.Bounded)
    (hR : buildBindingNode e reader parent dp bn = (e', res)) :
    Grows e e' ∧ ∀ id, res = .ok id → Plants e e' [(id, parent, dp)] := by
  cases bn with
  | literal vl =>
    cases hR
    have hD := Plants.graft (.literal (vl.toList.foldl
      (fun set va => ResolvedSet.insertWith set (.scalar va) []) ∅)) parent dp e.reactiveNodes
      (Plants.nil (allocated_bounded h))
    refine ⟨hD.toGrows, fun id hE => ?_⟩
    cases hE
    exact hD
  | reactive fl =>
    rw [buildBindingNode] at hR
    cases hR
    have hD := Plants.graft (.reactive fl (resolveReactive fl e.identity)) parent dp (e.reactiveNodes.insert (e.graph.nextId + 1))
      (Plants.nil (allocated_bounded h))
    refine ⟨hD.toGrows, fun id hE => ?_⟩
    cases hE
    exact hD
  | derived inn pr =>
    rw [buildBindingNode] at hR
    simp only [Graph.allocId] at hR
    split at hR
    · rename_i st er hI
      cases hR
      exact ⟨(buildInner_plants _ _ inn (allocated_bounded h) hI).1.of_allocated, fun _ hE => by cases hE⟩
    rename_i bl chi ca fr hI
    have hP := (buildInner_plants _ _ inn (allocated_bounded h) hI).2 _ rfl
    split at hR
    · cases hR
      exact ⟨hP.toGrows.of_allocated, fun _ hE => by cases hE⟩
    rename_i cc _
    cases hR
    have hD := Plants.graft (.derived chi pr ca fr cc) parent dp bl.reactiveNodes hP
    refine ⟨hD.toGrows, fun id hE => ?_⟩
    cases hE
    exact hD
  | setOp op opr =>
    rw [buildBindingNode] at hR
    simp only [Graph.allocId] at hR
    split at hR
    · rename_i st er ho
      cases hR
      exact ⟨(buildOperands_plants _ _ opr (allocated_bounded h) ho).1.of_allocated, fun _ hE => by cases hE⟩
    rename_i bl ch ho
    cases hR
    have hP := (buildOperands_plants _ _ opr (allocated_bounded h) ho).2 _ rfl
    have hD := Plants.graft (.setOp op ch (resolveSetOp op (ch.map bl.graph.resolvedSetOf))) parent
      dp bl.reactiveNodes (by
      rw [Node.places, Node.children, map_map]
      exact hP)
    refine ⟨hD.toGrows, fun id hE => ?_⟩
    cases hE
    exact hD

theorem buildInner_plants (parent : ParentLink) (dp : Nat) (inn : Demand) {e e' : Engine}
    (h : e.graph.Bounded)
    (hR : buildInner e reader parent dp inn = (e', res)) :
    Grows e e' ∧ ∀ ch, res = .ok ch → Plants e e' [(ch.1, parent, dp)] := by
  obtain ⟨sl, routing, authenticateAs, cache, fr⟩ := inn
  rw [buildInner] at hR
  split at hR
  · rename_i st er hF
    cases hR
    exact ⟨(buildFilterNode_plants _ _ _ _ sl h hF).1, fun _ hE => by cases hE⟩
  rename_i bl ch hF
  cases hR
  have hP := (buildFilterNode_plants _ _ _ _ sl h hF).2 _ rfl
  refine ⟨hP.toGrows, fun _ hE => ?_⟩
  cases hE
  exact hP

theorem buildOperands_plants (parent : ParentLink) (dp : Nat) (op : Operands) {e e' : Engine}
    (h : e.graph.Bounded)
    (hR : buildOperands e reader parent dp op = (e', res)) :
    Grows e e' ∧ ∀ ch, res = .ok ch → Plants e e' (ch.map fun chi => (chi, parent, dp)) := by
  cases op with
  | nil =>
    cases hR
    refine ⟨.refl h, fun ch hE => ?_⟩
    cases hE
    exact .nil h
  | cons fr rs =>
    rw [buildOperands] at hR
    split at hR
    · rename_i st er hF
      cases hR
      exact ⟨(buildBindingNode_plants _ _ fr h hF).1, fun _ hE => by cases hE⟩
    rename_i bl chi hF
    have hP := (buildBindingNode_plants _ _ fr h hF).2 _ rfl
    split at hR
    · rename_i st er hr
      cases hR
      exact ⟨hP.toGrows.trans (buildOperands_plants _ _ rs hP.bounded hr).1, fun _ hE => by cases hE⟩
    rename_i later ch hr
    cases hR
    have hB := hP.append ((buildOperands_plants _ _ rs hP.bounded hr).2 _ rfl)
    refine ⟨hB.toGrows, fun ch hE => ?_⟩
    cases hE
    exact hB

end

end

end Engine

end NmpStore.Resolver

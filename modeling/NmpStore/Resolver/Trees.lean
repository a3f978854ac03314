import NmpStore.Resolver.Counts

/-! # The trees of the graph

The graph is a forest with one tree for each registered root. Every node is one level below its parent.
-/

namespace NmpStore.Resolver

namespace Node

def shape : Node → Node
  | .literal _ => .literal ∅
  | .reactive field _ => .reactive field ∅
  | .derived inner project cache freshness _ => .derived inner project cache freshness ∅
  | .setOp op operands _ => .setOp op operands ∅
  | .filter data => .filter { data with cachedAtoms := ∅ }

variable {node : Node}

theorem children_eq_of_shape {node' : Node} (h : node'.shape = node.shape) (id : NodeId) :
    node'.children id = node.children id := by
  have hS : ∀ node : Node, node.shape.children id = node.children id := by
    intro node
    cases node <;> rfl
  rw [← hS node', h, hS node]

theorem parent_of_child {id ch : NodeId} (h : (ch, link) ∈ node.children id) :
    link.parent = some id := by
  cases node with
  | literal _ => simp [children] at h
  | reactive _ _ => simp [children] at h
  | derived inn _ _ _ _ =>
    obtain ⟨-, rfl⟩ := Prod.mk.inj (mem_singleton.mp h)
    rfl
  | setOp _ op _ =>
    obtain ⟨_, -, hE⟩ := mem_map.mp h
    cases hE
    rfl
  | filter dt =>
    obtain ⟨_, -, hE⟩ := mem_map.mp h
    cases hE
    rfl

end Node

abbrev Place := NodeId × ParentLink × Nat

def Node.places (id : NodeId) (depth : Nat) (node : Node) : List Place :=
  (node.children id).map fun child => (child.1, child.2, depth)

namespace Graph

inductive Spans (g : Graph) : List Place → List NodeId → Prop where
  | nil : Spans g [] []
  | node {id : NodeId} {parent : ParentLink} {depth : Nat} {node : Node} {rest : List Place} {below others : List NodeId}
      (hAt : g.nodes[id]? = some node) (hMeta : g.metas[id]? = some ⟨parent, depth⟩)
      (hBelow : Spans g (node.places id (depth + 1)) below) (hRest : Spans g rest others) :
      Spans g ((id, parent, depth) :: rest) (below ++ id :: others)

variable {g g' : Graph} {l : List NodeId} {n : NodeId}

def AgreeAt (g g' : Graph) (n : NodeId) : Prop :=
  (g'.nodes[n]?).map Node.shape = (g.nodes[n]?).map Node.shape ∧ g'.metas[n]? = g.metas[n]?

theorem Spans.congr (h : g.Spans items l) (hA : ∀ n ∈ l, g.AgreeAt g' n) : g'.Spans items l := by
  induction h with
  | nil => exact .nil
  | @node id pr dp node rs bl ot hAt hMeta _ _ ih ir =>
    obtain ⟨hS, hM⟩ := hA id (by simp)
    rw [hAt, map_some, map_eq_some_iff] at hS
    obtain ⟨node', hAt', hS⟩ := hS
    refine .node hAt' (hM.trans hMeta) ?_ (ir fun n hn => hA n (by simp [hn]))
    rw [Node.places, Node.children_eq_of_shape hS]
    exact ih fun n hn => hA n (by simp [hn])

theorem Spans.there (h : g.Spans items l) (hM : n ∈ l) : (g.nodes[n]?).isSome := by
  induction h with
  | nil => simp at hM
  | node hAt _ _ _ ib ih =>
    rcases mem_append.mp hM with hM | hM
    · exact ib hM
    rcases mem_cons.mp hM with rfl | hM
    · simp [hAt]
    · exact ih hM

theorem Spans.mem_of_place (h : g.Spans items l) (hM : place ∈ items) : place.1 ∈ l := by
  induction h with
  | nil => simp at hM
  | node _ _ _ _ _ ih =>
    rcases mem_cons.mp hM with rfl | hM
    · simp
    · simp [ih hM]

theorem Spans.deep (h : g.Spans items l) (hM : n ∈ l) : ∃ parent depth, g.metas[n]? = some ⟨parent, depth⟩ ∧
      ((n, parent, depth) ∈ items ∨ ∃ p ∈ l, parent.parent = some p ∧ g.depthOf p < depth) := by
  induction h with
  | nil => simp at hM
  | @node id parent depth node rs bl ot hAt hMeta hBelow hRest ib ih =>
    rcases mem_append.mp hM with hM | hM
    · obtain ⟨parent', depth', hA, hP | ⟨p, hp, ha, hD⟩⟩ := ib hM
      · obtain ⟨ch, hC, hE⟩ := mem_map.mp hP
        obtain ⟨rfl, rfl, rfl⟩ : ch.1 = n ∧ ch.2 = parent' ∧ depth + 1 = depth' := by simpa using hE
        refine ⟨_, _, hA, .inr ⟨id, by simp, Node.parent_of_child hC, ?_⟩⟩
        simp [depthOf, hMeta]
      · exact ⟨parent', depth', hA, .inr ⟨p, by simp [hp], ha, hD⟩⟩
    · rcases mem_cons.mp hM with rfl | hM
      · exact ⟨parent, depth, hMeta, .inl (by simp)⟩
      obtain ⟨parent', depth', hA, hP | ⟨p, hp, ha, hD⟩⟩ := ih hM
      · exact ⟨parent', depth', hA, .inl (by simp [hP])⟩
      · exact ⟨parent', depth', hA, .inr ⟨p, by simp [hp], ha, hD⟩⟩

theorem Spans.collect (h : g.Spans items l) (hF : l.length ≤ fuel) :
    (items.flatMap fun pl => g.collectNodeIds fuel pl.1) = l := by
  induction h generalizing fuel with
  | nil => rfl
  | @node id pr dp node rs bl ot hAt _ _ _ ihBelow ih =>
    simp only [length_append, length_cons] at hF
    obtain ⟨fuel, rfl⟩ : ∃ mr, fuel = mr + 1 := ⟨fuel - 1, by omega⟩
    have hH : ((node.children id).flatMap fun ch => g.collectNodeIds fuel ch.1) = bl := by
      rw [← @ihBelow fuel (by omega), Node.places, List.flatMap_map]
    rw [flatMap_cons, ih (by omega), collectNodeIds, hAt]
    simp only
    rw [hH, append_assoc, List.singleton_append]

theorem atomsInStructuralOrder_eq (g : Graph) (fuel : Nat) (id : NodeId) : g.atomsInStructuralOrder fuel id =
    (g.collectNodeIds fuel id).flatMap fun n => (g.atomsOf n).toList := by
  induction fuel generalizing id with
  | zero => rfl
  | succ fuel ih =>
    rw [atomsInStructuralOrder, collectNodeIds]
    cases hAt : g.nodes[id]? with
    | none => rfl
    | some node =>
      simp only [ih, List.flatMap_append, List.flatMap_assoc, flatMap_cons, List.flatMap_nil, append_nil]
      congr 1
      simp [atomsOf, hAt]

end Graph

namespace Engine

def registered (e : Engine) (root : NodeId) : Prop := (e.graphEntries[root]?).isSome

structure Forest (e : Engine) (tree : NodeId → List NodeId) : Prop where
  spans : ∀ r, e.registered r → e.graph.Spans [(r, .root, 0)] (tree r)
  nodup : ∀ r, e.registered r → (tree r).Nodup
  apart : ∀ r r' n, e.registered r → e.registered r' → n ∈ tree r → n ∈ tree r' → r = r'
  covers : ∀ n : NodeId, (e.graph.nodes[n]?).isSome → ∃ r, e.registered r ∧ n ∈ tree r
  placed : ∀ n : NodeId, (e.graph.metas[n]?).isSome → (e.graph.nodes[n]?).isSome
  bounded : ∀ n : NodeId, (e.graph.nodes[n]?).isSome → n ≤ e.graph.nextId

structure Sound (e : Engine) : Prop where
  counted : e.Counted
  forest : ∃ tree, e.Forest tree

variable {e e' : Engine} {tree : NodeId → List NodeId}

theorem Forest.deep (h : e.Forest tree)
    (hP : (e.graph.parentOf n).parent = some p) : e.graph.depthOf p < e.graph.depthOf n := by
  unfold Graph.parentOf at hP
  cases hMeta : e.graph.metas[n]? with
  | none => simp [hMeta, ParentLink.parent] at hP
  | some pl =>
    obtain ⟨r, hr, hM⟩ := h.covers n (h.placed n (by simp [hMeta]))
    obtain ⟨pr, depth, hAt, hp | ⟨q, -, hL, hD⟩⟩ := (h.spans r hr).deep hM
    · obtain ⟨-, rfl, -⟩ : n = r ∧ pr = .root ∧ depth = 0 := by simpa using hp
      simp [hAt, ParentLink.parent] at hP
    rw [hAt] at hP
    obtain rfl : q = p := Option.some.inj (hL.symm.trans (by simpa using hP))
    simpa [Graph.depthOf, hAt] using hD

theorem length_le_of_bounded {l : List NodeId} (hN : l.Nodup) (hb : ∀ n ∈ l, n ≤ bound) :
    l.length ≤ bound + 1 := by
  have hB : l ⊆ List.range (bound + 1) := fun n hn => List.mem_range.mpr (Nat.lt_succ_of_le (hb n hn))
  simpa using (subperm_of_subset hN hB).length_le

theorem Forest.collect (h : e.Forest tree) {r : NodeId} (hr : e.registered r) :
    e.graph.collectNodeIds (e.graph.nextId + 1) r = tree r := by
  have hL := length_le_of_bounded (h.nodup r hr) fun n hn => h.bounded n ((h.spans r hr).there hn)
  simpa using (h.spans r hr).collect hL

structure Withdraws (e e' : Engine) (delta : DemandDelta) : Prop where
  closes : ∃ l : List ContextualAtom, delta = l.map .close ∧ l.Nodup ∧ (∀ a, a ∈ l ↔ 0 < e.count a ∧ e'.count a = 0) ∧
    e'.metrics.atomsClosed = e.metrics.atomsClosed + l.length
  opened : e'.metrics.atomsOpened = e.metrics.atomsOpened
  kept : ∀ n : NodeId, e'.graph.nodes[n]? = none ∨ e'.graph.nodes[n]? = e.graph.nodes[n]?
  le : ∀ a, e'.count a ≤ e.count a
  next : e'.graph.nextId = e.graph.nextId
  sound : e.Sound → e'.Sound

theorem Withdraws.of_same (hG : e'.graph = e.graph) (hA : e'.atoms = e.atoms)
    (hM : e'.metrics = e.metrics) (hS : e.Sound → e'.Sound) : Withdraws e e' [] where
  closes := ⟨[], rfl, nodup_nil, by simp [count, hA]; omega, by simp [hM]⟩
  opened := by rw [hM]
  kept n := .inr (by rw [hG])
  le a := by simp [count, hA]
  next := by rw [hG]
  sound := hS

theorem Withdraws.trans (h : Withdraws e e' delta)
    (h' : Withdraws e' e'' delta') : Withdraws e e'' (delta ++ delta') := by
  obtain ⟨l, rfl, hNd, hCl, hMetrics⟩ := h.closes
  obtain ⟨l', rfl, hNd', hCl', hMetrics'⟩ := h'.closes
  refine ⟨⟨l ++ l', by simp, ?_, fun a => ?_, ?_⟩, h'.opened.trans h.opened, fun n => ?_,
    fun a => (h'.le a).trans (h.le a), h'.next.trans h.next, h'.sound ∘ h.sound⟩
  · refine nodup_append.mpr ⟨hNd, hNd', fun a ha b hb hE => ?_⟩
    subst hE
    have hF := (hCl a).mp ha
    have hT := (hCl' a).mp hb
    omega
  · have hL := h.le a
    have hL' := h'.le a
    rw [mem_append, hCl, hCl']
    omega
  · rw [hMetrics', hMetrics, length_append, Nat.add_assoc]
  · rcases h'.kept n with hN | hS
    · exact .inl hN
    · rw [hS]
      exact h.kept n

theorem Forest.congr (h : e.Forest tree)
    (hN : e'.graph.nodes = e.graph.nodes) (hm : e'.graph.metas = e.graph.metas)
    (hx : e.graph.nextId ≤ e'.graph.nextId) (hR : ∀ r, e'.registered r ↔ e.registered r) : e'.Forest tree where
  spans r hr := (h.spans r ((hR r).mp hr)).congr fun n _ => ⟨by rw [hN], by rw [hm]⟩
  nodup r hr := h.nodup r ((hR r).mp hr)
  apart r r' n hr hr' := h.apart r r' n ((hR r).mp hr) ((hR r').mp hr')
  covers n hn := by
    rw [hN] at hn
    obtain ⟨r, hr, hM⟩ := h.covers n hn
    exact ⟨r, (hR r).mpr hr, hM⟩
  placed := by
    rw [hN, hm]
    exact h.placed
  bounded n hn := by
    rw [hN] at hn
    exact (h.bounded n hn).trans hx

theorem Sound.congr (h : e.Sound) (hn : e'.graph.nodes = e.graph.nodes)
    (hM : e'.graph.metas = e.graph.metas) (hN : e.graph.nextId ≤ e'.graph.nextId) (hA : e'.atoms = e.atoms)
    (hR : ∀ r, e'.registered r ↔ e.registered r) : e'.Sound := by
  obtain ⟨tree, hF⟩ := h.forest
  refine ⟨⟨?_, fun a => ?_⟩, tree, hF.congr hn hM hN hR⟩
  · intro a
    rw [hA]
    exact h.counted.noZero a
  · rw [Graph.holders, hn, count, hA]
    exact h.counted.count a

theorem nextId_removeNodes (g : Graph) (l : List NodeId) : (l.foldl Graph.removeNode g).nextId = g.nextId := by
  induction l generalizing g with
  | nil => rfl
  | cons id l ih =>
    rw [foldl_cons, ih]
    rfl

theorem Forest.without (h : e.Forest tree)
    (ho : e.registered root) (hG : e'.graph = (tree root).foldl Graph.removeNode e.graph)
    (hR : ∀ r, e'.registered r ↔ r ≠ root ∧ e.registered r) : e'.Forest tree := by
  have hN : ∀ n : NodeId, e'.graph.nodes[n]? = if n ∈ tree root then none else e.graph.nodes[n]? := fun n => by
    rw [hG, Graph.get_removeNodes]
  have hm : ∀ n : NodeId, e'.graph.metas[n]? = if n ∈ tree root then none else e.graph.metas[n]? := by
    intro n
    rw [hG]
    generalize tree root = l
    generalize e.graph = g
    induction l generalizing g with
    | nil => simp
    | cons id l ih =>
      rw [foldl_cons, ih]
      simp only [Graph.removeNode, get_erase, mem_cons]
      by_cases hI : id = n
      · simp [hI]
      · simp [hI, Ne.symm hI]
  have hx : e'.graph.nextId = e.graph.nextId := by rw [hG, nextId_removeNodes]
  refine ⟨fun r hr => ?_, fun r hr => h.nodup r ((hR r).mp hr).2, fun r r' n hr hr' => ?_, fun n hn => ?_,
    fun n hn => ?_, fun n hn => ?_⟩
  · obtain ⟨he, hr⟩ := (hR r).mp hr
    refine (h.spans r hr).congr fun n hn => ?_
    have hU : n ∉ tree root := fun hi => he (h.apart r root n hr ho hn hi)
    exact ⟨by rw [hN, if_neg hU], by rw [hm, if_neg hU]⟩
  · exact h.apart r r' n ((hR r).mp hr).2 ((hR r').mp hr').2
  · rw [hN] at hn
    split at hn
    · simp at hn
    rename_i hU
    obtain ⟨r, hr, hM⟩ := h.covers n hn
    exact ⟨r, (hR r).mpr ⟨fun hE => hU (hE ▸ hM), hr⟩, hM⟩
  · rw [hm] at hn
    rw [hN]
    split at hn
    · simp at hn
    rename_i hU
    rw [if_neg hU]
    exact h.placed n hn
  · rw [hN] at hn
    split at hn
    · simp at hn
    · rw [hx]
      exact h.bounded n hn

theorem teardown_withdraws {e : Engine} (h : e.Sound) {ro : NodeId} (hR : e.registered ro) :
    Withdraws e (teardown e ro).1 (teardown e ro).2 := by
  obtain ⟨tree, hF⟩ := h.forest
  have hi := hF.collect hR
  have hT : ∀ n ∈ tree ro, (e.graph.nodes[n]?).isSome := fun n hn => (hF.spans ro hR).there hn
  have hd := hF.nodup ro hR
  let m : Engine := { e with
    graphEntries := e.graphEntries.erase ro
    descriptorToRoot := e.descriptorToRoot.filter fun en => some en.1 ≠ e.graphEntries[ro]?.map GraphEntry.descriptor }
  let am := (tree ro).flatMap fun n => (e.graph.atomsOf n).toList
  have hA : e.graph.atomsInStructuralOrder (e.graph.nextId + 1) ro = am := by
    rw [Graph.atomsInStructuralOrder_eq, hi]
  have hH : ∀ a, ((tree ro).foldl Graph.removeNode e.graph).holders a + am.count a = e.graph.holders a :=
    Graph.holders_removeNodes hd hT
  have hu := unrefAtoms_unrefs am (e := m) (show m.NoZero from h.counted.noZero) {} (fun a => by
    have ha := hH a
    have hC : m.count a = e.graph.holders a := h.counted.count a
    omega)
  have hU : teardown e ro =
      ({ (am.foldl unrefAtom (m, {})).1 with
          graph := (tree ro).foldl Graph.removeNode e.graph
          reactiveNodes := (tree ro).foldl (·.erase ·) (am.foldl unrefAtom (m, {})).1.reactiveNodes },
        (am.foldl unrefAtom (m, {})).2.intoDelta) := by
    have hG : (am.foldl unrefAtom (m, {})).1.graph = e.graph := hu.tallies.graph
    unfold teardown
    simp only
    rw [hA]
    rw [hG, hi]
  rw [hU]
  generalize am.foldl unrefAtom (m, {}) = done at hu ⊢
  obtain ⟨nw, hl, hN, hc⟩ := hu.closes
  have hD : ∀ a, m.count a = e.count a := fun a => rfl
  have hw : ∀ a, done.1.count a = ((tree ro).foldl Graph.removeNode e.graph).holders a := by
    intro a
    have ha := hH a
    have hC := hu.count a
    rw [hD, h.counted.count] at hC
    omega
  have hr : ∀ r, ({ done.1 with
      graph := (tree ro).foldl Graph.removeNode e.graph
      reactiveNodes := (tree ro).foldl (·.erase ·) done.1.reactiveNodes } : Engine).registered r ↔
        r ≠ ro ∧ e.registered r := by
    intro r
    have he : done.1.graphEntries = e.graphEntries.erase ro := by rw [hu.tallies.frame]
    simp only [registered, he, get_erase]
    by_cases hE : ro = r
    · simp [hE]
    · simp [hE, Ne.symm hE]
  refine ⟨⟨nw.reverse, ?_, ?_, fun a => ?_, ?_⟩, ?_, fun n => ?_, fun a => ?_, nextId_removeNodes _ _,
    fun _ => ⟨⟨?_, hw⟩, tree, ?_⟩⟩
  · have hOpens : done.2.opens = [] := hu.opens
    have hL : done.2.closes = nw := hl
    simp [DeltaAcc.intoDelta, hOpens, hL]
  · refine List.nodup_reverse.mpr (List.nodup_iff_count_le_one.mpr fun a => ?_)
    rw [hN]
    split <;> omega
  · have hC := hu.count a
    have ho := hN a
    rw [hD] at hC
    have hM : a ∈ am ↔ 0 < am.count a := count_pos_iff.symm
    rw [List.mem_reverse, ← count_pos_iff, ho]
    change _ ↔ 0 < e.count a ∧ done.1.count a = 0
    by_cases hI : a ∈ am
    · have := hM.mp hI
      simp only [hI, and_true]
      split <;> omega
    · have : am.count a = 0 := List.count_eq_zero.mpr hI
      simp only [hI, and_false, ↓reduceIte]
      omega
  · rw [List.length_reverse]
    exact hc
  · exact hu.opened
  · change ((tree ro).foldl Graph.removeNode e.graph).nodes[n]? = none ∨ _
    rw [Graph.get_removeNodes]
    split
    · exact .inl rfl
    · exact .inr rfl
  · have hC := hu.count a
    rw [hD] at hC
    change done.1.count a ≤ _
    omega
  · exact hu.tallies.noZero h.counted.noZero
  · exact hF.without hR rfl hr

theorem unsubscribeInner_withdraws (h : e.Sound) (id : HandleId) :
    Withdraws e (unsubscribeInner e id).1 (unsubscribeInner e id).2 := by
  unfold unsubscribeInner
  split
  · exact .of_same rfl rfl rfl fun h => h
  rename_i ro hR
  have he : Withdraws e { e with handleToRoot := e.handleToRoot.erase id } [] :=
    .of_same rfl rfl rfl fun h => h.congr rfl rfl (le_rfl) rfl fun _ => .rfl
  simp only
  split
  · exact he
  rename_i en hE
  split
  · refine .of_same rfl rfl rfl fun h => h.congr rfl rfl (le_rfl) rfl fun r => ?_
    simp only [registered, get_insert]
    by_cases hq : ro = r
    · subst hq
      simp [hE]
    · simp [hq]
  · have hG := @teardown_withdraws _ (he.sound h) ro (by simp [registered, hE])
    simpa using he.trans hG

theorem drainPendingDrops_withdraws (h : e.Sound) : Withdraws e (drainPendingDrops e).1 (drainPendingDrops e).2 := by
  have hs : Withdraws e { e with pendingDrops := [] } [] :=
    .of_same rfl rfl rfl fun h => h.congr rfl rfl (le_rfl) rfl fun _ => .rfl
  have hF : ∀ (l : List HandleId) (m : Engine) (dl : DemandDelta), Withdraws e m dl →
      Withdraws e (l.foldl drainStep (m, dl)).1 (l.foldl drainStep (m, dl)).2 := by
    intro l
    induction l with
    | nil => exact fun _ _ hS => hS
    | cons id l ih =>
      intro m dl hS
      rw [foldl_cons]
      exact ih _ _ (hS.trans (unsubscribeInner_withdraws (hS.sound h) id))
  exact hF e.pendingDrops _ _ hs

end Engine

end NmpStore.Resolver

import NmpStore.Resolver.Building
import NmpStore.Resolver.Ingest
import NmpStore.Resolver.Pass

/-! # What the calls do to the demand

Whatever a call closes was demanded before it, whatever it opens is demanded after it, and the atoms that changed sides
are among those.
-/

namespace NmpStore.Resolver

namespace Engine

/-- A node that held the atom is still there, and by the time its turn comes some node holds the atom from then on. -/
def Carries (e e' : Engine) (a : ContextualAtom) : Prop :=
  ∃ n m, e.graph.Holds n a ∧ (e'.graph.nodes[n]?).isSome ∧ e'.graph.Holds m a ∧ (m = n ∨ e'.graph.Precedes m n)

variable {e e' e₁ : Engine} {closes : List ContextualAtom} {tree : NodeId → List NodeId} {l : List NodeId}

theorem Carries.of_kept (hn : e.graph.Holds n a)
    (hK : e'.graph.nodes[n]? = e.graph.nodes[n]?) : Carries e e' a := by
  have hS : e'.graph.Holds n a := by
    rw [Graph.Holds, Graph.atomsOf, hK]
    exact hn
  refine ⟨n, n, hn, ?_, hS, .inl rfl⟩
  by_contra hN
  exact Graph.not_holds_of_none (by simpa using hN) hS

structure Moves (e e' : Engine) (closes opens : List ContextualAtom) : Prop where
  closesNodup : closes.Nodup
  opensNodup : opens.Nodup
  closed : ∀ a, a ∈ closes ↔ 0 < e.count a ∧ ¬Carries e e' a
  opened : ∀ a ∈ opens, 0 < e'.count a
  balance : ∀ a, opens.count a + live (e.count a) = closes.count a + live (e'.count a)
  fresh : ∀ n : Nat, n ≤ e.graph.nextId → e.graph.nodes[n]? = none → e'.graph.nodes[n]? = none
  metrics : e'.metrics.atomsOpened = e.metrics.atomsOpened + opens.length ∧
    e'.metrics.atomsClosed = e.metrics.atomsClosed + closes.length

theorem Counted.carries (h : e.Counted)
    (hK : ∀ n : NodeId, (e.graph.nodes[n]?).isSome → e'.graph.nodes[n]? = e.graph.nodes[n]?) (a : ContextualAtom) :
    a ∈ ([] : List ContextualAtom) ↔ 0 < e.count a ∧ ¬Carries e e' a := by
  refine ⟨fun ha => by simp at ha, fun ⟨hL, hY⟩ => ?_⟩
  rw [h.count, Graph.holders_pos_iff] at hL
  obtain ⟨n, hn⟩ := hL
  refine absurd (Carries.of_kept hn (hK n ?_)) hY
  by_contra hN
  exact Graph.not_holds_of_none (by simpa using hN) hn

theorem Moves.of_same (h : e.Counted) (hN : e'.graph.nodes = e.graph.nodes) (hA : e'.atoms = e.atoms)
    (hM : e'.metrics = e.metrics) : Moves e e' [] [] where
  closesNodup := nodup_nil
  opensNodup := nodup_nil
  closed := h.carries fun n _ => by rw [hN]
  opened a ha := by simp at ha
  balance a := by simp [count, hA]
  fresh n _ hn := by rw [hN, hn]
  metrics := by simp [hM]

theorem Moves.congr (h : Moves e₁ e' closes opens) (hG : e₁.graph = e.graph) (hA : e₁.atoms = e.atoms)
    (ho : e₁.metrics.atomsOpened = e.metrics.atomsOpened)
    (hc : e₁.metrics.atomsClosed = e.metrics.atomsClosed) : Moves e e' closes opens := by
  have hC : ∀ a, e₁.count a = e.count a := fun a => by rw [count, hA, count]
  refine ⟨h.closesNodup, h.opensNodup, fun a => ?_, h.opened, fun a => ?_, ?_, ?_⟩
  · rw [← hC, Carries, ← hG]
    exact h.closed a
  · rw [← hC]
    exact h.balance a
  · rw [← hG]
    exact h.fresh
  · rw [← ho, ← hc]
    exact h.metrics

theorem Passes.moves (h : Passes e₀ e done acc) :
    Moves e₀ e acc.closes.reverse acc.opens where
  closesNodup := List.nodup_reverse.mpr h.closesNodup
  opensNodup := h.opensNodup
  closed a := by
    have ho : ∀ m n, e.graph.Precedes m n ↔ e₀.graph.Precedes m n := fun m n => by
      simp only [Graph.Precedes, Graph.depthOf, (h.agree _).2]
    rw [List.mem_reverse, h.closed]
    refine and_congr_right fun _ => ⟨?_, fun hY n hn m hm hO => hY ⟨n, m, hn, ?_, hO, ?_⟩⟩
    · rintro hL ⟨n, m, hn, -, hO, hm⟩
      exact hL n hn m (by rwa [ho] at hm) hO
    · have hS := congrArg Option.isSome (h.agree n).1
      rw [Option.isSome_map, Option.isSome_map] at hS
      rw [hS]
      by_contra hN
      exact Graph.not_holds_of_none (by simpa using hN) hn
    · rwa [ho]
  opened a ha := (h.opened a ha).1
  balance a := by
    rw [List.count_reverse]
    exact h.balance a
  fresh n _ hN := by
    have hS := (h.agree n).1
    rw [hN, Option.map_none, Option.map_eq_none_iff] at hS
    exact hS
  metrics := by
    rw [List.length_reverse]
    exact h.metrics

theorem Withdraws.then (hs : e.Sound) (h : Withdraws e mid delta) (h' : Moves mid e' closes opens) :
    ∃ l : List ContextualAtom, delta = l.map .close ∧ Moves e e' (l ++ closes) opens := by
  obtain ⟨l, rfl, hd, hCl, hM⟩ := h.closes
  obtain ⟨tree, hF⟩ := hs.forest
  have hT : ∀ n a, e.graph.Holds n a → (e.graph.nodes[n]?).isSome := fun n a hn => by
    by_contra hN
    exact Graph.not_holds_of_none (by simpa using hN) hn
  -- a node that the withdrawal has taken away does not come back
  have ht : ∀ n a, e.graph.Holds n a → (e'.graph.nodes[n]?).isSome → mid.graph.Holds n a := by
    intro n a hn hO
    rcases h.kept n with hN | hS
    · have hG := h'.fresh n (by rw [h.next]; exact hF.bounded n (hT n a hn)) hN
      simp [hG] at hO
    · rw [Graph.Holds, Graph.atomsOf, hS]
      exact hn
  have hW : ∀ n a, mid.graph.Holds n a → e.graph.Holds n a := by
    intro n a hn
    rcases h.kept n with hN | hS
    · exact absurd hn (Graph.not_holds_of_none hN)
    · rw [Graph.Holds, Graph.atomsOf, ← hS]
      exact hn
  have hC : ∀ a, Carries e e' a ↔ Carries mid e' a := by
    intro a
    constructor
    · rintro ⟨n, m, hn, hO, hm⟩
      exact ⟨n, m, ht n a hn hO, hO, hm⟩
    · rintro ⟨n, m, hn, hm⟩
      exact ⟨n, m, hW n a hn, hm⟩
  refine ⟨l, rfl, ⟨?_, h'.opensNodup, fun a => ?_, h'.opened, fun a => ?_, fun n hn hN => ?_, ?_⟩⟩
  · refine nodup_append.mpr ⟨hd, h'.closesNodup, ?_⟩
    rintro a ha b hb rfl
    have hD := ((hCl a).mp ha).2
    have hl := ((h'.closed a).mp hb).1
    omega
  · rw [mem_append, hCl, h'.closed, hC]
    have hL := h.le a
    have h1 : mid.count a = 0 → ¬Carries mid e' a := by
      rintro hD ⟨n, m, hn, -⟩
      have hP := Graph.holders_pos_iff.mpr ⟨n, hn⟩
      rw [← (h.sound hs).counted.count] at hP
      omega
    by_cases hD : mid.count a = 0
    · simp [hD, h1 hD]
    · simp only [hD, and_false, false_or]
      exact and_congr_left fun _ => ⟨fun hP => by omega, fun _ => by omega⟩
  · have hB := h'.balance a
    have hL := h.le a
    have hI := hCl a
    rw [count_append, hd.count]
    unfold live at hB ⊢
    split_ifs at hB ⊢ <;> simp_all <;> omega
  · rcases h.kept n with hg | hS
    · exact h'.fresh n (by rw [h.next]; exact hn) hg
    · exact h'.fresh n (by rw [h.next]; exact hn) (hS.trans hN)
  · obtain ⟨ho', hCl'⟩ := h'.metrics
    have ho := h.opened
    rw [length_append]
    omega

theorem Forest.graph_bounded (h : e.Forest tree) : e.graph.Bounded := by
  intro n hn
  have hN : e.graph.nodes[n]? = none := by
    by_contra hS
    exact absurd (h.bounded n (isSome_iff_ne_none.mpr hS)) (Nat.not_le_of_lt hn)
  refine ⟨hN, ?_⟩
  by_contra hS
  have := h.placed n (isSome_iff_ne_none.mpr hS)
  simp [hN] at this

theorem Forest.root_mem (h : e.Forest tree) (hr : e.registered r) :
    r ∈ tree r := (h.spans r hr).mem_of_place (.head _)

theorem Forest.plant {e₂ : Engine} (h : e.Forest tree)
    (hG : Grows e e₁) (hS : e₁.graph.Spans [(root, .root, 0)] l) (hd : l.Nodup)
    (hM : ∀ n : Nat, n ∈ l ↔ e.graph.nextId < n ∧ (e₁.graph.nodes[n]?).isSome)
    (hP : ∀ n : Nat, e.graph.nextId < n → (e₁.graph.metas[n]?).isSome → (e₁.graph.nodes[n]?).isSome)
    (hg : e₂.graph = e₁.graph) (hR : ∀ r, e₂.registered r ↔ r = root ∨ e.registered r) :
    e₂.Forest (update tree root l) := by
  have ho : root ∈ l := hS.mem_of_place (.head _)
  have hN : ¬e.registered root := by
    intro hO
    have hL := h.bounded root ((h.spans root hO).there (h.root_mem hO))
    have hH := ((hM root).mp ho).1
    exact lt_irrefl _ (hH.trans_le hL)
  have hX : ∀ r, e.registered r → update tree root l r = tree r := fun r hr =>
    update_of_ne (fun hE : r = root => hN (hE ▸ hr)) _ _
  have hL : ∀ r, e.registered r → ∀ n : Nat, n ∈ tree r → n ≤ e.graph.nextId := fun r hr n hn =>
    h.bounded n ((h.spans r hr).there hn)
  refine ⟨fun r hr => ?_, fun r hr => ?_, fun r r' n hr hr' hn hn' => ?_, fun n hn => ?_, fun n hn => ?_, fun n hn => ?_⟩
  · rw [hg]
    rcases (hR r).mp hr with rfl | hr
    · rw [update_self]
      exact hS
    rw [hX r hr]
    refine (h.spans r hr).congr fun n hn => ?_
    obtain ⟨hs, hm⟩ := hG.old n (hL r hr n hn)
    exact ⟨by rw [hs], hm⟩
  · rcases (hR r).mp hr with rfl | hr
    · rw [update_self]
      exact hd
    · rw [hX r hr]
      exact h.nodup r hr
  · rcases (hR r).mp hr with rfl | hr <;> rcases (hR r').mp hr' with rfl | hr'
    · rfl
    · rw [update_self] at hn
      rw [hX r' hr'] at hn'
      exact absurd (hL r' hr' n hn') (Nat.not_le_of_lt ((hM n).mp hn).1)
    · rw [update_self] at hn'
      rw [hX r hr] at hn
      exact absurd (hL r hr n hn) (Nat.not_le_of_lt ((hM n).mp hn').1)
    · rw [hX r hr] at hn
      rw [hX r' hr'] at hn'
      exact h.apart r r' n hr hr' hn hn'
  · rw [hg] at hn
    by_cases hH : e.graph.nextId < n
    · exact ⟨root, (hR root).mpr (.inl rfl), by rw [update_self]; exact (hM n).mpr ⟨hH, hn⟩⟩
    rw [(hG.old n (not_lt.mp hH)).1] at hn
    obtain ⟨r, hr, hI⟩ := h.covers n hn
    exact ⟨r, (hR r).mpr (.inr hr), by rw [hX r hr]; exact hI⟩
  · rw [hg] at hn ⊢
    by_cases hH : e.graph.nextId < n
    · exact hP n hH hn
    obtain ⟨hs, hm⟩ := hG.old n (not_lt.mp hH)
    rw [hm] at hn
    rw [hs]
    exact h.placed n hn
  · rw [hg] at hn ⊢
    by_contra hH
    simp [(hG.bounded n (Nat.lt_of_not_le hH)).1] at hn

theorem holders_planted (hB : e.graph.Bounded) (hG : Grows e e₁) (hN : l.Nodup)
    (hM : ∀ n : Nat, n ∈ l ↔ e.graph.nextId < n ∧ (e₁.graph.nodes[n]?).isSome) (a : ContextualAtom) :
    e₁.graph.holders a = e.graph.holders a + (l.flatMap fun id => (e₁.graph.atomsOf id).toList).count a := by
  have hn : (l.foldl Graph.removeNode e₁.graph).nodes = e.graph.nodes := by
    apply Table.ext
    intro n
    rw [Graph.get_removeNodes]
    by_cases hH : e.graph.nextId < n
    · rw [(hB n hH).1]
      split
      · rfl
      rename_i hU
      by_contra hS
      exact hU ((hM n).mpr ⟨hH, isSome_iff_ne_none.mpr hS⟩)
    · rw [if_neg fun hI => hH ((hM n).mp hI).1, (hG.old n (not_lt.mp hH)).1]
  have hC := Graph.holders_removeNodes hN (g := e₁.graph) (fun id hi => ((hM id).mp hi).2) a
  rw [← hC, Graph.holders, hn, Graph.holders]

theorem discarded {V : Type} {b af : Table NodeId V}
    (hO : ∀ n : Nat, n ≤ checkpoint → af[n]? = b[n]?) (hB : ∀ n : Nat, checkpoint < n → b[n]? = none) :
    af.filter (fun id _ => id ≤ checkpoint) = b := by
  apply Table.ext
  intro n
  rw [get_filter]
  by_cases hL : n ≤ checkpoint
  · rw [hO n hL]
    cases b[n]? <;> simp [hL]
  · rw [hB n (Nat.lt_of_not_le hL)]
    cases af[n]? <;> simp [hL]

theorem Plants.moves {bl : Engine} (h : e.Sound) (hp : Plants e bl [(root, .root, 0)])
    (hR : (e₁.graph.atomsInStructuralOrder (e₁.graph.nextId + 1) root).foldl refAtom (e₁, {}) = (e', acc))
    (hG : e₁.graph = bl.graph) (hA : e₁.atoms = e.atoms) (hm : e₁.metrics = e.metrics)
    (hg : ∀ r, e₁.registered r ↔ r = root ∨ e.registered r) :
    e'.Sound ∧ acc.closes = [] ∧ Moves e e' [] acc.opens := by
  obtain ⟨tree, hF⟩ := h.forest
  obtain ⟨l, hS, hD, hM⟩ := hp.spans
  have hF' := hF.plant hp.toGrows hS hD hM hp.placed hG hg
  have hW : e₁.graph.atomsInStructuralOrder (e₁.graph.nextId + 1) root =
      l.flatMap fun id => (bl.graph.atomsOf id).toList := by
    have hL := hF'.collect ((hg root).mpr (.inl rfl))
    rw [update_self] at hL
    rw [Graph.atomsInStructuralOrder_eq, hL, hG]
  have hr := refAtoms_refs (e₁.graph.atomsInStructuralOrder (e₁.graph.nextId + 1) root) e₁ {}
  rw [hR, hW] at hr
  dsimp only at hr
  obtain ⟨nw, hOpens, hN, ho⟩ := hr.opens
  simp only [nil_append] at hOpens
  have hG' : e'.graph = bl.graph := by rw [hr.tallies.frame, hG]
  have hO : ∀ a, e₁.count a = e.count a := fun a => by rw [count, hA, count]
  have hC := hr.count
  simp only [hO] at hC hN
  have hc : e'.Counted := by
    refine ⟨hr.tallies.noZero ?_, fun a => ?_⟩
    · intro a
      rw [hA]
      exact h.counted.noZero a
    · rw [hC, h.counted.count, hG', holders_planted hF.graph_bounded hp.toGrows hD hM]
  refine ⟨⟨hc, _, hF'.congr ?_ ?_ ?_ fun r => ?_⟩, hr.closes, ?_⟩
  · rw [hG', hG]
  · rw [hG', hG]
  · rw [hG', hG]
  · rw [hr.tallies.frame]
    exact .rfl
  rw [hOpens]
  refine ⟨nodup_nil, ?_, h.counted.carries fun n hn => ?_, fun a ha => ?_, fun a => ?_, fun n hn h1 => ?_, ?_⟩
  · refine List.nodup_iff_count_le_one.mpr fun a => ?_
    rw [hN]
    split <;> omega
  · rw [hG', (hp.old n (hF.bounded n hn)).1]
  · have hP := count_pos_iff.mpr ha
    rw [hN] at hP
    split at hP
    · rename_i hI
      rw [hC]
      exact Nat.add_pos_right _ (count_pos_iff.mpr hI.2)
    · omega
  · have hI := count_pos_iff (a := a) (l := l.flatMap fun id => (bl.graph.atomsOf id).toList)
    rw [hN, hC]
    simp only [← hI, live, count_nil]
    split_ifs <;> omega
  · rw [hG', (hp.old n hn).1]
    exact h1
  · rw [ho, hr.closed, hm]
    simp

section

variable [EventText]

theorem openBranch_moves (h : e.Sound) {rd : StoreReader}
    (hR : openBranch e rd branch = (e', o)) :
    e'.Sound ∧ ∃ op : List ContextualAtom, o.delta = op.map .open ∧ Moves e e' [] op := by
  obtain ⟨tree, hF⟩ := h.forest
  have hB := hF.graph_bounded
  unfold openBranch at hR
  simp only at hR
  split at hR
  · rename_i k ro hd
    cases hR
    refine ⟨h.congr rfl rfl (le_rfl) rfl fun r => ?_, [], rfl, .of_same h.counted rfl rfl rfl⟩
    cases hE : e.graphEntries[ro]? with
    | none => simp [registered]
    | some en =>
      simp only [registered, get_insert]
      by_cases he : ro = r
      · subst he
        simp [hE]
      · simp [he]
  split at hR
  · rename_i st er hb
    cases hR
    have hG := (buildFilterNode_plants rd _ _ _ _ _ (e := { e with nextHandle := e.nextHandle + 1 })
      hB hb).1
    have hN := discarded (fun n hn => (hG.old n hn).1) (fun n hn => (hB n hn).1)
    have hM := discarded (fun n hn => (hG.old n hn).2) (fun n hn => (hB n hn).2)
    have hA : st.atoms = e.atoms := by rw [hG.frame]
    have hm : st.metrics = e.metrics := by rw [hG.frame]
    have hT : st.graphEntries = e.graphEntries := by rw [hG.frame]
    refine ⟨h.congr hN hM hG.next hA fun r => ?_, [], rfl, .of_same h.counted hN hA hm⟩
    simp only [registered, hT]
  rename_i bl ro hb
  have hP := (buildFilterNode_plants rd _ _ _ _ _ (e := { e with nextHandle := e.nextHandle + 1 })
    hB hb).2 _ rfl
  have hT : bl.graphEntries = e.graphEntries := by rw [hP.frame]
  generalize hf : List.foldl refAtom _ _ = opened at hR
  obtain ⟨af, a⟩ := opened
  cases hR
  have hH : Sound { e with nextHandle := e.nextHandle + 1 } := h.congr rfl rfl (le_rfl) rfl fun _ => .rfl
  obtain ⟨hS, hC, hv⟩ := Plants.moves hH hP hf rfl (by rw [hP.frame])
    (by rw [hP.frame]) fun r => by
      simp only [registered, hT, get_insert]
      by_cases he : ro = r
      · simp [he]
      · simp [he, Ne.symm he]
  refine ⟨hS, a.opens, ?_, hv.congr rfl rfl rfl rfl⟩
  rw [SubscribeOutcome.delta, DeltaAcc.intoDelta, hC]
  rfl

end

end Engine

end NmpStore.Resolver

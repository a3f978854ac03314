import NmpStore.Resolver.Engine

/-! # The counts of the atoms

Opening and closing follow the counts: an atom is opened when it is counted for the first time and closed when its last
count goes.
-/

namespace NmpStore.Resolver

namespace Graph

def Holds (g : Graph) (n : NodeId) (a : ContextualAtom) : Prop := a ∈ g.atomsOf n

instance (g : Graph) (n : NodeId) (a : ContextualAtom) : Decidable (g.Holds n a) := inferInstanceAs (Decidable (_ ∈ _))

def holders (g : Graph) (a : ContextualAtom) : Nat := g.nodes.toList.countP fun entry => entry.2.atoms.contains a

variable {g : Graph} {n id : NodeId} {a : ContextualAtom}

theorem holds_of_get (hA : g.nodes[n]? = some node) : g.Holds n a ↔ a ∈ node.atoms := by
  simp [Holds, atomsOf, hA]

theorem not_holds_of_none (hA : g.nodes[n]? = none) : ¬g.Holds n a := by
  simp [Holds, atomsOf, hA]

theorem holders_pos_iff : 0 < g.holders a ↔ ∃ n, g.Holds n a := by
  rw [holders, List.countP_pos_iff]
  constructor
  · rintro ⟨⟨n, nd⟩, hM, hh⟩
    exact ⟨n, (holds_of_get (mem_toList.mp hM)).mpr (by simpa using hh)⟩
  · rintro ⟨n, hH⟩
    cases hA : g.nodes[n]? with
    | none => exact absurd hH (not_holds_of_none hA)
    | some nd => exact ⟨(n, nd), mem_toList.mpr hA, by simpa using (holds_of_get hA).mp hH⟩

theorem nodup_toList (am : ExtTreeSet ContextualAtom) : am.toList.Nodup :=
  Std.ExtTreeSet.distinct_toList.imp fun h hE => h (by rw [hE]; exact Std.ReflOrd.compare_self)

def hit (a : ContextualAtom) (atoms : ExtTreeSet ContextualAtom) : Nat := if a ∈ atoms then 1 else 0

theorem countP_insert (t : Table NodeId Node) (id : NodeId) (n : Node) (a : ContextualAtom) :
    (t.insert id n).toList.countP (fun e => e.2.atoms.contains a) =
      (t.erase id).toList.countP (fun e => e.2.atoms.contains a) + hit a n.atoms := by
  have hE : (t.insert id n).erase id = t.erase id := by
    apply Table.ext
    intro k
    simp only [get_erase, get_insert]
    split <;> rfl
  have hP := Table.toList_erase_perm (t := t.insert id n) (k := id) (v := n) (by simp)
  rw [hP.countP_eq, hE, List.countP_cons]
  simp [hit]

theorem countP_erase {t : Table NodeId Node} (hA : t[id]? = some o) (a : ContextualAtom) :
    t.toList.countP (fun e => e.2.atoms.contains a) =
      (t.erase id).toList.countP (fun e => e.2.atoms.contains a) + hit a o.atoms := by
  rw [(Table.toList_erase_perm hA).countP_eq, List.countP_cons]
  simp [hit]

theorem holders_setNode (hA : g.nodes[id]? = some o) (n : Node)
    (a : ContextualAtom) : (g.setNode id n).holders a + hit a o.atoms = g.holders a + hit a n.atoms := by
  have hN := countP_insert g.nodes id n a
  have hO := countP_erase hA a
  simp only [holders, setNode]
  omega

theorem holders_removeNode (hA : g.nodes[id]? = some node) (a : ContextualAtom) :
    (g.removeNode id).holders a + hit a node.atoms = g.holders a := by
  have hO := countP_erase hA a
  simp only [holders, removeNode]
  omega

theorem get_removeNodes (g : Graph) (l : List NodeId) (n : NodeId) :
    (l.foldl removeNode g).nodes[n]? = if n ∈ l then none else g.nodes[n]? := by
  induction l generalizing g with
  | nil => simp
  | cons id l ih =>
    rw [foldl_cons, ih]
    simp only [removeNode, get_erase, mem_cons]
    by_cases hI : id = n
    · simp [hI]
    · simp [hI, Ne.symm hI]

theorem holders_removeNodes {l : List NodeId} (hN : l.Nodup)
    (hT : ∀ id ∈ l, (g.nodes[id]?).isSome) (a : ContextualAtom) :
    (l.foldl removeNode g).holders a + (l.flatMap fun id => (g.atomsOf id).toList).count a = g.holders a := by
  induction l generalizing g with
  | nil => simp
  | cons id l ih =>
    obtain ⟨hF, hN⟩ := nodup_cons.mp hN
    obtain ⟨nd, hA⟩ := isSome_iff_exists.mp (hT id (.head _))
    have hK : ∀ o ∈ l, (g.removeNode id).nodes[o]? = g.nodes[o]? := by
      intro o hX
      have hn : id ≠ o := fun h => hF (h ▸ hX)
      simp [removeNode, get_erase, hn]
    have hR := ih (g := g.removeNode id) hN (fun o hX => by
      rw [hK o hX]
      exact hT o (.tail _ hX))
    have hS : (l.flatMap fun id' => ((g.removeNode id).atomsOf id').toList) =
        l.flatMap fun id' => (g.atomsOf id').toList := by
      refine List.flatMap_congr fun o hX => ?_
      rw [atomsOf, hK o hX, atomsOf]
    have hC : (g.atomsOf id).toList.count a = hit a nd.atoms := by
      rw [List.Nodup.count (nodup_toList _)]
      simp [hit, atomsOf, hA]
    rw [hS] at hR
    have ho := holders_removeNode hA a
    rw [foldl_cons, flatMap_cons, count_append, hC]
    omega

end Graph

namespace Engine

def count (e : Engine) (a : ContextualAtom) : Nat := e.atoms[a]?.getD 0

def NoZero (e : Engine) : Prop := ∀ a : ContextualAtom, e.atoms[a]? ≠ some 0

variable {e e' : Engine} {a : ContextualAtom}

theorem mem_activeDemand (h : e.NoZero) : a ∈ e.activeDemand ↔ 0 < e.count a := by
  rw [activeDemand, mem_ofList, contains_iff_mem, mem_keys,
    mem_iff_isSome_getElem?]
  have hN := h a
  unfold count
  cases hA : e.atoms[a]? with
  | none => simp
  | some count =>
    rw [hA] at hN
    simp only [isSome_some, getD_some, true_iff]
    exact Nat.pos_of_ne_zero fun hZ => hN (by rw [hZ])

structure Tallies (e : Engine) (e' : Engine) : Prop where
  frame : e' = { e with atoms := e'.atoms, metrics := e'.metrics }
  noZero : e.NoZero → e'.NoZero

theorem Tallies.refl (e : Engine) : e.Tallies e := ⟨rfl, id⟩

theorem Tallies.trans (h : e.Tallies e') (h' : e'.Tallies e'') : e.Tallies e'' where
  frame := by
    rw [h'.frame, h.frame]
  noZero := h'.noZero ∘ h.noZero

theorem Tallies.graph (h : e.Tallies e') : e'.graph = e.graph := by
  rw [h.frame]

structure Refs (e : Engine) (acc : DeltaAcc) (l : List ContextualAtom) (e' : Engine) (acc' : DeltaAcc) : Prop where
  tallies : e.Tallies e'
  count : ∀ a, e'.count a = e.count a + l.count a
  closes : acc'.closes = acc.closes
  opens : ∃ new, acc'.opens = acc.opens ++ new ∧ (∀ a, new.count a = if e.count a = 0 ∧ a ∈ l then 1 else 0) ∧
    e'.metrics.atomsOpened = e.metrics.atomsOpened + new.length
  closed : e'.metrics.atomsClosed = e.metrics.atomsClosed

theorem refAtom_refs (e : Engine) (ac : DeltaAcc) (am : ContextualAtom) :
    Refs e ac [am] (refAtom (e, ac) am).1 (refAtom (e, ac) am).2 := by
  have hZ : ∀ cn : Nat, e.NoZero → ∀ a : ContextualAtom, (e.atoms.insert am (cn + 1))[a]? ≠ some 0 := by
    intro cn h a
    rw [get_insert]
    split
    · simp
    · exact h a
  have hC : ∀ a : ContextualAtom,
      (e.atoms.insert am (e.atoms[am]?.getD 0 + 1))[a]?.getD 0 = e.count a + [am].count a := by
    intro a
    rw [get_insert, List.count_singleton]
    by_cases hE : am = a
    · simp [hE, Engine.count]
    · simp [hE, Engine.count]
  by_cases hN : e.atoms[am]?.getD 0 = 0
  · simp only [refAtom, hN, Nat.zero_add, ↓reduceIte]
    refine ⟨⟨rfl, hZ 0⟩, fun a => ?_, rfl, ⟨[am], rfl, fun a => ?_, rfl⟩, rfl⟩
    · have := hC a
      rw [hN] at this
      exact this
    by_cases hE : am = a
    · subst hE
      simp [Engine.count, hN]
    · simp [hE, Ne.symm hE]
  · have he : e.atoms[am]?.getD 0 + 1 ≠ 1 := by omega
    simp only [refAtom, he, ↓reduceIte]
    refine ⟨⟨rfl, hZ _⟩, hC, rfl, ⟨[], by simp, fun a => ?_, rfl⟩, rfl⟩
    rw [count_nil, if_neg]
    rintro ⟨hn, hM⟩
    obtain rfl := mem_singleton.mp hM
    exact hN hn

theorem refAtoms_refs (l : List ContextualAtom) (e : Engine) (ac : DeltaAcc) :
    Refs e ac l (l.foldl refAtom (e, ac)).1 (l.foldl refAtom (e, ac)).2 := by
  induction l generalizing e ac with
  | nil => exact ⟨.refl e, by simp, rfl, ⟨[], by simp, by simp, rfl⟩, rfl⟩
  | cons atom l ih =>
    have ho := refAtom_refs e ac atom
    have hR := ih (refAtom (e, ac) atom).1 (refAtom (e, ac) atom).2
    rw [foldl_cons]
    obtain ⟨on, hOpens, hO, hOp⟩ := ho.opens
    obtain ⟨rs, hOpens', hr, hOp'⟩ := hR.opens
    refine ⟨ho.tallies.trans hR.tallies, fun a => ?_, hR.closes.trans ho.closes,
      ⟨on ++ rs, ?_, fun a => ?_, ?_⟩, hR.closed.trans ho.closed⟩
    · rw [hR.count, ho.count]
      simp only [List.count_cons, count_nil]
      omega
    · rw [hOpens', hOpens, append_assoc]
    · -- an atom is opened by its first occurrence only
      rw [count_append, hO, hr, ho.count]
      by_cases hE : atom = a
      · subst hE
        by_cases hN : e.count atom = 0 <;> simp [hN]
      · simp [hE, Ne.symm hE]
    · rw [hOp', hOp, length_append, Nat.add_assoc]

structure Unrefs (e : Engine) (acc : DeltaAcc) (l : List ContextualAtom) (e' : Engine) (acc' : DeltaAcc) : Prop where
  tallies : e.Tallies e'
  count : ∀ a, e'.count a + l.count a = e.count a
  opens : acc'.opens = acc.opens
  closes : ∃ new, acc'.closes = acc.closes ++ new ∧ (∀ a, new.count a = if e'.count a = 0 ∧ a ∈ l then 1 else 0) ∧
    e'.metrics.atomsClosed = e.metrics.atomsClosed + new.length
  opened : e'.metrics.atomsOpened = e.metrics.atomsOpened

theorem unrefAtom_unrefs (ac : DeltaAcc) (hP : 0 < e.count atom) :
    Unrefs e ac [atom] (unrefAtom (e, ac) atom).1 (unrefAtom (e, ac) atom).2 := by
  cases hAt : e.atoms[atom]? with
  | none => simp [Engine.count, hAt] at hP
  | some cn =>
    have hC : 0 < cn := by simpa [Engine.count, hAt] using hP
    by_cases hL : cn - 1 = 0
    · have ho : cn = 1 := by omega
      subst ho
      simp only [unrefAtom, hAt, hL, ↓reduceIte]
      have hn : ∀ a : ContextualAtom, (e.atoms.erase atom)[a]?.getD 0 + [atom].count a = e.count a := by
        intro a
        rw [get_erase, List.count_singleton]
        by_cases hE : atom = a
        · subst hE
          simp [Engine.count, hAt]
        · simp [hE, Engine.count]
      refine ⟨⟨rfl, fun h a => ?_⟩, hn, rfl, ⟨[atom], rfl, fun a => ?_, rfl⟩, rfl⟩
      · rw [get_erase]
        split
        · simp
        · exact h a
      · by_cases hE : atom = a
        · subst hE
          simp [Engine.count]
        · simp [hE, Ne.symm hE]
    · simp only [unrefAtom, hAt, hL, ↓reduceIte]
      have hn : ∀ a : ContextualAtom, (e.atoms.insert atom (cn - 1))[a]?.getD 0 + [atom].count a = e.count a := by
        intro a
        rw [get_insert, List.count_singleton]
        by_cases hE : atom = a
        · subst hE
          simp only [↓reduceIte, getD_some, BEq.rfl, Engine.count, hAt]
          omega
        · simp [hE, Engine.count]
      refine ⟨⟨rfl, fun h a => ?_⟩, hn, rfl, ⟨[], by simp, fun a => ?_, rfl⟩, rfl⟩
      · change (e.atoms.insert atom (cn - 1))[a]? ≠ some 0
        rw [get_insert]
        split
        · simpa using hL
        · exact h a
      · rw [count_nil, if_neg]
        rintro ⟨hN, hM⟩
        obtain rfl := mem_singleton.mp hM
        simp only [Engine.count, get_insert, ↓reduceIte, getD_some] at hN
        exact hL hN

theorem unrefAtoms_unrefs (l : List ContextualAtom) (hN : e.NoZero) (ac : DeltaAcc)
    (hE : ∀ a, l.count a ≤ e.count a) :
    Unrefs e ac l (l.foldl unrefAtom (e, ac)).1 (l.foldl unrefAtom (e, ac)).2 := by
  induction l generalizing e ac with
  | nil => exact ⟨.refl e, by simp, rfl, ⟨[], by simp, by simp, rfl⟩, rfl⟩
  | cons atom l ih =>
    have hP : 0 < e.count atom := by
      have := hE atom
      rw [List.count_cons_self] at this
      omega
    have ho := unrefAtom_unrefs ac hP
    have hR := ih (ho.tallies.noZero hN) (unrefAtom (e, ac) atom).2 (fun a => by
      have hA := hE a
      have hn := ho.count a
      simp only [List.count_cons, count_nil] at hA hn
      omega)
    rw [foldl_cons]
    generalize unrefAtom (e, ac) atom = step at ho hR ⊢
    obtain ⟨m, md⟩ := step
    dsimp only at ho hR ⊢
    obtain ⟨on, hCloses, hO, hCl⟩ := ho.closes
    obtain ⟨rs, hCloses', hr, hCl'⟩ := hR.closes
    refine ⟨ho.tallies.trans hR.tallies, fun a => ?_, hR.opens.trans ho.opens,
      ⟨on ++ rs, ?_, fun a => ?_, ?_⟩, hR.opened.trans ho.opened⟩
    · have hF := ho.count a
      have hT := hR.count a
      simp only [List.count_cons, count_nil] at hF ⊢
      omega
    · rw [hCloses', hCloses, append_assoc]
    · -- an atom is closed by its last occurrence only
      have hT := hR.count a
      rw [count_append, hO, hr]
      by_cases hM : a ∈ l
      · have hC := count_pos_iff.mpr hM
        have hY : ¬(m.count a = 0 ∧ a ∈ [atom]) := fun h => by omega
        rw [if_neg hY]
        simp [hM]
      · have hZ := List.count_eq_zero.mpr hM
        have hS : (List.foldl unrefAtom (m, md) l).1.count a = m.count a := by omega
        simp [hM, hS]
    · rw [hCl', hCl, length_append, Nat.add_assoc]

structure Counted (e : Engine) : Prop where
  noZero : e.NoZero
  count : ∀ a, e.count a = e.graph.holders a

end Engine

end NmpStore.Resolver

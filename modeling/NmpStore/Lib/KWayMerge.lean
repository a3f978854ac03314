import Mathlib.Data.List.Sort
import Mathlib.Order.Basic

/-! # Merging sorted streams through a priority queue

Every source is pulled once, then the smallest head is taken out, its source is pulled again and the head is handed to a
visitor that may stop the merge.
-/

namespace KWayMerge

variable {m : Type → Type} {σ α β κ : Type} [LinearOrder κ]

structure Head (α : Type) where
  item : α
  source : Nat

def Head.le (key : α → κ) (a b : Head α) : Prop :=
  key a.item < key b.item ∨ (key a.item = key b.item ∧ a.source ≤ b.source)

instance (key : α → κ) : DecidableRel (Head.le key) := fun a b =>
  inferInstanceAs (Decidable (key a.item < key b.item ∨ (key a.item = key b.item ∧ a.source ≤ b.source)))

theorem Head.le_total (key : α → κ) (a b : Head α) : Head.le key a b ∨ Head.le key b a := by
  rcases lt_trichotomy (key a.item) (key b.item) with h | h | h
  · exact .inl (.inl h)
  · rcases Nat.le_total a.source b.source with hs | hs
    · exact .inl (.inr ⟨h, hs⟩)
    · exact .inr (.inr ⟨h.symm, hs⟩)
  · exact .inr (.inl h)

theorem Head.le_trans (key : α → κ) (hb : Head.le key a b) (hc : Head.le key b c) :
    Head.le key a c := by
  rcases hb with hb | ⟨hb, hs⟩ <;> rcases hc with hc | ⟨hc, ht⟩
  · exact .inl (hb.trans hc)
  · exact .inl (hc ▸ hb)
  · exact .inl (hb ▸ hc)
  · exact .inr ⟨hb.trans hc, hs.trans ht⟩

instance (key : α → κ) : Std.Total (Head.le key) := ⟨Head.le_total key⟩
instance (key : α → κ) : IsTrans (Head α) (Head.le key) := ⟨fun _ _ _ => Head.le_trans key⟩

variable {key : α → κ}

theorem Head.key_le (h : Head.le key a b) : key a.item ≤ key b.item := by
  rcases h with h | ⟨h, -⟩
  · exact h.le
  · exact h.le

def push (key : α → κ) (h : Head α) (heap : List (Head α)) : List (Head α) :=
  heap.orderedInsert (Head.le key) h

section Loops

variable [Monad m] (next : σ → m (Option α × σ)) (key : α → κ)

def pull (heap : List (Head α)) (sources : List σ) (i : Nat) : m (List (Head α) × List σ) :=
  match sources[i]? with
  | none => pure (heap, sources)
  | some s => do
    let (item, s) ← next s
    match item with
    | none => pure (heap, sources.set i s)
    | some a => pure (push key ⟨a, i⟩ heap, sources.set i s)

def fill (sources : List σ) : m (List (Head α) × List σ) :=
  (List.range sources.length).foldlM (fun (heap, sources) i => pull next key heap sources i) ([], sources)

def drain (visit : α → β → m (ForInStep β)) : Nat → List (Head α) → List σ → β → m β
  | 0, _, _, acc => pure acc
  | _ + 1, [], _, acc => pure acc
  | fuel + 1, h :: heap, sources, acc => do
    let (heap, sources) ← pull next key heap sources h.source
    match ← visit h.item acc with
    | .done acc => pure acc
    | .yield acc => drain visit fuel heap sources acc

def merge (visit : α → β → m (ForInStep β)) (fuel : Nat) (sources : List σ) (acc : β) : m β := do
  let (heap, sources) ← fill next key sources
  drain next key visit fuel heap sources acc

/-- `Den s l` is kept by `next`: the source state `s` gives the items of `l` in order, then nothing. -/
def Streams (Den : σ → List α → Prop) : Prop :=
  ∀ s l, Den s l → ∃ s', next s = pure (l.head?, s') ∧ Den s' l.tail

end Loops

/-- The queue invariant: every stream is in order and not before the heads pulled from it,
and a source counted as `pulled` that has no head in the queue is exhausted. -/
structure Merging (key : α → κ) (pulled : Nat → Prop) (heap : List (Head α)) (streams : List (List α)) : Prop where
  sorted : heap.Pairwise (Head.le key)
  streamSorted : ∀ l ∈ streams, l.Pairwise (fun a b => key a ≤ key b)
  valid : ∀ h ∈ heap, h.source < streams.length
  headFirst : ∀ h ∈ heap, ∀ l, streams[h.source]? = some l → ∀ b ∈ l, key h.item ≤ key b
  queued : ∀ i l, pulled i → streams[i]? = some l → l = [] ∨ ∃ h ∈ heap, h.source = i

def pushHead (key : α → κ) (i : Nat) (heap : List (Head α)) : List α → List (Head α)
  | [] => heap
  | a :: _ => push key ⟨a, i⟩ heap

variable {heap : List (Head α)}

theorem mem_push : g ∈ push key h heap ↔ g = h ∨ g ∈ heap := by
  simp [push, List.mem_orderedInsert]

variable {l : List α} {i : Nat}

theorem mem_pushHead :
    g ∈ pushHead key i heap l ↔ (∃ a, l.head? = some a ∧ g = ⟨a, i⟩) ∨ g ∈ heap := by
  cases l with
  | nil => simp [pushHead]
  | cons a l => simp [pushHead, mem_push]

theorem pushHead_perm (key : α → κ) (i : Nat) (heap : List (Head α)) (l : List α) :
    ((pushHead key i heap l).map Head.item ++ l.tail).Perm (heap.map Head.item ++ l) := by
  cases l with
  | nil => simp [pushHead]
  | cons a l =>
    have h := (List.perm_orderedInsert (Head.le key) ⟨a, i⟩ heap).map Head.item
    calc ((push key ⟨a, i⟩ heap).map Head.item ++ l).Perm (a :: heap.map Head.item ++ l) := h.append_right l
      _ |>.Perm (heap.map Head.item ++ a :: l) := by simpa using List.perm_middle.symm

variable {streams : List (List α)} {Den : σ → List α → Prop} {sources : List σ} {next : σ → m (Option α × σ)}

theorem pull_eq [Monad m] [LawfulMonad m] (hN : Streams next Den) (key : α → κ)
    (h : List.Forall₂ Den sources streams) (heap : List (Head α)) (hl : streams[i]? = some l) :
    ∃ sources', pull next key heap sources i = pure (pushHead key i heap l, sources') ∧
      List.Forall₂ Den sources' (streams.set i l.tail) := by
  obtain ⟨s, hs⟩ : ∃ s, sources[i]? = some s := by
    have hi := (List.getElem?_eq_some_iff.mp hl).1
    exact ⟨_, List.getElem?_eq_getElem (h.length_eq ▸ hi)⟩
  have hD : Den s l := by
    obtain ⟨hi, rfl⟩ := List.getElem?_eq_some_iff.mp hs
    obtain ⟨hj, rfl⟩ := List.getElem?_eq_some_iff.mp hl
    exact h.get hi hj
  obtain ⟨s', hs', hT⟩ := hN s l hD
  refine ⟨sources.set i s', ?_, ?_⟩
  · cases l <;> simp [pull, hs, hs', pushHead]
  rw [List.forall₂_iff_get] at h ⊢
  refine ⟨by simpa using h.1, fun j hj hj' => ?_⟩
  by_cases hij : i = j
  · subst hij
    simpa using hT
  · simpa [List.getElem_set, hij] using h.2 j (by simpa using hj) (by simpa using hj')

theorem Merging.pull {pl : Nat → Prop} (h : Merging key pl heap streams) (hl : streams[i]? = some l) :
    Merging key (fun j => pl j ∨ j = i) (pushHead key i heap l) (streams.set i l.tail) where
  sorted := by
    cases l with
    | nil => exact h.sorted
    | cons a l => exact h.sorted.orderedInsert _ _
  streamSorted := by
    intro l' hl'
    rcases List.mem_or_eq_of_mem_set hl' with hl' | rfl
    · exact h.streamSorted l' hl'
    · exact (h.streamSorted l (List.mem_of_getElem? hl)).tail
  valid := by
    intro g hg
    rw [List.length_set]
    rcases mem_pushHead.mp hg with ⟨a, -, rfl⟩ | hg
    · exact (List.getElem?_eq_some_iff.mp hl).1
    · exact h.valid g hg
  headFirst := by
    intro g hg l' hl' b hb
    have hi := (List.getElem?_eq_some_iff.mp hl).1
    by_cases hgi : g.source = i
    · rw [hgi, List.getElem?_set_self hi] at hl'
      cases hl'
      rcases mem_pushHead.mp hg with ⟨a, ha, rfl⟩ | hg
      · cases l with
        | nil => cases ha
        | cons c l =>
          cases ha
          exact (List.pairwise_cons.mp (h.streamSorted _ (List.mem_of_getElem? hl))).1 b hb
      · exact h.headFirst g hg l (hgi ▸ hl) b (List.mem_of_mem_tail hb)
    · rw [List.getElem?_set_ne (Ne.symm hgi)] at hl'
      rcases mem_pushHead.mp hg with ⟨a, -, rfl⟩ | hg
      · exact absurd rfl hgi
      · exact h.headFirst g hg l' hl' b hb
  queued := by
    intro j l' hj hl'
    have hi := (List.getElem?_eq_some_iff.mp hl).1
    by_cases hji : j = i
    · subst hji
      cases l with
      | nil =>
        rw [List.getElem?_set_self hi] at hl'
        exact .inl (Option.some.inj hl').symm
      | cons a l => exact .inr ⟨⟨a, j⟩, mem_push.mpr (.inl rfl), rfl⟩
    · rw [List.getElem?_set_ne (Ne.symm hji)] at hl'
      rcases h.queued j l' (hj.resolve_right hji) hl' with h' | ⟨g, hg, hgj⟩
      · exact .inl h'
      · exact .inr ⟨g, mem_pushHead.mpr (.inr hg), hgj⟩

theorem Merging.pop (hm : Merging key (fun _ => True) (h :: heap) streams) :
    Merging key (fun j => j ≠ h.source) heap streams where
  sorted := (List.pairwise_cons.mp hm.sorted).2
  streamSorted := hm.streamSorted
  valid g hg := hm.valid g (.tail _ hg)
  headFirst g hg := hm.headFirst g (.tail _ hg)
  queued i l hi hl := by
    rcases hm.queued i l trivial hl with h' | ⟨g, hg, rfl⟩
    · exact .inl h'
    rcases List.mem_cons.mp hg with rfl | hg
    · exact absurd rfl hi
    · exact .inr ⟨g, hg, rfl⟩

theorem Merging.first_le
    (hm : Merging key (fun _ => True) (h :: heap) streams)
    (ha : a ∈ heap.map Head.item ++ streams.flatten) : key h.item ≤ key a := by
  have hH := (List.pairwise_cons.mp hm.sorted).1
  rcases List.mem_append.mp ha with ha | ha
  · obtain ⟨g, hg, rfl⟩ := List.mem_map.mp ha
    exact Head.key_le (hH g hg)
  obtain ⟨l, hl, ha⟩ := List.mem_flatten.mp ha
  obtain ⟨i, hi⟩ := List.mem_iff_getElem?.mp hl
  rcases hm.queued i l trivial hi with rfl | ⟨g, hg, rfl⟩
  · cases ha
  have hga := hm.headFirst g hg l hi a ha
  rcases List.mem_cons.mp hg with rfl | hg
  · exact hga
  · exact (Head.key_le (hH g hg)).trans hga

theorem flatten_set_perm (hl : streams[i]? = some l)
    (l' : List α) : ∃ rs, streams.flatten.Perm (l ++ rs) ∧ (streams.set i l').flatten.Perm (l' ++ rs) := by
  obtain ⟨hi, rfl⟩ := List.getElem?_eq_some_iff.mp hl
  refine ⟨(streams.take i).flatten ++ (streams.drop (i + 1)).flatten, ?_, ?_⟩
  · nth_rewrite 1 [← List.take_append_drop i streams]
    rw [← List.getElem_cons_drop hi, List.flatten_append, List.flatten_cons, ← List.append_assoc,
      ← List.append_assoc]
    exact List.perm_append_comm.append_right _
  · rw [List.set_eq_take_append_cons_drop, if_pos hi, List.flatten_append, List.flatten_cons,
      ← List.append_assoc, ← List.append_assoc]
    exact List.perm_append_comm.append_right _

theorem pull_perm (key : α → κ) (heap : List (Head α))
    (hl : streams[i]? = some l) : ((pushHead key i heap l).map Head.item ++ (streams.set i l.tail).flatten).Perm
      (heap.map Head.item ++ streams.flatten) := by
  obtain ⟨rs, hO, hN⟩ := flatten_set_perm hl l.tail
  have hP := (pushHead_perm key i heap l).append_right rs
  simp only [List.append_assoc] at hP
  exact (hN.append_left _).trans (hP.trans (hO.append_left _).symm)

theorem drain_eq_forIn [Monad m] [LawfulMonad m] (hN : Streams next Den) (key : α → κ) (fuel : Nat)
    (hD : List.Forall₂ Den sources streams) (hm : Merging key (fun _ => True) heap streams)
    (hF : heap.length + streams.flatten.length ≤ fuel) :
    ∃ o : List α, o.Perm (heap.map Head.item ++ streams.flatten) ∧ o.Pairwise (fun a b => key a ≤ key b) ∧
      ∀ {β : Type} (vs : α → β → m (ForInStep β)) (ac : β),
        drain next key vs fuel heap sources ac = forIn o ac vs := by
  induction fuel generalizing heap sources streams with
  | zero =>
    obtain rfl : heap = [] := List.eq_nil_of_length_eq_zero (by omega)
    have hZ : streams.flatten = [] := List.eq_nil_of_length_eq_zero (by omega)
    exact ⟨[], by simp [hZ], List.Pairwise.nil, fun vs ac => by simp [drain]⟩
  | succ fuel ih =>
    cases heap with
    | nil =>
      -- no head is queued, so every stream is exhausted
      have hZ : streams.flatten = [] := by
        rw [List.flatten_eq_nil_iff]
        intro l hl
        obtain ⟨i, hi⟩ := List.mem_iff_getElem?.mp hl
        rcases hm.queued i l trivial hi with h | ⟨g, hg, -⟩
        · exact h
        · cases hg
      exact ⟨[], by simp [hZ], List.Pairwise.nil, fun vs ac => by simp [drain]⟩
    | cons h heap =>
      have hl := List.getElem?_eq_getElem (hm.valid h (.head _))
      obtain ⟨sources', hu, hD'⟩ := pull_eq hN key hD heap hl
      have hP := pull_perm key heap hl
      have hm' : Merging key (fun _ => True) (pushHead key h.source heap _) _ :=
        (show (fun j => j ≠ h.source ∨ j = h.source) = fun _ => True by
          funext j; simp [ne_or_eq]) ▸ hm.pop.pull hl
      obtain ⟨o, hU, hS, hp⟩ := ih hD' hm' (by
        have hL := hP.length_eq
        simp only [List.length_append, List.length_map, List.length_cons] at hL hF ⊢
        omega)
      refine ⟨h.item :: o, (hU.trans hP).cons h.item, ?_, fun vs ac => ?_⟩
      · refine List.pairwise_cons.mpr ⟨fun a ha => ?_, hS⟩
        exact hm.first_le (hP.subset (hU.subset ha))
      simp only [drain, hu, pure_bind, List.forIn_cons]
      refine bind_congr fun st => ?_
      cases st with
      | done ac => rfl
      | yield ac => exact hp vs ac

theorem fill_eq [Monad m] [LawfulMonad m] (hN : Streams next Den) (key : α → κ)
    (hDen : List.Forall₂ Den sources streams) (hS : ∀ l ∈ streams, l.Pairwise (fun a b => key a ≤ key b)) :
    ∃ heap sources' streams', fill next key sources = pure (heap, sources') ∧
      List.Forall₂ Den sources' streams' ∧ Merging key (fun _ => True) heap streams' ∧
      (heap.map Head.item ++ streams'.flatten).Perm streams.flatten := by
  have hp : ∀ k ≤ streams.length, ∃ heap sources' streams',
      (List.range k).foldlM (fun (heap, sources) i => pull next key heap sources i)
        (([], sources) : List (Head α) × List σ) = pure (heap, sources') ∧
      List.Forall₂ Den sources' streams' ∧ streams'.length = streams.length ∧
      Merging key (fun j => j < k) heap streams' ∧
      (heap.map Head.item ++ streams'.flatten).Perm streams.flatten := by
    intro k
    induction k with
    | zero =>
      intro _
      exact ⟨[], sources, streams, by simp, hDen, rfl,
        ⟨List.Pairwise.nil, hS, by simp, by simp, by simp⟩, by simp⟩
    | succ k ih =>
      intro hk
      obtain ⟨heap, sources', streams', hF, hDen', hL, hm, hP⟩ := ih (by omega)
      have hl := List.getElem?_eq_getElem (show k < streams'.length by omega)
      obtain ⟨sources'', hU, hDen''⟩ := pull_eq hN key hDen' heap hl
      refine ⟨_, sources'', _, ?_, hDen'', by simpa using hL, ?_, (pull_perm key heap hl).trans hP⟩
      · simp [List.range_succ, hF, hU]
      have h := hm.pull hl
      have h1 : (fun j => j < k ∨ j = k) = fun j => j < k + 1 := by
        funext j
        exact propext (by omega)
      exact h1 ▸ h
  obtain ⟨heap, sources', streams', hF, hDen', hL, hm, hP⟩ := hp streams.length le_rfl
  refine ⟨heap, sources', streams', ?_, hDen', ⟨hm.sorted, hm.streamSorted, hm.valid, hm.headFirst, ?_⟩, hP⟩
  · rw [fill, hDen.length_eq]
    exact hF
  · intro i l _ hl
    exact hm.queued i l (hL ▸ (List.getElem?_eq_some_iff.mp hl).1) hl

theorem merge_eq_forIn [Monad m] [LawfulMonad m] (hN : Streams next Den) (key : α → κ)
    (hD : List.Forall₂ Den sources streams) (hS : ∀ l ∈ streams, l.Pairwise (fun a b => key a ≤ key b))
    (hF : streams.flatten.length ≤ fuel) :
    ∃ o : List α, o.Perm streams.flatten ∧ o.Pairwise (fun a b => key a ≤ key b) ∧
      ∀ {β : Type} (vs : α → β → m (ForInStep β)) (ac : β),
        merge next key vs fuel sources ac = forIn o ac vs := by
  obtain ⟨heap, sources', streams', hf, hD', hm, hP⟩ := fill_eq hN key hD hS
  have hL := hP.length_eq
  simp only [List.length_append, List.length_map] at hL
  obtain ⟨o, hU, hS', hl⟩ := drain_eq_forIn hN key fuel hD' hm (by omega)
  refine ⟨o, hU.trans hP, hS', fun vs ac => ?_⟩
  simp only [merge, hf, pure_bind]
  exact hl vs ac

end KWayMerge

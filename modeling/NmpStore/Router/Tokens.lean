import NmpStore.Router.Wire

/-! # What an assignment gives

No earlier request is claimed twice, be it kept or replaced, and no token is minted twice.
-/

namespace NmpStore.Routing

open Resolver (ConcreteFilter)

theorem pickBest_mem {α : Type} {bt : α → α → Bool} {cn : List α} {a : α}
    (h : pickBest bt cn = some a) : a ∈ cn := by
  have hF : ∀ f : Option α → α → Option α, (∀ b c, f b c = some c ∨ f b c = b) →
      ∀ (l : List α) b, l.foldl f b = some a → b = some a ∨ a ∈ l := by
    intro f hf l
    induction l with
    | nil => exact fun _ h => .inl h
    | cons c l ih =>
      intro b h
      rcases ih _ h with hN | hL
      · rcases hf b c with hb | hb
        · cases hb.symm.trans hN
          exact .inr (.head _)
        · exact .inl (hb.symm.trans hN)
      · exact .inr (.tail _ hL)
  refine (hF _ (fun b c => ?_) cn none h).resolve_left (by simp)
  cases b with
  | none => exact .inl rfl
  | some b =>
    dsimp only
    split
    · exact .inl rfl
    · exact .inr rfl

def Assignment.Claims (a : Assignment) (prior : SubId) : Prop := a.subId = prior ∨ a.predecessor = some prior

/-- The filter keeps the name it had, or has got a fresh one and may replace an earlier request. -/
def Given (start stop : Nat) (priors : List (ConcreteFilter × SubId)) (filter : ConcreteFilter) (a : Assignment) : Prop :=
  (a.predecessor = none ∧ (filter, a.subId) ∈ priors) ∨
    (start ≤ a.subId.mint ∧ a.subId.mint < stop ∧ ∀ s, a.predecessor = some s → s ∈ priors.map Prod.snd)

def Apart (priors : List (ConcreteFilter × SubId)) (a b : Assignment) : Prop :=
  a.subId.mint ≠ b.subId.mint ∧ ∀ s ∈ priors.map Prod.snd, a.Claims s → ¬b.Claims s

theorem Given.widen
    (h : Given start stop priors filter a) (hL : stop ≤ stop') : Given start stop' priors filter a :=
  h.imp_right fun ⟨hS, hs, hP⟩ => ⟨hS, hs.trans_le hL, hP⟩

section

variable {i j : Nat} {priors : List (ConcreteFilter × SubId)} {next : List ConcreteFilter} {s : SubId}
  {filter : ConcreteFilter} {a : Assignment} {m : Matching}

structure Matches (start : Nat) (priors : List (ConcreteFilter × SubId)) (next : List ConcreteFilter) (m : Matching) : Prop where
  counter : start ≤ m.counter
  given : ∀ (i : Nat) a, m.out[i]? = some a → ∃ filter, next[i]? = some filter ∧ Given start m.counter priors filter a
  claimed : ∀ (i : Nat) a s, m.out[i]? = some a → s ∈ priors.map Prod.snd → a.Claims s →
    ∃ p ∈ m.taken, (priors.map Prod.snd)[p]? = some s
  apart : ∀ (i j : Nat) a b, i ≠ j → m.out[i]? = some a → m.out[j]? = some b → Apart priors a b

theorem Matches.empty : Matches start priors next { counter := start } where
  counter := le_rfl
  given i a h := by simp at h
  claimed i a s h := by simp at h
  apart i j a b _ h := by simp at h

theorem mint_lt (hBelow : ∀ prior ∈ priors, prior.2.mint < start) (hs : s ∈ priors.map Prod.snd) : s.mint < start := by
  obtain ⟨prior, hI, rfl⟩ := mem_map.mp hs
  exact hBelow prior hI

theorem Given.prior_mem (h : Given start stop priors filter a)
    (s : SubId) (hs : a.predecessor = some s) : s ∈ priors.map Prod.snd := by
  rcases h with ⟨hN, -⟩ | ⟨-, -, hP⟩
  · simp [hN] at hs
  · exact hP s hs

theorem Given.subId_eq (h : Given start stop priors filter a)
    (hB : ∀ s ∈ priors.map Prod.snd, ∀ s' ∈ priors.map Prod.snd, s.mint = s'.mint → s = s')
    (hBelow : ∀ prior ∈ priors, prior.2.mint < start) (hs : s ∈ priors.map Prod.snd)
    (hE : a.subId.mint = s.mint) : a.subId = s := by
  rcases h with ⟨-, hK⟩ | ⟨hS, -, -⟩
  · exact hB _ (mem_map.mpr ⟨_, hK, rfl⟩) _ hs hE
  · have := mint_lt hBelow hs
    omega

theorem Matches.give (h : Matches start priors next m) (hNodup : (priors.map fun prior => prior.2.mint).Nodup)
    (hBelow : ∀ prior ∈ priors, prior.2.mint < start)
    (hf : next[i]? = some filter) {taken : List Nat} {counter : Nat}
    (hT : ∀ p ∈ m.taken, p ∈ taken) (hC : m.counter ≤ counter) (hG : Given start counter priors filter a)
    (hn : (filter, a.subId) ∈ priors ∨ a.subId.mint = m.counter)
    (hl : ∀ s ∈ priors.map Prod.snd, a.Claims s → ∃ p, p ∉ m.taken ∧ p ∈ taken ∧ (priors.map Prod.snd)[p]? = some s) :
    Matches start priors next { taken, out := m.out.insert i a, counter } := by
  have hM : ∀ s ∈ priors.map Prod.snd, s.mint < start := fun s hs => mint_lt hBelow hs
  have hS : (priors.map Prod.snd).Nodup := by
    refine List.Nodup.of_map SubId.mint ?_
    rw [map_map]
    exact hNodup
  -- what was given before claims only what was taken before
  have hF : ∀ (j : Nat) b s, m.out[j]? = some b → s ∈ priors.map Prod.snd → a.Claims s → ¬b.Claims s := by
    intro j b s hb hs ha hbs
    obtain ⟨p, hp, hpTaken, hpt⟩ := hl s hs ha
    obtain ⟨q, hq, hqt⟩ := h.claimed j b s hb hs hbs
    have hE : p = q := (List.getElem?_inj (getElem?_eq_some_iff.mp hpt).1 hS).mp (hpt.trans hqt.symm)
    exact hp (hE ▸ hq)
  have hP : ∀ (j : Nat) b, m.out[j]? = some b → Apart priors a b := by
    intro j b hb
    refine ⟨fun hE => ?_, fun s hs ha => hF j b s hb hs ha⟩
    obtain ⟨o, hX, hb'⟩ := h.given j b hb
    rcases hn with hK | hm
    · have hs : a.subId ∈ priors.map Prod.snd := mem_map.mpr ⟨_, hK, rfl⟩
      rcases hb' with ⟨-, hbKept⟩ | ⟨ht, -, -⟩
      · have h1 : (o, b.subId) = (filter, a.subId) := by
          refine inj_on_of_nodup_map hNodup hbKept hK ?_
          exact hE.symm
        have hB : b.subId = a.subId := (Prod.mk.inj h1).2
        exact hF j b a.subId hb hs (.inl rfl) (.inl hB)
      · have := hM _ hs
        omega
    · rcases hb' with ⟨-, hbKept⟩ | ⟨-, hbStop, -⟩
      · have hL : b.subId.mint < start := hM _ (mem_map.mpr ⟨_, hbKept, rfl⟩)
        have := h.counter
        omega
      · omega
  refine ⟨h.counter.trans hC, fun j b hb => ?_, fun j b s hb hs hbs => ?_, fun j k b c hN hb hc => ?_⟩
  · rcases insert_some.mp hb with ⟨hE, rfl⟩ | ⟨-, hb⟩
    · exact ⟨filter, hE ▸ hf, hG⟩
    · obtain ⟨o, hX, hb'⟩ := h.given j b hb
      exact ⟨o, hX, hb'.widen hC⟩
  · rcases insert_some.mp hb with ⟨-, rfl⟩ | ⟨-, hb⟩
    · obtain ⟨p, -, hp, hA⟩ := hl s hs hbs
      exact ⟨p, hp, hA⟩
    · obtain ⟨p, hp, hA⟩ := h.claimed j b s hb hs hbs
      exact ⟨p, hT p hp, hA⟩
  rw [get_insert] at hb hc
  split at hb
  · rename_i hE
    cases hb
    rw [if_neg fun hE' => hN (hE.symm.trans hE')] at hc
    exact hP k c hc
  split at hc
  · cases hc
    obtain ⟨hm, h2⟩ := hP j b hb
    exact ⟨hm.symm, fun s hs hb hc => h2 s hs hc hb⟩
  · exact h.apart j k b c hN hb hc

theorem zipIdx_sub {prior : (ConcreteFilter × SubId) × Nat} (h : prior ∈ priors.zipIdx) :
    prior.1 ∈ priors ∧ (priors.map Prod.snd)[prior.2]? = some prior.1.2 := by
  have hA : priors[prior.2]? = some prior.1 := List.mem_zipIdx_iff_getElem?.mp h
  exact ⟨mem_of_getElem? hA, by rw [List.getElem?_map, hA]; rfl⟩

section

variable (hNodup : (priors.map fun prior => prior.2.mint).Nodup) (hBelow : ∀ prior ∈ priors, prior.2.mint < start)

include hNodup hBelow

variable {m : Matching} {i : Nat}

theorem keepStep_matches (h : Matches start priors next m) (i : Nat) :
    Matches start priors next (keepStep priors next m i) := by
  unfold keepStep
  simp only
  split
  · rename_i prior hP
    obtain ⟨hI, hF⟩ := mem_filter.mp (pickBest_mem hP)
    obtain ⟨hFree, hf⟩ : prior.2 ∉ m.taken ∧ next[i]? = some prior.1.1 := by simpa using hF
    obtain ⟨hM, hA⟩ := zipIdx_sub hI
    refine h.give hNodup hBelow hf (fun p hp => .tail _ hp) (le_rfl) (.inl ⟨rfl, hM⟩)
      (.inl hM) fun s hs hC => ?_
    rcases hC with hE | hr
    · exact ⟨prior.2, hFree, mem_cons_self, hE ▸ hA⟩
    · cases hr
  · exact h

theorem replaceStep_matches (h : Matches start priors next m) (i : Nat) :
    Matches start priors next (replaceStep ses priors next m i) := by
  unfold replaceStep
  split
  · exact h
  simp only
  split
  · rename_i k prior hP
    obtain ⟨fd, hI, hF⟩ := mem_filterMap.mp (pickBest_mem hP)
    obtain ⟨hZ, hf⟩ := mem_filter.mp hI
    obtain ⟨filter, hL, rfl⟩ : ∃ filter, next[i]? = some filter ∧ fd = prior := by
      cases hA : next[i]? with
      | none => simp [hA] at hF
      | some filter =>
        obtain ⟨_, _, hE⟩ := map_eq_some_iff.mp hF
        exact ⟨filter, rfl, (Prod.mk.inj hE).2⟩
    have hFree : fd.2 ∉ m.taken := by simpa using hf
    obtain ⟨hM, hA⟩ := zipIdx_sub hZ
    have hi : fd.1.2 ∈ priors.map Prod.snd := mem_map.mpr ⟨_, hM, rfl⟩
    refine h.give hNodup hBelow hL (fun p hp => .tail _ hp) (Nat.le_succ _)
      (Or.inr ⟨h.counter, Nat.lt_add_one _, fun s hs => ?_⟩) (Or.inr rfl) fun s hs hC => ?_
    · cases hs
      exact hi
    rcases hC with rfl | hr
    · exact absurd h.counter (Nat.not_le_of_lt (mint_lt hBelow hs))
    · cases hr
      exact ⟨fd.2, hFree, mem_cons_self, hA⟩
  · exact h

theorem mintStep_matches (k : RelaySessionKey) (h : Matches start priors next m) (hi : i < next.length) :
    Matches start priors next (mintStep k m i) := by
  unfold mintStep
  split
  · exact h
  refine h.give hNodup hBelow (getElem?_eq_getElem hi) (fun p hp => hp) (Nat.le_succ _)
    (Or.inr ⟨h.counter, Nat.lt_add_one _, fun s hs => by cases hs⟩) (Or.inr rfl) fun s hs hC => ?_
  rcases hC with rfl | hP
  · exact absurd h.counter (Nat.not_le_of_lt (mint_lt hBelow hs))
  · cases hP

end

theorem mem_canonicalOrder : i ∈ canonicalOrder next ↔ i < next.length := by
  rw [canonicalOrder, List.mem_insertionSort, List.mem_range]

theorem canonicalOrder_nodup : (canonicalOrder next).Nodup :=
  (perm_insertionSort _ _).nodup_iff.mpr List.nodup_range

theorem get_mintStep : ((mintStep k m i).out[j]?).isSome = (decide (i = j) || (m.out[j]?).isSome) := by
  unfold mintStep
  split
  · rename_i hU
    have hS : (m.out[i]?).isSome := by simpa using hU
    by_cases hE : i = j
    · subst hE
      simp [hS]
    · simp [hE]
  · rw [get_insert]
    by_cases hE : i = j <;> simp [hE]

theorem filterMap_range {α : Type} {f : Nat → Option α} (n : Nat) (h : ∀ i < n, (f i).isSome) :
    ((List.range n).filterMap f).length = n ∧ ∀ i < n, ((List.range n).filterMap f)[i]? = f i := by
  induction n with
  | zero => simp
  | succ n ih =>
    obtain ⟨hL, hG⟩ := ih fun i hi => h i (Nat.lt_succ_of_lt hi)
    obtain ⟨a, ha⟩ := isSome_iff_exists.mp (h n (Nat.lt_add_one n))
    rw [List.range_succ, List.filterMap_append, List.filterMap_cons_some ha, List.filterMap_nil]
    refine ⟨by simp [hL], fun i hi => ?_⟩
    rcases Nat.lt_succ_iff_lt_or_eq.mp hi with hl | rfl
    · rw [List.getElem?_append_left (by omega)]
      exact hG i hl
    · rw [List.getElem?_append_right (by omega), hL, ha]
      simp

theorem assign_get (k : RelaySessionKey) (priors : List (ConcreteFilter × SubId)) (next : List ConcreteFilter)
    (start : Nat) : (assign k priors next start).1.length = next.length ∧
      ∀ i < next.length, (assign k priors next start).1[i]? = (matching k priors next start).out[i]? := by
  refine filterMap_range next.length fun i hi => ?_
  have hM : ∀ (l : List Nat) (m : Matching), i ∈ l ∨ (m.out[i]?).isSome →
      ((l.foldl (mintStep k) m).out[i]?).isSome := by
    intro l
    induction l with
    | nil => exact fun m hS => by simpa using hS
    | cons j l ih =>
      intro m hS
      refine ih _ ?_
      rw [get_mintStep]
      rcases hS with hI | hS
      · rcases mem_cons.mp hI with rfl | hI
        · simp
        · exact .inl hI
      · simp [hS]
  exact hM _ _ (.inl (mem_canonicalOrder.mpr hi))

theorem matching_matches (k : RelaySessionKey) (next : List ConcreteFilter)
    (hNodup : (priors.map fun prior => prior.2.mint).Nodup) (hBelow : ∀ prior ∈ priors, prior.2.mint < start) :
    Matches start priors next (matching k priors next start) := by
  have hK : ∀ (l : List Nat) (m : Matching), Matches start priors next m →
      Matches start priors next (l.foldl (keepStep priors next) m) := by
    intro l
    induction l with
    | nil => exact fun _ h => h
    | cons i l ih => exact fun m h => ih _ (keepStep_matches hNodup hBelow h i)
  have hR : ∀ (l : List Nat) (m : Matching), Matches start priors next m →
      Matches start priors next (l.foldl (replaceStep k priors next) m) := by
    intro l
    induction l with
    | nil => exact fun _ h => h
    | cons i l ih => exact fun m h => ih _ (replaceStep_matches hNodup hBelow h i)
  have hM : ∀ (l : List Nat) (m : Matching), (∀ i ∈ l, i < next.length) → Matches start priors next m →
      Matches start priors next (l.foldl (mintStep k) m) := by
    intro l
    induction l with
    | nil => exact fun m _ h => h
    | cons i l ih =>
      intro m hI h
      exact ih _ (fun j hj => hI j (.tail _ hj))
        (mintStep_matches hNodup hBelow k h (hI i (.head _)))
  have hk := hK (canonicalOrder next) _ .empty
  exact hM (canonicalOrder next) _ (fun i hi => mem_canonicalOrder.mp hi) (hR (canonicalOrder next) _ hk)

end

end NmpStore.Routing

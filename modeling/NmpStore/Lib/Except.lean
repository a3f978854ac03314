import Mathlib.Data.List.Forall2
import Mathlib.Tactic.Common

/-! # Successful runs of fallible programs

When a program in the `Except` monad succeeds, each of its steps has succeeded: these lemmas take
such a program apart, over sequencing, error relabelling and loops over a list.
-/

variable {ε ε' α β : Type}

@[simp]
theorem bind_ok {x : Except ε α} {f : α → Except ε β} : (x >>= f) = .ok b ↔ ∃ a, x = .ok a ∧ f a = .ok b := by
  cases x with
  | error e => simp [bind, Except.bind]
  | ok a => simp [bind, Except.bind]

@[simp]
theorem pure_ok {a b : α} : (pure a : Except ε α) = .ok b ↔ a = b := by
  simp [pure, Except.pure]

/-- The rules that take a run apart, down to the parts of a pair that it returns. -/
theorem run_ok : (∀ {ε α β : Type} {x : Except ε α} {f : α → Except ε β} {b : β},
    (x >>= f) = .ok b ↔ ∃ a, x = .ok a ∧ f a = .ok b) ∧ (∀ {ε α : Type} {a b : α}, (pure a : Except ε α) = .ok b ↔ a = b) ∧
    ∀ {α β : Type} {a c : α} {b d : β}, (a, b) = (c, d) ↔ a = c ∧ b = d :=
  ⟨bind_ok, pure_ok, Prod.ext_iff⟩

namespace Except

variable {a : α}

@[simp]
theorem mapError_ok {x : Except ε α} {f : ε → ε'} : x.mapError f = .ok a ↔ x = .ok a := by
  cases x <;> simp [Except.mapError]

@[simp]
theorem map_eq_ok_iff {x : Except ε α} {f : α → β} : f <$> x = .ok b ↔ ∃ a, x = .ok a ∧ f a = b := by
  cases x <;> simp [Functor.map, Except.map]

@[simp]
theorem throw_ok {e : ε} : (throw e : Except ε α) = .ok a ↔ False := by
  simp [throw, throwThe, MonadExceptOf.throw]

def refuseIf (c : Prop) [Decidable c] (e : ε) : Except ε PUnit :=
  if c then throw e else pure ()

@[simp]
theorem refuseIf_ok {c : Prop} [Decidable c] {e : ε} {u : PUnit} : refuseIf c e = .ok u ↔ ¬ c := by
  unfold refuseIf
  split <;> simp_all

variable {l : List α} {r : List β}

theorem mapM_ok {f : α → Except ε β} :
    l.mapM f = .ok r ↔ List.Forall₂ (fun a b => f a = .ok b) l r := by
  induction l generalizing r with
  | nil =>
    rw [List.mapM_nil, pure_ok, List.forall₂_nil_left_iff, eq_comm]
  | cons a l ih =>
    simp only [List.mapM_cons, run_ok]
    constructor
    · rintro ⟨b, hb, bs, hbs, rfl⟩
      exact .cons hb (ih.mp hbs)
    · rintro (_ | ⟨hb, hbs⟩)
      exact ⟨_, hb, _, ih.mpr hbs, rfl⟩

theorem toOption_some {x : Except ε α} : x.toOption = some a ↔ x = .ok a := by
  cases x <;> simp [Except.toOption]

theorem mem_of_mapM_ok {f : α → Except ε β} (h : l.mapM f = .ok r) {b : β} (hM : b ∈ r) :
    ∃ a ∈ l, f a = .ok b := by
  induction mapM_ok.mp h with
  | nil => cases hM
  | cons hF hR ih =>
    rcases List.mem_cons.mp hM with rfl | hX
    · exact ⟨_, List.mem_cons_self, hF⟩
    · obtain ⟨a, ha, hb⟩ := ih (mapM_ok.mpr hR) hX
      exact ⟨a, .tail _ ha, hb⟩

theorem apply_of_mapM_ok {f : α → Except ε β} (h : l.mapM f = .ok r) (hM : a ∈ l) :
    ∃ b, f a = .ok b := by
  induction mapM_ok.mp h with
  | nil => cases hM
  | cons hF hR ih =>
    rcases List.mem_cons.mp hM with rfl | hX
    · exact ⟨_, hF⟩
    · exact ih (mapM_ok.mpr hR) hX

theorem mapM_spec {f : α → Except ε β} {R : α → β → Prop} (h : ∀ a ∈ l, ∃ b, f a = .ok b ∧ R a b) :
    ∃ r, l.mapM f = .ok r ∧ List.Forall₂ R l r := by
  induction l with
  | nil => exact ⟨[], by simp, .nil⟩
  | cons a l ih =>
    obtain ⟨b, hb, hR⟩ := h a (.head _)
    obtain ⟨r, hr, he⟩ := ih fun a' ha' => h a' (.tail _ ha')
    exact ⟨b :: r, by simp [List.mapM_cons, hb, hr], .cons hR he⟩

theorem mapM_progress {f : α → Except ε β} (h : ∀ a ∈ l, ∃ b, f a = .ok b) : ∃ r, l.mapM f = .ok r := by
  obtain ⟨r, hr, -⟩ := mapM_spec (R := fun _ _ => True) fun a ha => (h a ha).imp fun _ hb => ⟨hb, trivial⟩
  exact ⟨r, hr⟩

theorem forM_ok {f : α → Except ε PUnit} : forM l f = .ok () ↔ ∀ a ∈ l, f a = .ok () := by
  induction l with
  | nil => simp [List.forM_nil]
  | cons a l ih =>
    simp only [List.forM_cons, bind_ok, ih, List.mem_cons, forall_eq_or_imp]
    exact ⟨fun ⟨_, ha, hl⟩ => ⟨ha, hl⟩, fun ⟨ha, hl⟩ => ⟨_, ha, hl⟩⟩

variable {f : β → α → Except ε β}

theorem foldlM_induction (P : List α → β → Prop) {b r : β}
    (hI : P [] b) (hS : ∀ done a ac next, done ++ [a] <+: l → P done ac → f ac a = .ok next → P (done ++ [a]) next)
    (h : l.foldlM f b = .ok r) : P l r := by
  suffices hG : ∀ done rs ac, done ++ rs = l → P done ac → rs.foldlM f ac = .ok r → P l r from
    hG [] l b rfl hI h
  intro done rs
  induction rs generalizing done with
  | nil =>
    intro ac hl hP hr
    obtain rfl : ac = r := by simpa using hr
    simpa [← hl] using hP
  | cons a rs ih =>
    intro ac hl hP hr
    obtain ⟨next, hN, hR⟩ := bind_ok.mp (by simpa only [List.foldlM_cons] using hr)
    exact ih (done ++ [a]) next (by simpa using hl) (hS done a ac next ⟨rs, by simpa using hl⟩ hP hN) hR

theorem foldlM_progress (P : List α → β → Prop) {b : β} (hI : P [] b)
    (hS : ∀ done a ac, done ++ [a] <+: l → P done ac → ∃ next, f ac a = .ok next ∧ P (done ++ [a]) next) :
    ∃ r, l.foldlM f b = .ok r ∧ P l r := by
  suffices hG : ∀ done rs ac, done ++ rs = l → P done ac → ∃ r, rs.foldlM f ac = .ok r ∧ P l r from
    hG [] l b rfl hI
  intro done rs
  induction rs generalizing done with
  | nil =>
    intro ac hl hP
    exact ⟨ac, by simp, by simpa [← hl] using hP⟩
  | cons a rs ih =>
    intro ac hl hP
    obtain ⟨next, hN, hP'⟩ := hS done a ac ⟨rs, by simpa using hl⟩ hP
    obtain ⟨r, hr, hp⟩ := ih (done ++ [a]) next (by simpa using hl) hP'
    exact ⟨r, by simp [List.foldlM_cons, hN, hr], hp⟩

end Except

export Except (refuseIf refuseIf_ok mapError_ok toOption_some mapM_ok forM_ok foldlM_induction foldlM_progress)

import Mathlib

namespace Thumb

variable {ε ε' α β : Type}

theorem bind_ok_iff {x : Except ε α} {next : α → Except ε β} {b : β} :
    (x >>= next) = .ok b ↔ ∃ a, x = .ok a ∧ next a = .ok b := by
  cases x with
  | error e => exact ⟨nofun, fun ⟨_, h, _⟩ => nomatch h⟩
  | ok a => exact ⟨fun h => ⟨a, rfl, h⟩, fun ⟨_, ha, h⟩ => by cases ha; exact h⟩

theorem bind_error_iff {x : Except ε α} {next : α → Except ε β} {e : ε} :
    (x >>= next) = .error e ↔ x = .error e ∨ ∃ a, x = .ok a ∧ next a = .error e := by
  cases x with
  | error e' =>
    constructor
    · intro h
      cases h
      exact .inl rfl
    · rintro (h | ⟨_, h, _⟩)
      · cases h
        rfl
      · cases h
  | ok a =>
    constructor
    · intro h
      exact .inr ⟨a, rfl, h⟩
    · rintro (h | ⟨_, ha, h⟩)
      · cases h
      · cases ha
        exact h

theorem map_ok_iff {x : Except ε α} {f : α → β} {b : β} :
    x.map f = .ok b ↔ ∃ a, x = .ok a ∧ f a = b := by
  cases x with
  | error e => exact ⟨nofun, fun ⟨_, h, _⟩ => nomatch h⟩
  | ok a => simp [Except.map]

theorem map_error_iff {x : Except ε α} {f : α → β} {e : ε} : x.map f = .error e ↔ x = .error e := by
  cases x <;> simp [Except.map]

theorem mapError_ok_iff {x : Except ε α} {f : ε → ε'} {a : α} :
    x.mapError f = .ok a ↔ x = .ok a := by
  cases x <;> simp [Except.mapError]

theorem mapError_error_iff {x : Except ε α} {f : ε → ε'} {e : ε'} :
    x.mapError f = .error e ↔ ∃ e', x = .error e' ∧ f e' = e := by
  cases x <;> simp [Except.mapError]

theorem foldlM_of_ok {f : β → α → Except ε β} {g : β → α → β} {l : List α}
    (h : ∀ a ∈ l, ∀ b, f b a = .ok (g b a)) (b : β) : l.foldlM f b = .ok (l.foldl g b) := by
  induction l generalizing b with
  | nil => rfl
  | cons a l ih =>
    obtain ⟨ha, hl⟩ := List.forall_mem_cons.mp h
    rw [List.foldlM_cons, ha b]
    exact ih hl (g b a)

theorem foldlM_getElem? {f : β → α → Except ε β} {l : List α} {i : Nat} {a : α}
    (hi : l[i]? = some a) {b b' : β} (h : l.foldlM f b = .ok b') :
    ∃ c c', (l.take i).foldlM f b = .ok c ∧ f c a = .ok c' ∧
      (l.drop (i + 1)).foldlM f c' = .ok b' := by
  obtain ⟨hlt, rfl⟩ := List.getElem?_eq_some_iff.mp hi
  rw [← List.take_append_drop i l, ← List.cons_getElem_drop_succ (h := hlt), List.foldlM_append,
    bind_ok_iff] at h
  obtain ⟨c, hc, h⟩ := h
  rw [List.foldlM_cons, bind_ok_iff] at h
  obtain ⟨c', hc', h⟩ := h
  exact ⟨c, c', hc, hc', h⟩

theorem foldlM_error {f : β → α → Except ε β} {l : List α} {b : β} {e : ε}
    (h : l.foldlM f b = .error e) :
    ∃ i a c, l[i]? = some a ∧ (l.take i).foldlM f b = .ok c ∧ f c a = .error e := by
  induction l generalizing b with
  | nil => cases h
  | cons a l ih =>
    rw [List.foldlM_cons] at h
    cases ha : f b a with
    | error e' =>
      rw [ha] at h
      cases h
      exact ⟨0, a, b, rfl, rfl, ha⟩
    | ok c =>
      rw [ha] at h
      obtain ⟨i, a', c', hi, hc, hfail⟩ := ih h
      refine ⟨i + 1, a', c', hi, ?_, hfail⟩
      rw [List.take_succ_cons, List.foldlM_cons, ha]
      exact hc

/-- What holds after a fold and not before it comes with one of the steps. -/
theorem foldlM_new {f : β → α → Except ε β} {P : β → Prop} {l : List α} {b b' : β}
    (h : l.foldlM f b = .ok b') (hold : ¬P b) (hnew : P b') :
    ∃ i a c c', l[i]? = some a ∧ (l.take i).foldlM f b = .ok c ∧ f c a = .ok c' ∧ ¬P c ∧ P c' := by
  induction l generalizing b with
  | nil =>
    cases h
    exact absurd hnew hold
  | cons a l ih =>
    obtain ⟨c, hc, h⟩ := bind_ok_iff.mp h
    by_cases hstep : P c
    · exact ⟨0, a, b, c, rfl, rfl, hc, hold, hstep⟩
    · obtain ⟨i, a', c₁, c₂, hi, htake, hrest⟩ := ih h hstep
      refine ⟨i + 1, a', c₁, c₂, hi, ?_, hrest⟩
      rw [List.take_succ_cons, List.foldlM_cons, hc]
      exact htake

/-- A step that does something and then fails ends a fold. -/
theorem foldlM_stop {γ : Type} {f : β → α → Except ε β} {g : β → Except ε γ} {e : ε} {l : List α}
    {i : Nat} {a : α} (hi : l[i]? = some a) {b : β}
    (h : ∀ c, (l.take i).foldlM f b = .ok c → f c a = g c >>= fun _ => .error e) :
    l.foldlM f b = ((l.take i).foldlM f b >>= g) >>= fun _ => .error e := by
  obtain ⟨hlt, rfl⟩ := List.getElem?_eq_some_iff.mp hi
  nth_rewrite 1 [← List.take_append_drop i l]
  rw [← List.cons_getElem_drop_succ (h := hlt), List.foldlM_append, bind_assoc]
  cases hc : (l.take i).foldlM f b with
  | error e' => rfl
  | ok c =>
    show (l[i] :: l.drop (i + 1)).foldlM f c = g c >>= fun _ => .error e
    rw [List.foldlM_cons, h c hc]
    cases g c with
    | error e' => rfl
    | ok c' => rfl

theorem foldlM_fail {f : β → α → Except ε β} {e : ε} {l : List α} {i : Nat} {a : α}
    (hi : l[i]? = some a) {b : β} (h : ∀ c, (l.take i).foldlM f b = .ok c → f c a = .error e) :
    l.foldlM f b = (l.take i).foldlM f b >>= fun _ => .error e := by
  rw [foldlM_stop (g := pure) hi h, bind_pure]

/-- What holds between the states before and after every step holds between those before and after
all steps. -/
theorem foldlM_rel {f : β → α → Except ε β} {R : β → β → Prop} (hrefl : ∀ b, R b b)
    (htrans : ∀ {a b c}, R a b → R b c → R a c) {l : List α}
    (hstep : ∀ a ∈ l, ∀ b b', f b a = .ok b' → R b b') {b b' : β} (h : l.foldlM f b = .ok b') :
    R b b' := by
  induction l generalizing b with
  | nil =>
    cases h
    exact hrefl _
  | cons a l ih =>
    rw [List.foldlM_cons, bind_ok_iff] at h
    obtain ⟨c, hc, h⟩ := h
    obtain ⟨ha, hl⟩ := List.forall_mem_cons.mp hstep
    exact htrans (ha _ _ hc) (ih hl h)

/-- Two computations that both fail, or give results that are related. -/
inductive Agree {ε α β : Type} (R : α → β → Prop) : Except ε α → Except ε β → Prop
  | ok {a : α} {b : β} (h : R a b) : Agree R (.ok a) (.ok b)
  | error (e e' : ε) : Agree R (.error e) (.error e')

namespace Agree

theorem refl {ε α : Type} {R : α → α → Prop} (hrefl : ∀ a, R a a) (x : Except ε α) :
    Agree R x x := by
  cases x with
  | ok a => exact .ok (hrefl a)
  | error e => exact .error e e

theorem ok_iff {ε α : Type} {x y : Except ε α} (h : Agree Eq x y) {a : α} :
    x = .ok a ↔ y = .ok a := by
  cases h with
  | ok h => rw [h]
  | error e e' => exact ⟨nofun, nofun⟩

variable {ε α β α' β' γ : Type} {R : α → β → Prop} {S : α' → β' → Prop} {x : Except ε α}
  {y : Except ε β}

theorem of_ok (h : ∀ a, x = .ok a → ∃ b, y = .ok b ∧ R a b) (h' : ∀ b, y = .ok b → ∃ a, x = .ok a) :
    Agree R x y := by
  cases x with
  | ok a =>
    obtain ⟨b, rfl, hab⟩ := h a rfl
    exact .ok hab
  | error e =>
    cases y with
    | ok b =>
      obtain ⟨a, ha⟩ := h' b rfl
      cases ha
    | error e' => exact .error e e'

theorem exists_right (h : Agree R x y) {a : α} (hx : x = .ok a) : ∃ b, y = .ok b ∧ R a b := by
  cases h with
  | ok h =>
    cases hx
    exact ⟨_, rfl, h⟩
  | error => cases hx

theorem exists_left (h : Agree R x y) {b : β} (hy : y = .ok b) : ∃ a, x = .ok a ∧ R a b := by
  cases h with
  | ok h =>
    cases hy
    exact ⟨_, rfl, h⟩
  | error => cases hy

theorem and_left {P : α → Prop} (h : Agree R x y) (hx : ∀ a, x = .ok a → P a) :
    Agree (fun a b => R a b ∧ P a) x y := by
  cases h with
  | ok h => exact .ok ⟨h, hx _ rfl⟩
  | error e e' => exact .error e e'

theorem bind_of_ok {f : α → Except ε α'} {g : β → Except ε β'} (h : Agree R x y)
    (hfg : ∀ a b, x = .ok a → y = .ok b → R a b → Agree S (f a) (g b)) :
    Agree S (x >>= f) (y >>= g) := by
  cases h with
  | ok h => exact hfg _ _ rfl rfl h
  | error e e' => exact .error e e'

theorem bind {f : α → Except ε α'} {g : β → Except ε β'} (h : Agree R x y)
    (hfg : ∀ a b, R a b → Agree S (f a) (g b)) : Agree S (x >>= f) (y >>= g) :=
  h.bind_of_ok fun a b _ _ => hfg a b

theorem map {f : α → α'} {g : β → β'} (h : Agree R x y) (hfg : ∀ a b, R a b → S (f a) (g b)) :
    Agree S (x.map f) (y.map g) := by
  cases h with
  | ok h => exact .ok (hfg _ _ h)
  | error e e' => exact .error e e'

theorem bind_left (z : Except ε γ) {f : γ → Except ε α} {g : γ → Except ε β}
    (hfg : ∀ c, Agree R (f c) (g c)) : Agree R (z >>= f) (z >>= g) := by
  cases z with
  | ok c => exact hfg c
  | error e => exact .error e e

theorem foldlM_forall₂ {δ : Type} {f : α → γ → Except ε α} {g : β → δ → Except ε β} {l : List γ}
    {l' : List δ}
    (hstep : List.Forall₂ (fun c c' => ∀ a b, R a b → Agree R (f a c) (g b c')) l l') {a : α}
    {b : β} (h : R a b) : Agree R (l.foldlM f a) (l'.foldlM g b) := by
  induction hstep generalizing a b with
  | nil => exact .ok h
  | cons hc _ ih =>
    rw [List.foldlM_cons, List.foldlM_cons]
    exact (hc a b h).bind fun a b h => ih h

theorem foldlM {f : α → γ → Except ε α} {g : β → γ → Except ε β} {l : List γ}
    (hstep : ∀ c ∈ l, ∀ a b, R a b → Agree R (f a c) (g b c)) {a : α} {b : β} (h : R a b) :
    Agree R (l.foldlM f a) (l.foldlM g b) :=
  foldlM_forall₂ (List.forall₂_same.mpr hstep) h

end Agree

end Thumb

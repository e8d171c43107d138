import ObjectTracking.Markup.Progress
/-!
What the loop over the elements of a forest keeps and reaches. A walk that comes to its end has
taken its step at every element.
-/
set_option autoImplicit false

namespace ObjectTracking

theorem flatMap_ite_map {α β : Type} (p : α → Prop) [DecidablePred p] (g : α → β) (xs : List α) :
    (xs.flatMap fun x => if p x then [g x] else []) = (xs.filter fun x => p x).map g := by
  induction xs with
  | nil => rfl
  | cons x xs ih => by_cases hx : p x <;> simp [hx, ih]

namespace Markup

namespace Progress
variable {σ τ : Type}

@[simp] theorem state_done (s : σ) : (done s).state = s := rfl
@[simp] theorem stop?_done (s : σ) : (done s).stop? = none := rfl
@[simp] theorem state_halt (s : σ) (e : Fault) : (halt s e).state = s := rfl
@[simp] theorem stop?_halt (s : σ) (e : Fault) : (halt s e).stop? = some (.here e) := rfl
@[simp] theorem state_remarked (b : List Report) (p : Progress σ) :
    (p.remarked b).state = p.state := rfl
@[simp] theorem stop?_remarked (b : List Report) (p : Progress σ) :
    (p.remarked b).stop? = p.stop? := rfl
@[simp] theorem state_later (n : Nat) (p : Progress σ) : (p.later n).state = p.state := rfl
@[simp] theorem stop?_later_eq_none (n : Nat) (p : Progress σ) :
    (p.later n).stop? = none ↔ p.stop? = none := by simp [later]
@[simp] theorem state_map (f : σ → τ) (p : Progress σ) : (p.map f).state = f p.state := rfl
@[simp] theorem stop?_map (f : σ → τ) (p : Progress σ) : (p.map f).stop? = p.stop? := rfl

@[simp] theorem later_done (n : Nat) (s : σ) : (done s).later n = done s := rfl
@[simp] theorem map_done (f : σ → τ) (s : σ) : (done s).map f = done (f s) := rfl
@[simp] theorem andThen_done (s : σ) (next : σ → Progress σ) : (done s).andThen next = next s := rfl
@[simp] theorem remarked_nil (p : Progress σ) : p.remarked [] = p := rfl

theorem andThen_induction {P : σ → Prop} {p : Progress σ} {next : σ → Progress σ}
    (hp : P p.state) (hnext : ∀ s, P s → P (next s).state) : P (p.andThen next).state := by
  unfold andThen
  cases p.stop? with
  | some s => exact hp
  | none => exact hnext _ hp

theorem andThen_stop?_eq_none {p : Progress σ} {next : σ → Progress σ} :
    (p.andThen next).stop? = none ↔ p.stop? = none ∧ (next p.state).stop? = none := by
  unfold andThen
  cases h : p.stop? <;> simp [h]

theorem andThen_state {p : Progress σ} {next : σ → Progress σ} (h : p.stop? = none) :
    (p.andThen next).state = (next p.state).state := by
  simp [andThen, h]

end Progress

namespace Forest
variable {σ : Type}

def elements : Forest → List (Tag × Forest)
  | closed => []
  | cut => []
  | text _ rest => rest.elements
  | element tag content rest => (tag, content) :: rest.elements

@[simp] theorem state_skip (content : Forest) (s : σ) : (content.skip s).state = s := by
  unfold skip
  split <;> rfl

theorem walk_element_of_done {step : Tag → Forest → σ → Progress σ} {tag : Tag}
    {content rest : Forest} {s s' : σ} (h : step tag content s = .done s') :
    (element tag content rest).walk step s = (rest.walk step s').later (content.size + 2) := by
  simp [walk, h]

/-- What the step keeps at each element, the walk keeps, whether or not it comes to its end. -/
theorem walk_induction {P : σ → Prop} {step : Tag → Forest → σ → Progress σ} {f : Forest} {s : σ}
    (hstart : P s) (hstep : ∀ x ∈ f.elements, ∀ s, P s → P (step x.1 x.2 s).state) :
    P (f.walk step s).state := by
  induction f generalizing s with
  | closed => exact hstart
  | cut => exact hstart
  | text _ rest ih => exact ih hstart hstep
  | element tag content rest _ ih =>
    apply Progress.andThen_induction
    · exact hstep (tag, content) List.mem_cons_self s hstart
    · intro s' hs'
      exact ih hs' fun x hx => hstep x (List.mem_cons_of_mem _ hx)

/-- What the step at one element brings about and the steps keep holds after a walk that comes to
its end. An invariant of the steps may be used. -/
theorem walk_reaches {I P : σ → Prop} {step : Tag → Forest → σ → Progress σ} {f : Forest} {s : σ}
    (hstart : I s) (hinv : ∀ y ∈ f.elements, ∀ s, I s → I (step y.1 y.2 s).state)
    (hend : (f.walk step s).stop? = none) {x : Tag × Forest} (hx : x ∈ f.elements)
    (hreach : ∀ s, I s → (step x.1 x.2 s).stop? = none → P (step x.1 x.2 s).state)
    (hkeep : ∀ y ∈ f.elements, ∀ s, I s → P s → P (step y.1 y.2 s).state) :
    P (f.walk step s).state := by
  induction f generalizing s with
  | closed => cases hx
  | cut => cases hx
  | text _ rest ih =>
    simp only [walk, Progress.stop?_later_eq_none] at hend
    exact ih hstart hinv hend hx hkeep
  | element tag content rest _ ih =>
    simp only [walk, Progress.andThen_stop?_eq_none, Progress.stop?_later_eq_none] at hend
    obtain ⟨hfirst, hrest⟩ := hend
    have hstate : ((element tag content rest).walk step s).state =
        (rest.walk step (step tag content s).state).state :=
      Progress.andThen_state (by simpa using hfirst)
    rw [hstate]
    have hnext : I (step tag content s).state := hinv (tag, content) List.mem_cons_self s hstart
    have hinv' : ∀ y ∈ rest.elements, ∀ s, I s → I (step y.1 y.2 s).state :=
      fun y hy => hinv y (List.mem_cons_of_mem _ hy)
    have hkeep' : ∀ y ∈ rest.elements, ∀ s, I s → P s → P (step y.1 y.2 s).state :=
      fun y hy => hkeep y (List.mem_cons_of_mem _ hy)
    rcases List.mem_cons.mp hx with rfl | hx
    · refine (walk_induction (P := fun s => I s ∧ P s) ⟨hnext, hreach s hstart hfirst⟩ ?_).2
      intro y hy s hs
      exact ⟨hinv' y hy s hs.1, hkeep' y hy s hs.1 hs.2⟩
    · exact ih hnext hinv' hrest hx hkeep'

/-- A walk that comes to its end relates its states by what it has collected, element by element. -/
theorem walk_collects {α : Type} {I : σ → Prop} {R : List α → σ → σ → Prop}
    {step : Tag → Forest → σ → Progress σ} {collect : Tag × Forest → List α} {f : Forest} {s : σ}
    (hnil : ∀ s, R [] s s)
    (happend : ∀ {xs ys s s' s''}, R xs s s' → R ys s' s'' → R (xs ++ ys) s s'')
    (hstart : I s) (hinv : ∀ {xs s s'}, R xs s s' → I s → I s')
    (hstep : ∀ x ∈ f.elements, ∀ s, I s → (step x.1 x.2 s).stop? = none →
      R (collect x) s (step x.1 x.2 s).state)
    (hend : (f.walk step s).stop? = none) :
    R (f.elements.flatMap collect) s (f.walk step s).state := by
  induction f generalizing s with
  | closed => exact hnil s
  | cut => exact hnil s
  | text _ rest ih =>
    simp only [walk, Progress.stop?_later_eq_none] at hend
    exact ih hstart hstep hend
  | element tag content rest _ ih =>
    simp only [walk, Progress.andThen_stop?_eq_none, Progress.stop?_later_eq_none] at hend
    obtain ⟨hfirst, hrest⟩ := hend
    have hstate : ((element tag content rest).walk step s).state =
        (rest.walk step (step tag content s).state).state :=
      Progress.andThen_state (by simpa using hfirst)
    have hread := hstep (tag, content) List.mem_cons_self s hstart hfirst
    rw [hstate]
    apply happend hread
    exact ih (hinv hread hstart) (fun x hx => hstep x (List.mem_cons_of_mem _ hx)) hrest

end Forest

end Markup

end ObjectTracking

import ObjectTracking.Proofs.Markup.Alike
/-!
Lenient readings. A lenient reader takes something in a document for something else, and reads it as a
strict reader reads the document in which that was replaced. Where the strict reader needs no
replacement, it reads the document itself like the lenient one.
-/
set_option autoImplicit false

namespace ObjectTracking.Markup

namespace Progress
variable {σ σ' τ τ' : Type}

theorem map_map (f : σ → σ') (g : σ' → τ) (p : Progress σ) : (p.map f).map g = p.map (g ∘ f) := rfl

/-- A lenient reading ends like the strict reading of what was relaxed, and like a strict reading of
the same thing if that comes to its end. States of the two are compared by what a lenient state is to
a strict reader. -/
structure Relaxes (g : σ → τ) (lenient : Progress σ) (relaxed strict : Progress τ) : Prop where
  relaxed : (lenient.map g).Alike relaxed
  strict : strict.stop? = none → (lenient.map g).Alike strict

variable {g : σ → τ} {g' : σ' → τ'} {p : Progress σ} {r s : Progress τ}

theorem Relaxes.of_alike (h : (p.map g).Alike r) : Relaxes g p r r := ⟨h, fun _ => h⟩

theorem Relaxes.refl (g : σ → τ) (p : Progress σ) : Relaxes g p (p.map g) (p.map g) :=
  .of_alike (.refl _)

theorem Relaxes.same (p : Progress σ) : Relaxes id p p p := .refl id p

theorem Relaxes.congr (h : Relaxes g p r s) {p' : Progress σ} {r' s' : Progress τ} (hp : p.Alike p')
    (hr : r.Alike r') (hs : s.Alike s') : Relaxes g p' r' s' := by
  refine ⟨(hp.symm.map g).trans (h.relaxed.trans hr), ?_⟩
  intro hend
  have hsome := hs.isSome
  rw [hend, Option.isSome_none, Option.isSome_eq_false_iff, Option.isNone_iff_eq_none] at hsome
  exact (hp.symm.map g).trans ((h.strict hsome).trans hs)

theorem Relaxes.later (h : Relaxes g p r s) (l m n : Nat) :
    Relaxes g (p.later l) (r.later m) (s.later n) :=
  h.congr (alike_later l p).symm (alike_later m r).symm (alike_later n s).symm

theorem Relaxes.remarked (h : Relaxes g p r s) (a b c : List Report) :
    Relaxes g (p.remarked a) (r.remarked b) (s.remarked c) :=
  h.congr (alike_remarked a p).symm (alike_remarked b r).symm (alike_remarked c s).symm

/-- What is made of the state at the end may depend on whether reading was stopped. -/
theorem Relaxes.ended (h : Relaxes g p r s) (f : Bool → σ → σ') (f' : Bool → τ → τ')
    (hf : ∀ stopped x, g' (f stopped x) = f' stopped (g x)) :
    Relaxes g' (p.map (f p.stop?.isSome)) (r.map (f' r.stop?.isSome))
      (s.map (f' s.stop?.isSome)) := by
  have hmap : (p.map (f p.stop?.isSome)).map g' = (p.map g).map (f' (p.map g).stop?.isSome) := by
    rw [map_map, map_map]
    exact congrArg p.map (funext (hf _))
  have hends : ∀ {t : Progress τ}, (p.map g).Alike t →
      ((p.map (f p.stop?.isSome)).map g').Alike (t.map (f' t.stop?.isSome)) := by
    intro t ht
    rw [hmap, ht.isSome]
    exact ht.map _
  exact ⟨hends h.relaxed, fun hend => hends (h.strict hend)⟩

theorem Relaxes.map (h : Relaxes g p r s) (f : σ → σ') (f' : τ → τ')
    (hf : ∀ x, g' (f x) = f' (g x)) : Relaxes g' (p.map f) (r.map f') (s.map f') :=
  h.ended (fun _ => f) (fun _ => f') fun _ => hf

theorem Relaxes.andThen (h : Relaxes g p r s) {next : σ → Progress σ} {nextr nexts : τ → Progress τ}
    (hnext : p.stop? = none →
      Relaxes g (next p.state) (nextr (g p.state)) (nexts (g p.state))) :
    Relaxes g (p.andThen next) (r.andThen nextr) (s.andThen nexts) := by
  unfold Progress.andThen
  cases hp : p.stop? with
  | some stop =>
    -- Both have stopped, for the same reason.
    have hstopped : ∀ {t : Progress τ}, (p.map g).Alike t → t.stop? ≠ none := by
      intro t ht hnone
      have hsome := ht.isSome
      simp [hp, hnone] at hsome
    cases hr : r.stop? with
    | none => exact absurd hr (hstopped h.relaxed)
    | some stopr =>
      refine ⟨h.relaxed, ?_⟩
      intro hend
      cases hs : s.stop? with
      | none => exact absurd hs (hstopped (h.strict hs))
      | some stops => simp [hs] at hend
  | none =>
    have hgoes : ∀ {t : Progress τ}, (p.map g).Alike t → t.stop? = none ∧ t.state = g p.state := by
      intro t ht
      refine ⟨?_, ht.state.symm⟩
      have hsome := ht.isSome
      simpa [hp] using hsome
    have hrest := hnext hp
    obtain ⟨hr, hstate⟩ := hgoes h.relaxed
    refine ⟨?_, ?_⟩
    · simp only [hr, hstate]
      exact ⟨hrest.relaxed.state, hrest.relaxed.fault⟩
    · intro hend
      cases hs : s.stop? with
      | some stops => simp [hs] at hend
      | none =>
        rw [hs] at hend
        have hstate := (hgoes (h.strict hs)).2
        simp only [hstate, stop?_remarked] at hend ⊢
        have hstrict := hrest.strict hend
        exact ⟨hstrict.state, hstrict.fault⟩

end Progress

namespace Forest
variable {σ τ ρ : Type}

theorem skip_map (g : σ → τ) (content : Forest) (s : σ) :
    content.skip (g s) = (content.skip s).map g := by
  unfold skip
  split <;> rfl

theorem skip_relaxes (g : σ → τ) (content : Forest) (s : σ) :
    Progress.Relaxes g (content.skip s) (content.skip (g s)) (content.skip (g s)) := by
  rw [skip_map]
  exact .refl g _

/-- A forest with its elements replaced one after the other, each by what takes its place where the
ones before it have led. -/
def along (next : Tag → Forest → ρ → ρ) (edit : Tag → Forest → ρ → Tag × Forest) :
    Forest → ρ → Forest
  | closed, _ => closed
  | cut, _ => cut
  | text s rest, x => text s (along next edit rest x)
  | element tag content rest, x =>
    element (edit tag content x).1 (edit tag content x).2 (along next edit rest (next tag content x))

variable {g : σ → τ} {next : Tag → Forest → ρ → ρ} {edit : Tag → Forest → ρ → Tag × Forest}
  {step : Tag → Forest → σ → Progress σ} {step' : Tag → Forest → τ → Progress τ}

/-- A walk whose steps are lenient is lenient about what its steps are lenient about. -/
theorem walk_relaxes (I : σ → Prop) (place : σ → ρ)
    (hinv : ∀ tag content s, I s → I (step tag content s).state)
    (hplace : ∀ tag content s, I s →
      place (step tag content s).state = next tag content (place s))
    (hstep : ∀ tag content s, I s → Progress.Relaxes g (step tag content s)
      (step' (edit tag content (place s)).1 (edit tag content (place s)).2 (g s))
      (step' tag content (g s)))
    (f : Forest) {s : σ} (hs : I s) :
    Progress.Relaxes g (f.walk step s) ((f.along next edit (place s)).walk step' (g s))
      (f.walk step' (g s)) := by
  induction f generalizing s with
  | closed => exact .refl g (.done s)
  | cut => exact .refl g (.halt s _)
  | text _ rest ih => exact (ih hs).later 1 1 1
  | element tag content rest _ ih =>
    refine Progress.Relaxes.andThen ((hstep tag content s hs).later 1 1 1) ?_
    intro _
    have hrest := ih (hinv tag content s hs)
    rw [hplace tag content s hs] at hrest
    exact hrest.later _ _ _

end Forest

end ObjectTracking.Markup

import ObjectTracking.Proofs.Markup.Walk
/-!
Readings that end alike. Where they stop and what they remark on may differ, but not the state they
leave nor the fault that ends them.
-/
set_option autoImplicit false

namespace ObjectTracking.Markup

namespace Progress
variable {σ τ : Type} {p p' p'' : Progress σ}

/-- Two readings leave the same state and end with the same fault, or both with none. -/
structure Alike (p p' : Progress σ) : Prop where
  state : p.state = p'.state
  fault : p.stop?.map Stop.fault = p'.stop?.map Stop.fault

@[simp] theorem fault_later (n : Nat) (p : Progress σ) :
    (p.later n).stop?.map Stop.fault = p.stop?.map Stop.fault := by
  cases h : p.stop? <;> simp [later, h, Stop.later]

theorem Alike.refl (p : Progress σ) : p.Alike p := ⟨rfl, rfl⟩

theorem Alike.symm (h : p.Alike p') : p'.Alike p := ⟨h.state.symm, h.fault.symm⟩

theorem Alike.trans (h : p.Alike p') (h' : p'.Alike p'') : p.Alike p'' :=
  ⟨h.state.trans h'.state, h.fault.trans h'.fault⟩

theorem alike_later (n : Nat) (p : Progress σ) : (p.later n).Alike p := ⟨rfl, fault_later n p⟩

theorem Alike.later (h : p.Alike p') (m n : Nat) : (p.later m).Alike (p'.later n) :=
  (alike_later m p).trans (h.trans (alike_later n p').symm)

theorem alike_remarked (b : List Report) (p : Progress σ) : (p.remarked b).Alike p := ⟨rfl, rfl⟩

theorem Alike.isSome (h : p.Alike p') : p.stop?.isSome = p'.stop?.isSome := by
  simpa using congrArg Option.isSome h.fault

theorem Alike.map (h : p.Alike p') (f : σ → τ) : (p.map f).Alike (p'.map f) :=
  ⟨congrArg f h.state, h.fault⟩

theorem Alike.andThen {next next' : σ → Progress σ} (h : p.Alike p')
    (hnext : (next p.state).Alike (next' p.state)) : (p.andThen next).Alike (p'.andThen next') := by
  have hsome := h.isSome
  unfold Progress.andThen
  cases hp : p.stop? with
  | some s =>
    cases hp' : p'.stop? with
    | some s' => exact h
    | none => simp [hp, hp'] at hsome
  | none =>
    cases hp' : p'.stop? with
    | some s' => simp [hp, hp'] at hsome
    | none =>
      rw [← h.state]
      exact ⟨hnext.state, hnext.fault⟩

end Progress

/-- A reader of the elements of a forest, with what its states satisfy. -/
structure ElementReader where
  State : Type
  step : Tag → Forest → State → Progress State
  Valid : State → Prop
  valid_step : ∀ tag content s, Valid s → Valid (step tag content s).state

namespace ElementReader
variable (R : ElementReader) {tag : Tag} {content content' f f' : Forest}

def Agrees (f f' : Forest) : Prop := ∀ s, R.Valid s → (f.walk R.step s).Alike (f'.walk R.step s)

/-- An element that a reader passes over. -/
def Passes (tag : Tag) (content : Forest) : Prop :=
  ∀ s, R.Valid s → (R.step tag content s).Alike (.done s)

variable {R}

theorem valid_walk (f : Forest) {s : R.State} (hs : R.Valid s) : R.Valid (f.walk R.step s).state :=
  Forest.walk_induction hs fun x _ => R.valid_step x.1 x.2

theorem Agrees.refl (f : Forest) : R.Agrees f f := fun s _ => .refl (f.walk R.step s)

theorem Agrees.text_left (h : R.Agrees f f') (s : String) : R.Agrees (.text s f) f' :=
  fun t ht => (Progress.alike_later 1 _).trans (h t ht)

theorem Agrees.text_right (h : R.Agrees f f') (s : String) : R.Agrees f (.text s f') :=
  fun t ht => (h t ht).trans (Progress.alike_later 1 _).symm

theorem Agrees.pass (h : R.Agrees f f') (hpass : R.Passes tag content) :
    R.Agrees (.element tag content f) f' := by
  intro s hs
  have hstep := (hpass s hs).later 1 0
  have hrest : ((f.walk R.step s).later (content.size + 2)).Alike (f'.walk R.step s) :=
    (Progress.alike_later _ _).trans (h s hs)
  change Progress.Alike _ ((Progress.done s).andThen fun s => f'.walk R.step s)
  refine hstep.andThen ?_
  rw [Progress.state_later, (hpass s hs).state]
  exact hrest

theorem Agrees.element (h : R.Agrees f f')
    (hstep : ∀ s, R.Valid s → (R.step tag content s).Alike (R.step tag content' s)) :
    R.Agrees (.element tag content f) (.element tag content' f') := by
  intro s hs
  refine ((hstep s hs).later 1 1).andThen ?_
  exact (h _ (R.valid_step tag content s hs)).later _ _

end ElementReader

end ObjectTracking.Markup

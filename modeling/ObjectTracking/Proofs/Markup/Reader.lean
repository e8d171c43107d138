import ObjectTracking.Proofs.Markup.Balanced
/-!
Where reading node by node comes to rest. If every step of a loop ends on the end tag that belongs to
its element, the loop ends on the one that belongs to its own.
-/
set_option autoImplicit false

namespace ObjectTracking.Markup
open Cursor

namespace Passage
variable {σ τ : Type} {c : Cursor}

@[simp] theorem fault?_since {c' : Cursor} (h : c'.rest.length ≤ c.rest.length)
    (p : Passage c' σ) : (p.since h).fault? = p.fault? := rfl
@[simp] theorem cursor_since {c' : Cursor} (h : c'.rest.length ≤ c.rest.length)
    (p : Passage c' σ) : (p.since h).cursor = p.cursor := rfl

/-- Reading that succeeds has come to the end tag that closes the position it began at. -/
def Closes (p : Passage c σ) : Prop := p.fault? = none → closing? 0 c.rest = some p.cursor

theorem Closes.map {p : Passage c σ} (h : p.Closes) (f : σ → τ) : (p.map f).Closes := h

theorem Closes.remarked {p : Passage c σ} (h : p.Closes) (b : List Report) :
    (p.remarked b).Closes := h

theorem closes_halt (s : σ) (f : Fault) : (here c (.halt s f)).Closes := by
  rintro ⟨⟩

theorem closes_startingWith (p : Progress σ) {next : σ → Passage c σ}
    (h : ∀ s, (next s).Closes) : (startingWith p next).Closes := by
  unfold startingWith
  cases hp : p.stop? with
  | some stop =>
    intro hnone
    simp [here, hp] at hnone
  | none => exact (h p.state).remarked p.reports

theorem andThen_fault?_eq_none {p : Passage c σ}
    {next : (c' : Cursor) → c'.rest.length ≤ c.rest.length → σ → Passage c' σ}
    (h : (p.andThen next).fault? = none) :
    p.fault? = none ∧ (next p.cursor p.onward p.state).fault? = none ∧
      (p.andThen next).cursor = (next p.cursor p.onward p.state).cursor := by
  unfold andThen at h ⊢
  cases hp : p.fault? with
  | some f => simp [hp] at h
  | none =>
    simp only [hp] at h ⊢
    exact ⟨trivial, h, rfl⟩

end Passage

namespace Cursor
variable {σ : Type} {c : Cursor}

theorem closes_pass (c : Cursor) (s : σ) : (c.pass s).Closes := by
  unfold pass
  split
  · exact Passage.closes_halt s _
  · rename_i h
    exact fun _ => h

theorem closes_readText (c : Cursor) (s : σ) (use : String → Progress σ) :
    (c.readText s use).Closes := by
  unfold readText
  split
  · exact Passage.closes_halt s _
  · split
    · exact Passage.closes_halt s _
    · rename_i h
      split
      · exact Passage.closes_halt s _
      · exact fun _ => h

/-- If every step comes to the end of its element, the loop comes to the end of its own. -/
theorem closes_readElements
    {step : (c' : Cursor) → c'.rest.length < c.rest.length → Tag → σ → Passage c' σ}
    (hstep : ∀ c' h tag s, (step c' h tag s).Closes) (s : σ) : (c.readElements step s).Closes := by
  fun_induction readElements c step s with
  | case1 _ _ s => exact Passage.closes_halt s _
  | case2 => exact fun _ => rfl
  | case3 _ t rest step s ih =>
    intro hnone
    exact ih (fun c' h => hstep c' (Nat.lt_succ_of_lt h)) hnone
  | case4 _ tag rest s step ih =>
    intro hnone
    rw [Passage.fault?_since] at hnone
    obtain ⟨hfirst, hrest, hcursor⟩ := Passage.andThen_fault?_eq_none hnone
    -- The step has closed its own element, so what is due next closes the loop's.
    have hend := hstep ⟨some (.opening tag), rest⟩ (Nat.lt_succ_self _) tag s hfirst
    change closing? 1 rest = some _
    rw [closing?_succ, hend, Passage.cursor_since, hcursor]
    refine ih _ (Passage.onward _) _ ?_ hrest
    intro c'' h
    exact hstep c'' _

end Cursor

end ObjectTracking.Markup

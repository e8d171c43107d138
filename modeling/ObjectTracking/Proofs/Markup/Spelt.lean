import ObjectTracking.Proofs.Markup.Writing
/-!
Encodings that never fail: what their calls are, remarks left aside, and that a writer takes all of
them. An encoding may begin with attributes if a start tag is before it, and has none after the first
text or element.
-/
set_option autoImplicit false

namespace ObjectTracking.Markup

namespace Mixed

def append : Mixed → Mixed → Mixed
  | nothing, d => d
  | text s rest, d => .text s (rest.append d)
  | element ns name attributes content rest, d =>
    .element ns name attributes content (rest.append d)

theorem calls_append (c d : Mixed) : (c.append d).calls = c.calls ++ d.calls := by
  induction c with
  | nothing => rfl
  | text s rest ih => simp [append, calls, ih]
  | element ns name attributes content rest _ ih => simp [append, calls, ih]

end Mixed

namespace Encoding
variable {σ : Type} {take : σ → Call → Except Fault σ} {s s' : σ} {a b e : Encoding}
  {cs ds : List Call}

structure Spelt (e : Encoding) (cs : List Call) : Prop where
  faultless : e.fault? = none
  calls : e.calls = cs

theorem Spelt.append (ha : a.Spelt cs) (hb : b.Spelt ds) : (a ++ b).Spelt (cs ++ ds) := by
  obtain ⟨ha, rfl⟩ := ha
  obtain ⟨hb, rfl⟩ := hb
  have heq : a ++ b = ⟨a.emissions ++ b.emissions, b.fault?⟩ := by
    change append a b = _
    simp only [Encoding.append, ha]
  rw [heq]
  exact ⟨hb, by simp [Encoding.calls]⟩

theorem spelt_call (c : Call) : (call c).Spelt [c] := ⟨rfl, rfl⟩

/-- A receiver that takes the calls takes the encoding. -/
theorem Spelt.run (h : e.Spelt cs) (htake : cs.foldlM take s = .ok s') :
    ∃ reports, e.run take s = ⟨s', reports, none⟩ := by
  obtain ⟨emissions, fault⟩ := e
  obtain ⟨rfl, rfl⟩ := h
  suffices hdeliver : ∃ reports, deliver take s emissions = ⟨s', reports, none⟩ by
    obtain ⟨reports, hdeliver⟩ := hdeliver
    exact ⟨reports, by simp [Encoding.run, hdeliver]⟩
  induction emissions generalizing s with
  | nil =>
    obtain rfl : s = s' := by simpa [Encoding.calls, pure, Except.pure] using htake
    exact ⟨[], rfl⟩
  | cons x emissions ih =>
    cases x with
    | report r =>
      obtain ⟨reports, h⟩ := ih htake
      exact ⟨r :: reports, by simp only [deliver, h]⟩
    | call c =>
      change (c :: Encoding.calls ⟨emissions, none⟩).foldlM take s = _ at htake
      rw [List.foldlM_cons] at htake
      cases hc : take s c with
      | error fault => simp [hc, bind, Except.bind] at htake
      | ok s₁ =>
        rw [hc] at htake
        simp only [deliver, hc]
        exact ih htake

def IsContent (e : Encoding) : Prop := ∃ c : Mixed, e.Spelt c.calls

/-- Attributes may be written, and after them texts and elements. -/
def Fills (e : Encoding) : Prop :=
  ∃ (attributes : List (String × String)) (c : Mixed), e.Spelt (attributeCalls attributes ++ c.calls)

theorem isContent_nothing : nothing.IsContent := ⟨.nothing, rfl, rfl⟩

theorem isContent_text (text : String) : (call (.text text)).IsContent :=
  ⟨.text text .nothing, spelt_call _⟩

theorem IsContent.append (ha : a.IsContent) (hb : b.IsContent) : (a ++ b).IsContent := by
  obtain ⟨c, hc⟩ := ha
  obtain ⟨d, hd⟩ := hb
  exact ⟨c.append d, Mixed.calls_append c d ▸ hc.append hd⟩

theorem IsContent.concat {es : List Encoding} (h : ∀ e ∈ es, e.IsContent) : (concat es).IsContent := by
  induction es with
  | nil => exact isContent_nothing
  | cons e es ih =>
    have hrest := ih fun e he => h e (List.mem_cons_of_mem _ he)
    exact (h e List.mem_cons_self).append hrest

theorem IsContent.reported (h : e.IsContent) (r : Report) : (report r ++ e).IsContent := by
  obtain ⟨c, hc⟩ := h
  have hreport : (Encoding.report r).Spelt [] := ⟨rfl, rfl⟩
  exact ⟨c, hreport.append hc⟩

theorem IsContent.fills (h : e.IsContent) : e.Fills := by
  obtain ⟨c, hc⟩ := h
  exact ⟨[], c, hc⟩

theorem Fills.append (ha : a.Fills) (hb : b.IsContent) : (a ++ b).Fills := by
  obtain ⟨attributes, c, hc⟩ := ha
  obtain ⟨d, hd⟩ := hb
  refine ⟨attributes, c.append d, ?_⟩
  rw [Mixed.calls_append, ← List.append_assoc]
  exact hc.append hd

theorem Fills.attribute (h : e.Fills) (name value : String) :
    (call (.attr name value) ++ e).Fills := by
  obtain ⟨attributes, c, hc⟩ := h
  exact ⟨(name, value) :: attributes, c, (spelt_call _).append hc⟩

/-- An element with its attributes and its content, as calls. -/
theorem Fills.spelt_element (h : e.Fills) (ns : Namespace) (name : String) :
    ∃ attributes c, (element ns name e).Spelt (Mixed.element ns name attributes c .nothing).calls := by
  obtain ⟨attributes, c, hc⟩ := h
  refine ⟨attributes, c, ?_⟩
  have hcalls : (Mixed.element ns name attributes c .nothing).calls =
      [.opening ns name] ++ (attributeCalls attributes ++ c.calls) ++ [.closing] := by
    simp [Mixed.calls]
  rw [hcalls]
  exact ((spelt_call _).append hc).append (spelt_call _)

theorem Fills.element (h : e.Fills) (ns : Namespace) (name : String) :
    (element ns name e).IsContent := by
  obtain ⟨attributes, c, hc⟩ := h.spelt_element ns name
  exact ⟨_, hc⟩

/-- A new writer takes an element to its end, and then no element is open. -/
theorem Fills.taken (h : e.Fills) (bytes : List UInt8) (ns : Namespace) (name : String) :
    ∃ w reports, (Encoding.element ns name e).run Writer.take (Writer.onto bytes) =
      ⟨w, reports, none⟩ ∧ w.opened = [] ∧ w.held = bytes := by
  obtain ⟨attributes, c, hc⟩ := h.spelt_element ns name
  obtain ⟨reports, hrun⟩ := hc.run (Writer.foldlM_root bytes ns name attributes c)
  exact ⟨_, reports, hrun, rfl, rfl⟩

end Encoding

end ObjectTracking.Markup

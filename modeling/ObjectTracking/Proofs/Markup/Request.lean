import ObjectTracking.Markup.Request
import ObjectTracking.Proofs.Markup.Pieces
/-!
A caller who goes on after a refusal. A request that is refused leaves the writer as it was, though
it is carried out in place, and so the writer in the end is the one that the accepted requests alone
make of it.
-/
set_option autoImplicit false

namespace ObjectTracking.Markup

namespace Change
variable (w : Writer)

@[simp] theorem emit_run (p : Piece) :
    (emit p).run w = .ok () { w with written := p :: w.written } := rfl

@[simp] theorem takePending_run :
    takePending.run w = .ok w.pending { w with pending := none } := rfl

@[simp] theorem flush_run : flush.run w = .ok () w.flush := by
  obtain ⟨held, written, opened, pending, declared⟩ := w
  cases pending <;> rfl

/-- A call in place is accepted or refused as a whole. -/
theorem call_run (c : Call) : (call c).run w =
    match w.take c with
    | .ok w' => .ok () w'
    | .error e => .error e w := by
  cases c with
  | opening ns name => simp [call, start, Writer.take]
  | attr name value => cases h : w.pending <;> simp [call, addAttribute, Writer.take, h]
  | text value =>
    by_cases hopened : w.opened = []
    · simp [call, addText, Writer.take, hopened]
    · by_cases hvalue : value = "" <;> simp [call, addText, Writer.take, hopened, hvalue]
  | closing =>
    -- With nothing open the end is refused before the start tag held back is taken.
    obtain ⟨held, written, opened, pending, declared⟩ := w
    cases opened with
    | nil => rfl
    | cons name outer => cases pending <;> rfl

theorem forM_call_run {w w' : Writer} {cs : List Call} (h : cs.foldlM Writer.take w = .ok w') :
    (cs.forM call).run w = .ok () w' := by
  induction cs generalizing w with
  | nil =>
    cases h
    rfl
  | cons c cs ih =>
    obtain ⟨w₁, hc, hcs⟩ := Writer.foldlM_cons_eq_ok_iff.mp h
    change (call c >>= fun _ => cs.forM call).run w = _
    rw [EStateM.run_bind, call_run, hc]
    exact ih hcs

end Change

namespace Writer
variable {w w' : Writer} {r : Request} {rs : List Request}

/-- A request is accepted with all its calls. -/
theorem ask_of_foldlM (h : r.calls.foldlM take w = .ok w') : w.ask r = (none, w') := by
  rw [ask, Change.request, Change.forM_call_run h]

/-- A call that is refused leaves no trace. -/
theorem ask_of_error {c : Call} {e : Fault} (h : w.take c = .error e) :
    w.ask (.call c) = (some e, w) := by
  have hrun : (Change.request (.call c)).run w = .error e w := by
    change (Change.call c >>= fun _ => pure ()).run w = _
    rw [EStateM.run_bind, Change.call_run, h]
  rw [ask, hrun]

/-- A whole element is never refused. -/
theorem exists_foldlM_element (w : Writer) (ns : Namespace) (name value : String) :
    ∃ w', (Request.element ns name value).calls.foldlM take w = .ok w' := by
  change ∃ w', [Call.opening ns name, .text value, .closing].foldlM take w = .ok w'
  have hopened (t : PendingTag) : (w.start t).opened ≠ [] := List.cons_ne_nil _ _
  simp only [List.foldlM_cons, take_opening, bind, Except.bind, take_text (hopened _),
    take_closing_put]
  exact ⟨_, rfl⟩

/-- What becomes of a request. -/
theorem ask_cases (w : Writer) (r : Request) :
    (∃ w', r.calls.foldlM take w = .ok w' ∧ w.ask r = (none, w')) ∨
      ∃ c e, r = .call c ∧ w.take c = .error e ∧ w.ask r = (some e, w) := by
  cases r with
  | call c =>
    cases h : w.take c with
    | ok w' =>
      have hcalls : [c].foldlM take w = .ok w' := foldlM_cons_eq_ok_iff.mpr ⟨w', h, rfl⟩
      exact .inl ⟨w', hcalls, ask_of_foldlM hcalls⟩
    | error e => exact .inr ⟨c, e, rfl, h, ask_of_error h⟩
  | element ns name value =>
    obtain ⟨w', hw'⟩ := exists_foldlM_element w ns name value
    exact .inl ⟨w', hw', ask_of_foldlM hw'⟩

def accepted (w : Writer) (rs : List Request) : List Request :=
  ((rs.zip (w.askAll rs).1).filter (·.2.isNone)).map Prod.fst

theorem askAll_cons (w : Writer) (r : Request) (rs : List Request) : w.askAll (r :: rs) =
    ((w.ask r).1 :: ((w.ask r).2.askAll rs).1, ((w.ask r).2.askAll rs).2) := rfl

theorem accepted_cons_of_none (h : w.ask r = (none, w')) (rs : List Request) :
    w.accepted (r :: rs) = r :: w'.accepted rs := by
  simp [accepted, askAll_cons, h]

theorem accepted_cons_of_some {e : Fault} (h : w.ask r = (some e, w')) (rs : List Request) :
    w.accepted (r :: rs) = w'.accepted rs := by
  simp [accepted, askAll_cons, h]

theorem length_askAll (w : Writer) (rs : List Request) : (w.askAll rs).1.length = rs.length := by
  induction rs generalizing w with
  | nil => rfl
  | cons r rs ih => rw [askAll_cons, List.length_cons, ih, List.length_cons]

theorem askAll_append (w : Writer) (before after : List Request) : w.askAll (before ++ after) =
    ((w.askAll before).1 ++ ((w.askAll before).2.askAll after).1,
      ((w.askAll before).2.askAll after).2) := by
  induction before generalizing w with
  | nil => rfl
  | cons r before ih =>
    rw [List.cons_append, askAll_cons, ih, askAll_cons]
    rfl

/-- The answer to a request among others. -/
theorem askAll_getElem? (w : Writer) (before : List Request) (r : Request) (after : List Request) :
    (w.askAll (before ++ r :: after)).1[before.length]? = some ((w.askAll before).2.ask r).1 := by
  rw [askAll_append, ← length_askAll w before, List.getElem?_append_right (Nat.le_refl _),
    Nat.sub_self, askAll_cons, List.getElem?_cons_zero]

/-- What a caller gets who goes on is what the calls of the accepted requests make. -/
theorem foldlM_accepted (w : Writer) (rs : List Request) :
    ((w.accepted rs).flatMap Request.calls).foldlM take w = .ok (w.askAll rs).2 := by
  induction rs generalizing w with
  | nil => rfl
  | cons r rs ih =>
    rw [askAll_cons]
    obtain ⟨w', hw', hask⟩ | ⟨c, e, -, -, hask⟩ := ask_cases w r
    · rw [accepted_cons_of_none hask, List.flatMap_cons, hask]
      exact foldlM_append_eq_ok_iff.mpr ⟨w', hw', ih w'⟩
    · rw [accepted_cons_of_some hask, hask]
      exact ih w

theorem askAll_of_foldlM (h : (rs.flatMap Request.calls).foldlM take w = .ok w') :
    w.askAll rs = (List.replicate rs.length none, w') := by
  induction rs generalizing w with
  | nil =>
    cases h
    rfl
  | cons r rs ih =>
    rw [List.flatMap_cons, foldlM_append_eq_ok_iff] at h
    obtain ⟨w₁, hr, hrs⟩ := h
    rw [askAll_cons, ask_of_foldlM hr, ih hrs]
    rfl

/-- The accepted requests alone are all accepted and make the same. -/
theorem askAll_accepted (w : Writer) (rs : List Request) : w.askAll (w.accepted rs) =
    (List.replicate (w.accepted rs).length none, (w.askAll rs).2) :=
  askAll_of_foldlM (foldlM_accepted w rs)

end Writer

end ObjectTracking.Markup

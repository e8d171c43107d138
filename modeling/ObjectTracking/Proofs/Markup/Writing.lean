import ObjectTracking.Proofs.Markup.Mixed
/-!
What a writer makes of calls that nest: their pieces, inside the elements that are open. It refuses
none of them.
-/
set_option autoImplicit false

namespace ObjectTracking.Markup

namespace Encoding
variable {σ : Type} {take : σ → Call → Except Fault σ}

def ofCalls (cs : List Call) : Encoding := ⟨cs.map .call, none⟩

theorem nothing_eq_ofCalls : nothing = ofCalls [] := rfl

theorem call_eq_ofCalls (c : Call) : call c = ofCalls [c] := rfl

theorem ofCalls_append (cs cs' : List Call) : ofCalls cs ++ ofCalls cs' = ofCalls (cs ++ cs') := by
  change append _ _ = _
  simp [append, ofCalls]

theorem element_ofCalls (ns : Namespace) (name : String) (cs : List Call) :
    element ns name (ofCalls cs) = ofCalls (.opening ns name :: (cs ++ [.closing])) := by
  rw [element, call_eq_ofCalls, call_eq_ofCalls, ofCalls_append, ofCalls_append]
  rfl

/-- An element that is written with its attributes and its content, and what is written after it. -/
theorem element_append (name : String) (attributes : List (String × String))
    (content rest : Content) :
    element .types name (ofCalls (attributeCalls attributes ++ content.calls)) ++
        ofCalls rest.calls =
      ofCalls (Content.element name attributes content rest).calls := by
  rw [element_ofCalls, ofCalls_append]
  simp [Content.calls]

theorem element_eq (name : String) (attributes : List (String × String)) (content : Content) :
    element .types name (ofCalls (attributeCalls attributes ++ content.calls)) =
      ofCalls (Content.element name attributes content .nothing).calls := by
  rw [element_ofCalls]
  simp [Content.calls]

theorem run_ofCalls {s s' : σ} {cs : List Call} (h : cs.foldlM take s = .ok s') :
    run take s (ofCalls cs) = ⟨s', [], none⟩ := by
  have hdeliver : deliver take s (cs.map .call) = ⟨s', [], none⟩ := by
    induction cs generalizing s with
    | nil =>
      obtain rfl : s = s' := by simpa [pure, Except.pure] using h
      rfl
    | cons c cs ih =>
      rw [List.foldlM_cons] at h
      cases hc : take s c with
      | error e => simp [hc, bind, Except.bind] at h
      | ok s₁ =>
        rw [hc] at h
        simp only [List.map_cons, deliver, hc]
        exact ih h
  simp [run, ofCalls, hdeliver]

end Encoding

namespace Writer
variable {w : Writer}

def put (w : Writer) (c : Mixed) : Writer :=
  if c.isNothing then w else { w.flush with written := c.pieces.reverse ++ w.flush.written }

@[simp] theorem flush_opened (w : Writer) : w.flush.opened = w.opened := by
  unfold flush
  split <;> rfl

@[simp] theorem flush_declared (w : Writer) : w.flush.declared = w.declared := by
  unfold flush
  split <;> rfl

@[simp] theorem flush_pending (w : Writer) : w.flush.pending = none := by
  unfold flush
  split
  · rfl
  · assumption

theorem flush_of_none (h : w.pending = none) : w.flush = w := by
  simp [flush, h]

theorem put_of_none (h : w.pending = none) (c : Mixed) :
    w.put c = { w with written := c.pieces.reverse ++ w.written } := by
  unfold put
  rw [flush_of_none h]
  cases c with
  | nothing => rfl
  | _ => rfl

theorem foldlM_attributes {t : PendingTag} (h : w.pending = some t)
    (attributes : List (String × String)) :
    (attributeCalls attributes).foldlM take w =
      .ok { w with pending := some { t with attributes := t.attributes ++ attributes } } := by
  induction attributes generalizing w t with
  | nil =>
    obtain ⟨held, written, opened, pending, declared⟩ := w
    cases h
    simp [attributeCalls, pure, Except.pure]
  | cons a attributes ih =>
    rw [attributeCalls, List.map_cons, List.foldlM_cons, take]
    simp only [h, bind, Except.bind]
    rw [← attributeCalls, ih rfl]
    simp

def start (w : Writer) (t : PendingTag) : Writer :=
  { w.flush with opened := t.name :: w.opened, pending := some t, declared := true }

def putElement (w : Writer) (t : PendingTag) (c : Mixed) : Writer :=
  { w.flush with
    written := (Mixed.wrap t c c.pieces).reverse ++ w.flush.written, declared := true }

theorem take_opening (w : Writer) (ns : Namespace) (name : String) :
    w.take (.opening ns name) =
      .ok (w.start ⟨ns.fullName name, if w.declared then [] else declarations⟩) := by
  simp only [take, start, flush_declared, flush_opened, Namespace.fullName]

theorem flush_start (w : Writer) (t : PendingTag) : (w.start t).flush =
    { w.start t with written := .opening t :: w.flush.written, pending := none } := rfl

theorem take_closing_put (w : Writer) (t : PendingTag) (c : Mixed) :
    ((w.start t).put c).take .closing = .ok (w.putElement t c) := by
  unfold put putElement Mixed.wrap
  cases c.isNothing with
  | true => simp [take, start]
  | false =>
    simp only [Bool.false_eq_true, if_false, take, flush_start]
    simp [start]

/-- The rest of an element whose start tag is held back: more attributes, the content, the end. -/
theorem foldlM_element (w : Writer) (t : PendingTag) (attributes : List (String × String))
    {c : Mixed} (hc : ∀ w' : Writer, w'.declared = true → w'.opened ≠ [] →
      c.calls.foldlM take w' = .ok (w'.put c)) :
    (attributeCalls attributes ++ (c.calls ++ [Call.closing])).foldlM take (w.start t) =
      .ok (w.putElement { t with attributes := t.attributes ++ attributes } c) := by
  rw [List.foldlM_append, foldlM_attributes (t := t) rfl]
  change (c.calls ++ [Call.closing]).foldlM take
    (w.start { t with attributes := t.attributes ++ attributes }) = _
  rw [List.foldlM_append, hc _ rfl (List.cons_ne_nil _ _)]
  change take _ .closing >>= pure = _
  rw [take_closing_put]
  rfl

theorem take_text (h : w.opened ≠ []) (s : String) :
    w.take (.text s) = .ok (w.put (.text s .nothing)) := by
  have hempty : w.opened.isEmpty = false := by simpa using h
  simp only [take, hempty, Bool.false_eq_true, if_false, put, Mixed.isNothing, Mixed.pieces]
  cases s.isEmpty <;> rfl

theorem put_text (w : Writer) (s : String) (rest : Mixed) :
    (w.put (.text s .nothing)).put rest = w.put (.text s rest) := by
  rw [put_of_none (w := w.put (.text s .nothing)) (flush_pending w)]
  simp [put, Mixed.isNothing, Mixed.pieces]

theorem put_element (w : Writer) (hdeclared : w.declared = true) (ns : Namespace) (name : String)
    (attributes : List (String × String)) (content rest : Mixed) :
    (w.putElement ⟨ns.fullName name, attributes⟩ content).put rest =
      w.put (.element ns name attributes content rest) := by
  rw [put_of_none (w := w.putElement _ content) (flush_pending w)]
  simp [put, putElement, Mixed.isNothing, Mixed.pieces, hdeclared]

theorem foldlM_calls (c : Mixed) (hdeclared : w.declared = true) (hopened : w.opened ≠ []) :
    c.calls.foldlM take w = .ok (w.put c) := by
  induction c generalizing w with
  | nothing => rfl
  | text s rest ih =>
    rw [Mixed.calls, List.foldlM_cons, take_text hopened, ← put_text w s rest]
    refine ih ?_ ?_
    · simpa [put, Mixed.isNothing] using hdeclared
    · simpa [put, Mixed.isNothing] using hopened
  | element ns name attributes content rest ihcontent ihrest =>
    have hsplit : (Mixed.element ns name attributes content rest).calls =
        .opening ns name :: ((attributeCalls attributes ++ (content.calls ++ [.closing])) ++
          rest.calls) := by
      simp [Mixed.calls]
    have helement := foldlM_element w ⟨ns.fullName name, []⟩ attributes (c := content)
      fun w' hw' ho' => ihcontent hw' ho'
    rw [hsplit, List.foldlM_cons, take_opening, hdeclared, if_pos rfl]
    simp only [bind, Except.bind]
    rw [List.foldlM_append, helement]
    simp only [bind, Except.bind, List.nil_append]
    rw [← put_element w hdeclared]
    exact ihrest rfl (by simpa [putElement] using hopened)

/-- The calls of a single element, handed to a new writer. -/
theorem foldlM_root (bytes : List UInt8) (ns : Namespace) (name : String)
    (attributes : List (String × String)) (c : Mixed) :
    (Mixed.element ns name attributes c .nothing).calls.foldlM take (onto bytes) =
      .ok (putElement (onto bytes) ⟨ns.fullName name, declarations ++ attributes⟩ c) := by
  have helement := foldlM_element (onto bytes) ⟨ns.fullName name, declarations⟩ attributes (c := c)
    fun w' hw' ho' => foldlM_calls c hw' ho'
  rw [Mixed.calls, List.foldlM_cons, take_opening]
  exact helement

theorem finish_root (t : PendingTag) (c : Mixed) : ((onto []).putElement t c).finish =
    .ok (String.join ((Mixed.wrap t c c.pieces).map Piece.render)) := by
  simp [finish, text, putElement, flush, onto]

end Writer

theorem Encoding.document_ofCalls {cs : List Call} {w : Writer}
    (h : cs.foldlM Writer.take {} = .ok w) : (ofCalls cs).document = (w.finish, []) := by
  simp only [document, documentBy, run_ofCalls h]
  rfl

end ObjectTracking.Markup

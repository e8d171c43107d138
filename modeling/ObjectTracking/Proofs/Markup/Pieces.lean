import ObjectTracking.Proofs.Markup.Writing
import ObjectTracking.Proofs.Text.Utf8
/-!
The pieces that a writer has written. Whatever calls it has taken, they begin the elements that the
calls began and leave open those that the writer notes as open, so that in a finished document every
end tag has the name of its start tag. A document can be finished behind a text, and behind nothing
else.
-/
set_option autoImplicit false

namespace ObjectTracking.Markup

/-- Pieces in which every start tag has its end tag, and every end tag the name of its start tag. -/
inductive Paired : List Piece → Prop where
  | nil : Paired []
  | text (s : String) {rest : List Piece} (after : Paired rest) : Paired (.text s :: rest)
  | empty (t : PendingTag) {rest : List Piece} (after : Paired rest) : Paired (.empty t :: rest)
  | element (t : PendingTag) {content rest : List Piece} (within : Paired content)
      (after : Paired rest) : Paired (.opening t :: (content ++ .closing t.name :: rest))

/-- Pieces that leave elements of some names open, the innermost first. All else is paired. -/
inductive LeavesOpen : List String → List Piece → Prop where
  | nothing {ps : List Piece} (h : Paired ps) : LeavesOpen [] ps
  | opening {outer : List String} {ps content : List Piece} (t : PendingTag)
      (before : LeavesOpen outer ps) (within : Paired content) :
      LeavesOpen (t.name :: outer) (ps ++ .opening t :: content)

def Piece.begun? : Piece → Option String
  | .opening t => some t.name
  | .empty t => some t.name
  | .closing _ => none
  | .text _ => none

def Call.begun? : Call → Option String
  | .opening ns name => some (ns.fullName name)
  | .attr _ _ => none
  | .text _ => none
  | .closing => none

def Call.isStart : Call → Bool
  | .opening _ _ => true
  | _ => false

def Call.isEnd : Call → Bool
  | .closing => true
  | _ => false

section Pieces
variable {ps qs : List Piece} {name : String} {outer : List String}

theorem Paired.append (hp : Paired ps) (hq : Paired qs) : Paired (ps ++ qs) := by
  induction hp with
  | nil => exact hq
  | text s _ ih => exact .text s ih
  | empty t _ ih => exact .empty t ih
  | element t within _ _ ih =>
    rw [List.cons_append, List.append_assoc]
    exact .element t within ih

theorem LeavesOpen.append (hp : LeavesOpen outer ps) (hq : Paired qs) :
    LeavesOpen outer (ps ++ qs) := by
  cases hp with
  | nothing hp => exact .nothing (hp.append hq)
  | opening t before within =>
    rw [List.append_assoc, List.cons_append]
    exact .opening t before (within.append hq)

theorem LeavesOpen.close (h : LeavesOpen (name :: outer) ps) :
    LeavesOpen outer (ps ++ [.closing name]) := by
  cases h with
  | opening t before within =>
    rw [List.append_assoc, List.cons_append]
    exact before.append (.element t within .nil)

theorem LeavesOpen.paired (h : LeavesOpen [] ps) : Paired ps := by
  cases h with
  | nothing h => exact h

end Pieces

namespace Writer
variable {w w' : Writer} {c : Call} {cs cs' : List Call}

theorem foldlM_cons_eq_ok_iff : (c :: cs).foldlM take w = .ok w' ↔
    ∃ w₁, w.take c = .ok w₁ ∧ cs.foldlM take w₁ = .ok w' := by
  rw [List.foldlM_cons]
  cases w.take c <;> simp [bind, Except.bind]

theorem foldlM_append_eq_ok_iff : (cs ++ cs').foldlM take w = .ok w' ↔
    ∃ w₁, cs.foldlM take w = .ok w₁ ∧ cs'.foldlM take w₁ = .ok w' := by
  rw [List.foldlM_append]
  cases cs.foldlM take w <;> simp [bind, Except.bind]

/-- What a writer becomes by a call. -/
inductive Takes (w : Writer) : Call → Writer → Prop where
  | opening (ns : Namespace) (name : String) : Takes w (.opening ns name)
      (w.start ⟨ns.fullName name, if w.declared then [] else declarations⟩)
  | attr (name value : String) {t : PendingTag} (hpending : w.pending = some t) :
      Takes w (.attr name value)
        { w with pending := some { t with attributes := t.attributes ++ [(name, value)] } }
  | text (value : String) (hopened : w.opened ≠ []) :
      Takes w (.text value) (w.put (.text value .nothing))
  | empty {name : String} {outer : List String} {t : PendingTag}
      (hopened : w.opened = name :: outer) (hpending : w.pending = some t) :
      Takes w .closing
        { w with written := .empty t :: w.written, opened := outer, pending := none }
  | closing {name : String} {outer : List String} (hopened : w.opened = name :: outer)
      (hpending : w.pending = none) :
      Takes w .closing { w with written := .closing name :: w.written, opened := outer }

theorem takes_of_take (h : w.take c = .ok w') : Takes w c w' := by
  cases c with
  | opening ns name =>
    rw [take_opening] at h
    cases h
    exact .opening ns name
  | attr name value =>
    rw [take] at h
    split at h
    · rename_i hpending
      cases h
      exact .attr name value hpending
    · cases h
  | text value =>
    by_cases hopened : w.opened = []
    · simp only [take, hopened, List.isEmpty_nil, if_true] at h
      cases h
    · rw [take_text hopened] at h
      cases h
      exact .text value hopened
  | closing =>
    rw [take] at h
    split at h
    · cases h
    · rename_i hopened
      split at h
      · rename_i hpending
        cases h
        exact .empty hopened hpending
      · rename_i hpending
        cases h
        exact .closing hopened hpending

/-- What every call keeps is kept by many calls. -/
theorem foldlM_taken {P : List Call → Writer → Prop}
    (hstep : ∀ {cs w c w'}, P cs w → Takes w c w' → P (cs ++ [c]) w') {before : List Call}
    (hbefore : P before w) (h : cs.foldlM take w = .ok w') : P (before ++ cs) w' := by
  induction cs generalizing before w with
  | nil =>
    cases h
    rwa [List.append_nil]
  | cons c cs ih =>
    obtain ⟨w₁, hc, hcs⟩ := foldlM_cons_eq_ok_iff.mp h
    rw [List.append_cons]
    exact ih (hstep hbefore (takes_of_take hc)) hcs

/-- The pieces written leave open what is noted as open, but for an element whose start tag is held
back. -/
def Keeps (w : Writer) : Prop :=
  match w.pending with
  | some t => ∃ outer, w.opened = t.name :: outer ∧ LeavesOpen outer w.written.reverse
  | none => LeavesOpen w.opened w.written.reverse

theorem keeps_of_some_iff {t : PendingTag} (hpending : w.pending = some t) : w.Keeps ↔
    ∃ outer, w.opened = t.name :: outer ∧ LeavesOpen outer w.written.reverse := by
  rw [Keeps, hpending]

theorem keeps_of_none_iff (hpending : w.pending = none) :
    w.Keeps ↔ LeavesOpen w.opened w.written.reverse := by
  rw [Keeps, hpending]

theorem Keeps.flush (h : w.Keeps) : LeavesOpen w.opened w.flush.written.reverse := by
  cases hpending : w.pending with
  | some t =>
    obtain ⟨outer, hopened, hleaves⟩ := (keeps_of_some_iff hpending).mp h
    simp only [Writer.flush, hpending, hopened, List.reverse_cons]
    exact .opening t hleaves .nil
  | none =>
    rw [flush_of_none hpending]
    exact (keeps_of_none_iff hpending).mp h

theorem Keeps.taken (h : w.Keeps) (hw : Takes w c w') : w'.Keeps := by
  cases hw with
  | opening ns name => exact ⟨w.opened, rfl, h.flush⟩
  | attr name value hpending =>
    obtain ⟨outer, hopened, hleaves⟩ := (keeps_of_some_iff hpending).mp h
    exact ⟨outer, hopened, hleaves⟩
  | text value hopened =>
    have htext : Paired (Mixed.text value .nothing).pieces := by
      simp only [Mixed.pieces, List.append_nil]
      split
      · exact .nil
      · exact .text value .nil
    have hpending : (w.put (.text value .nothing)).pending = none := flush_pending w
    rw [keeps_of_none_iff hpending]
    change LeavesOpen w.flush.opened (_ ++ w.flush.written).reverse
    rw [List.reverse_append, List.reverse_reverse, flush_opened]
    exact h.flush.append htext
  | empty hopened hpending =>
    obtain ⟨outer, hopened', hleaves⟩ := (keeps_of_some_iff hpending).mp h
    -- The name noted as open is that of the start tag held back.
    cases hopened.symm.trans hopened'
    refine (keeps_of_none_iff rfl).mpr ?_
    rw [List.reverse_cons]
    exact hleaves.append (.empty _ .nil)
  | closing hopened hpending =>
    have hleaves := (keeps_of_none_iff hpending).mp h
    rw [hopened] at hleaves
    rw [Keeps, hpending]
    change LeavesOpen _ (_ :: w.written).reverse
    rw [List.reverse_cons]
    exact hleaves.close

/-- Where nothing is open no start tag is held back. -/
theorem Keeps.pending_eq_none (h : w.Keeps) (hopened : w.opened = []) : w.pending = none := by
  cases hpending : w.pending with
  | some t =>
    obtain ⟨outer, hopened', -⟩ := (keeps_of_some_iff hpending).mp h
    cases hopened.symm.trans hopened'
  | none => rfl

theorem Keeps.paired (h : w.Keeps) (hopened : w.opened = []) : Paired w.written.reverse := by
  have hleaves := (keeps_of_none_iff (h.pending_eq_none hopened)).mp h
  rw [hopened] at hleaves
  exact hleaves.paired

def begun (w : Writer) : List String := w.flush.written.reverse.filterMap Piece.begun?

theorem Takes.begun (h : Takes w c w') : w'.begun = w.begun ++ [c].filterMap Call.begun? := by
  cases h with
  | opening ns name =>
    rw [Writer.begun, flush_start, List.reverse_cons, List.filterMap_append]
    rfl
  | attr name value hpending =>
    simp only [Writer.begun, Writer.flush, hpending, List.reverse_cons, List.filterMap_append]
    exact (List.append_nil _).symm
  | text value hopened =>
    have hpending : (w.put (.text value .nothing)).pending = none := flush_pending w
    have htext : (Mixed.text value .nothing).pieces.filterMap Piece.begun? = [] := by
      simp only [Mixed.pieces, List.append_nil]
      split <;> rfl
    rw [Writer.begun, flush_of_none hpending]
    change (_ ++ w.flush.written).reverse.filterMap _ = _
    rw [List.reverse_append, List.reverse_reverse, List.filterMap_append, htext]
    rfl
  | empty hopened hpending =>
    simp only [Writer.begun, Writer.flush, hpending, List.reverse_cons, List.filterMap_append]
    exact (List.append_nil _).symm
  | closing hopened hpending =>
    simp only [Writer.begun, Writer.flush, hpending, List.reverse_cons, List.filterMap_append]
    rfl

theorem Takes.held (h : Takes w c w') : w'.held = w.held := by
  cases h <;> simp [start, put, Mixed.isNothing, Writer.flush] <;> split <;> rfl

theorem Takes.opened_length (h : Takes w c w') :
    w'.opened.length + [c].countP Call.isEnd = w.opened.length + [c].countP Call.isStart := by
  cases h <;> simp [start, put, Mixed.isNothing, Call.isEnd, Call.isStart, *]

/-- A writer that has taken some calls. -/
structure Wrote (bytes : List UInt8) (cs : List Call) (w : Writer) : Prop where
  held : w.held = bytes
  opened : w.opened.length + cs.countP Call.isEnd = cs.countP Call.isStart
  begun : w.begun = cs.filterMap Call.begun?
  keeps : w.Keeps

theorem wrote_onto (bytes : List UInt8) : Wrote bytes [] (onto bytes) :=
  ⟨rfl, rfl, rfl, .nothing .nil⟩

theorem Wrote.taken {bytes : List UInt8} (h : Wrote bytes cs w) (hw : Takes w c w') :
    Wrote bytes (cs ++ [c]) w' where
  held := hw.held.trans h.held
  opened := by
    have hlength := hw.opened_length
    have hopened := h.opened
    rw [List.countP_append, List.countP_append]
    omega
  begun := by rw [hw.begun, h.begun, List.filterMap_append]
  keeps := h.keeps.taken hw

theorem wrote_of_foldlM {bytes : List UInt8} (h : cs.foldlM take (onto bytes) = .ok w) :
    Wrote bytes cs w := foldlM_taken (P := Wrote bytes) Wrote.taken (wrote_onto bytes) h

/-- A document can be finished if no element is open and the output held a text before. It is that
text with what was written behind it. -/
theorem finish_eq_ok_iff {s : String} : w.finish = .ok s ↔ w.opened = [] ∧
    ∃ before : String, w.held = Text.toUtf8 before.toList ∧ s = before ++ w.text := by
  rw [← Text.ofUtf8_append_eq_ok_iff, finish]
  cases w.opened with
  | cons name outer => simp
  | nil =>
    cases hheld : w.held with
    | nil => simp [Text.ofUtf8_eq_ok_iff, Text.toUtf8_inj, String.toList_inj]
    | cons b bytes =>
      simp only [List.isEmpty_cons, Bool.false_eq_true, if_false, true_and]
      cases Text.ofUtf8 (b :: bytes ++ Text.toUtf8 w.text.toList) with
      | ok s' => simp
      | error cause => simp

end Writer

end ObjectTracking.Markup

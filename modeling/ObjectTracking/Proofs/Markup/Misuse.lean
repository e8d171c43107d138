import ObjectTracking.Proofs.Markup.Request
/-!
Misuse of a writer. A request is refused only for a mistake that the calls before it tell, and it
then leaves the writer as it was: the document is that of the accepted requests alone. It can be
finished once as many elements are ended as were started, if what the output held before is a text,
and every end tag in it has the name of its start tag.
-/
set_option autoImplicit false

namespace ObjectTracking.Markup

/-- Attributes may come next: some calls end with a start and attributes. -/
def AfterStart (cs : List Call) : Prop :=
  ∃ before ns name attributes, cs = before ++ .opening ns name :: attributeCalls attributes

/-- How many elements are open after a call, of those that were open before. An end with nothing
open ends nothing. -/
def Call.depthAfter (depth : Nat) : Call → Nat
  | .opening _ _ => depth + 1
  | .closing => depth - 1
  | .attr _ _ => depth
  | .text _ => depth

def openElements (cs : List Call) : Nat := cs.foldl Call.depthAfter 0

/-- What is a mistake to ask for after some calls. -/
inductive Mistake (before : List Call) : Request → Misplaced → Prop
  | attr (name value : String) (h : ¬AfterStart before) :
      Mistake before (.call (.attr name value)) (.attributeOutsideStart name)
  | text (value : String) (h : openElements before = 0) :
      Mistake before (.call (.text value)) .textOutsideElement
  | closing (h : openElements before = 0) : Mistake before (.call .closing) .nothingOpen

section AfterStart
variable {cs : List Call}

theorem not_afterStart_nil : ¬AfterStart [] := by
  rintro ⟨before, ns, name, attributes, h⟩
  cases before <;> cases h

/-- Some calls end with a start and attributes if the last one is a start, or an attribute and those
before it do. -/
theorem afterStart_concat_iff {c : Call} : AfterStart (cs ++ [c]) ↔
    (∃ ns name, c = .opening ns name) ∨ (∃ name value, c = .attr name value) ∧ AfterStart cs := by
  constructor
  · rintro ⟨before, ns, name, attributes, h⟩
    rcases List.eq_nil_or_concat attributes with rfl | ⟨attributes, a, rfl⟩
    · have hsplit : cs ++ [c] = before ++ [.opening ns name] := h
      exact .inl ⟨ns, name, List.singleton_inj.mp (List.append_inj' hsplit rfl).2⟩
    · have hsplit : cs ++ [c] =
          (before ++ .opening ns name :: attributeCalls attributes) ++ [.attr a.1 a.2] := by
        simpa [attributeCalls] using h
      obtain ⟨hcs, hc⟩ := List.append_inj' hsplit rfl
      exact .inr ⟨⟨a.1, a.2, List.singleton_inj.mp hc⟩, before, ns, name, attributes, hcs⟩
  · rintro (⟨ns, name, rfl⟩ | ⟨⟨name, value, rfl⟩, before, ns, name', attributes, rfl⟩)
    · exact ⟨cs, ns, name, [], rfl⟩
    · exact ⟨before, ns, name', attributes ++ [(name, value)], by simp [attributeCalls]⟩

theorem afterStart_opening (cs : List Call) (ns : Namespace) (name : String) :
    AfterStart (cs ++ [.opening ns name]) := afterStart_concat_iff.mpr (.inl ⟨ns, name, rfl⟩)

theorem afterStart_attr {name value : String} :
    AfterStart (cs ++ [.attr name value]) ↔ AfterStart cs := by
  simp [afterStart_concat_iff]

theorem not_afterStart_text (cs : List Call) (value : String) :
    ¬AfterStart (cs ++ [.text value]) := by
  simp [afterStart_concat_iff]

theorem not_afterStart_closing (cs : List Call) : ¬AfterStart (cs ++ [.closing]) := by
  simp [afterStart_concat_iff]

end AfterStart

theorem openElements_concat (cs : List Call) (c : Call) :
    openElements (cs ++ [c]) = c.depthAfter (openElements cs) := by
  rw [openElements, List.foldl_concat]
  rfl

namespace Writer
variable {w w' : Writer} {c : Call} {cs : List Call}

/-- A writer as some calls have left it, whichever of them were refused. -/
structure Follows (cs : List Call) (w : Writer) : Prop where
  pending : w.pending ≠ none ↔ AfterStart cs
  opened : w.opened.length = openElements cs
  idle : w.opened = [] → w.pending = none

theorem follows_onto (bytes : List UInt8) : Follows [] (onto bytes) where
  pending := by
    refine iff_of_false ?_ not_afterStart_nil
    exact fun h => h rfl
  opened := rfl
  idle _ := rfl

theorem Follows.openElements_eq_zero_iff (h : Follows cs w) :
    openElements cs = 0 ↔ w.opened = [] := by
  rw [← h.opened, List.length_eq_zero_iff]

/-- A call is refused for a mistake, and for nothing else. -/
theorem Follows.take_eq_error_iff (h : Follows cs w) {e : Fault} : w.take c = .error e ↔
    ∃ cause, e = .misplaced cause ∧ Mistake cs (.call c) cause := by
  constructor
  · intro he
    cases c with
    | opening ns name => cases he
    | attr name value =>
      rw [take] at he
      split at he
      · cases he
      · rename_i hpending
        cases he
        exact ⟨_, rfl, .attr name value fun hafter => h.pending.mpr hafter hpending⟩
    | text value =>
      by_cases hopened : w.opened = []
      · simp only [take, hopened, List.isEmpty_nil, if_true] at he
        cases he
        exact ⟨_, rfl, .text value (h.openElements_eq_zero_iff.mpr hopened)⟩
      · rw [take_text hopened] at he
        cases he
    | closing =>
      rw [take] at he
      split at he
      · rename_i hopened
        cases he
        exact ⟨_, rfl, .closing (h.openElements_eq_zero_iff.mpr hopened)⟩
      · split at he <;> cases he
  · rintro ⟨cause, rfl, hmistake⟩
    cases hmistake with
    | attr name value hafter =>
      have hpending : w.pending = none := not_not.mp (mt h.pending.mp hafter)
      simp only [take, hpending]
    | text value hdepth =>
      have hopened := h.openElements_eq_zero_iff.mp hdepth
      simp only [take, hopened, List.isEmpty_nil, if_true]
    | closing hdepth =>
      have hopened := h.openElements_eq_zero_iff.mp hdepth
      simp only [take, hopened]

theorem Follows.concat (h : Follows cs w) (hpending : w'.pending ≠ none ↔ AfterStart (cs ++ [c]))
    (hopened : w'.opened.length = c.depthAfter w.opened.length)
    (hidle : w'.opened = [] → w'.pending = none) : Follows (cs ++ [c]) w' where
  pending := hpending
  opened := by rw [hopened, h.opened, openElements_concat]
  idle := hidle

/-- A call that is refused changes nothing that is told from the calls. -/
theorem Follows.refused (h : Follows cs w) {e : Fault} (he : w.take c = .error e) :
    Follows (cs ++ [c]) w := by
  obtain ⟨cause, -, hmistake⟩ := h.take_eq_error_iff.mp he
  cases hmistake with
  | attr name value hafter => exact h.concat (h.pending.trans afterStart_attr.symm) rfl h.idle
  | text value hdepth =>
    -- No start tag is held back outside the elements, so that attributes cannot come next.
    have hpending := h.idle (h.openElements_eq_zero_iff.mp hdepth)
    exact h.concat (iff_of_false (not_not.mpr hpending) (not_afterStart_text cs value)) rfl h.idle
  | closing hdepth =>
    have hopened := h.openElements_eq_zero_iff.mp hdepth
    have hpending := h.idle hopened
    refine h.concat (iff_of_false (not_not.mpr hpending) (not_afterStart_closing cs)) ?_ h.idle
    -- An end takes one from the depth, and from none there is nothing to take.
    rw [hopened]
    rfl

theorem Follows.taken (h : Follows cs w) (hw : Takes w c w') : Follows (cs ++ [c]) w' := by
  cases hw with
  | opening ns name =>
    refine h.concat (iff_of_true (Option.some_ne_none _) (afterStart_opening cs ns name)) rfl ?_
    intro hopened
    cases hopened
  | attr name value hpending =>
    have hafter := h.pending.mp (hpending ▸ Option.some_ne_none _)
    refine h.concat (iff_of_true (Option.some_ne_none _) (afterStart_attr.mpr hafter)) rfl ?_
    intro hopened
    cases (h.idle hopened).symm.trans hpending
  | text value hopened =>
    have hpending : (w.put (.text value .nothing)).pending = none := flush_pending w
    have hlength : (w.put (.text value .nothing)).opened.length = w.opened.length :=
      congrArg List.length (flush_opened w)
    exact h.concat (iff_of_false (not_not.mpr hpending) (not_afterStart_text cs value)) hlength
      fun _ => hpending
  | empty hopened _ =>
    refine h.concat (iff_of_false (not_not.mpr rfl) (not_afterStart_closing cs)) ?_ fun _ => rfl
    rw [hopened]
    rfl
  | closing hopened hpending =>
    refine h.concat (iff_of_false (not_not.mpr hpending) (not_afterStart_closing cs)) ?_
      fun _ => hpending
    rw [hopened]
    rfl

theorem Follows.ask (h : Follows cs w) (r : Request) : Follows (cs ++ r.calls) (w.ask r).2 := by
  obtain ⟨w', hw', hask⟩ | ⟨c, e, rfl, he, hask⟩ := ask_cases w r
  · rw [hask]
    exact foldlM_taken (P := Follows) Follows.taken h hw'
  · rw [hask]
    exact h.refused he

theorem Follows.askAll (h : Follows cs w) (rs : List Request) :
    Follows (cs ++ rs.flatMap Request.calls) (w.askAll rs).2 := by
  induction rs generalizing cs w with
  | nil => rwa [List.flatMap_nil, List.append_nil]
  | cons r rs ih =>
    rw [askAll_cons, List.flatMap_cons, ← List.append_assoc]
    exact ih (h.ask r)

/-- A request is refused for a mistake, and for nothing else. -/
theorem Follows.ask_eq_some_iff (h : Follows cs w) (r : Request) {e : Fault} :
    (w.ask r).1 = some e ↔ ∃ cause, e = .misplaced cause ∧ Mistake cs r cause := by
  constructor
  · intro he
    obtain ⟨w', -, hask⟩ | ⟨c, e', rfl, he', hask⟩ := ask_cases w r
    · rw [hask] at he
      cases he
    · rw [hask] at he
      cases he
      exact h.take_eq_error_iff.mp he'
  · rintro ⟨cause, rfl, hmistake⟩
    cases r with
    | call c => rw [ask_of_error (h.take_eq_error_iff.mpr ⟨cause, rfl, hmistake⟩)]
    | element ns name value => cases hmistake

/-- What becomes of requests to a new writer, whatever they are and whatever its output held before.
The answers are those of the caller who goes on after each refusal. -/
structure Unharmed (bytes : List UInt8) (rs : List Request) : Prop where
  /-- Every request has an answer. -/
  answered : ((onto bytes).askAll rs).1.length = rs.length
  /-- A request is refused for a mistake that the calls before it tell, and for nothing else. -/
  refused_iff : ∀ before r after fault, rs = before ++ r :: after →
    (((onto bytes).askAll rs).1[before.length]? = some (some fault) ↔
      ∃ cause, fault = .misplaced cause ∧ Mistake (before.flatMap Request.calls) r cause)
  /-- Without the refused requests the others are all accepted, and the writer is the same. -/
  accepted_alone : (onto bytes).askAll ((onto bytes).accepted rs) =
    (List.replicate ((onto bytes).accepted rs).length none, ((onto bytes).askAll rs).2)
  /-- The document can be finished once all that was started is ended. -/
  finish_iff : (∃ s, ((onto bytes).askAll rs).2.finish = .ok s) ↔
    (((onto bytes).accepted rs).flatMap Request.calls).countP Call.isStart =
        (((onto bytes).accepted rs).flatMap Request.calls).countP Call.isEnd ∧
      ∃ before : String, bytes = Text.toUtf8 before.toList
  /-- The finished document has the elements that were started, each with its own end tag. -/
  finished : ∀ s, ((onto bytes).askAll rs).2.finish = .ok s →
    ∃ (before : String) (pieces : List Piece),
      bytes = Text.toUtf8 before.toList ∧ s = before ++ String.join (pieces.map Piece.render) ∧
      pieces.filterMap Piece.begun? =
        (((onto bytes).accepted rs).flatMap Request.calls).filterMap Call.begun? ∧
      Paired pieces

end Writer

/-- Misuse does a writer no harm: the document is that of the accepted requests. -/
theorem Writer.unharmed (bytes : List UInt8) (rs : List Request) : Unharmed bytes rs where
  answered := length_askAll _ rs
  refused_iff := by
    rintro before r after fault rfl
    have hfollows := (follows_onto bytes).askAll before
    rw [askAll_getElem?, Option.some.injEq]
    exact hfollows.ask_eq_some_iff r
  accepted_alone := askAll_accepted _ rs
  finish_iff := by
    have hwrote := wrote_of_foldlM (foldlM_accepted (onto bytes) rs)
    have hopened := hwrote.opened
    simp only [finish_eq_ok_iff, hwrote.held, ← List.length_eq_zero_iff]
    constructor
    · rintro ⟨s, hzero, before, hbefore, -⟩
      exact ⟨by omega, before, hbefore⟩
    · rintro ⟨hequal, before, hbefore⟩
      exact ⟨_, by omega, before, hbefore, rfl⟩
  finished := by
    intro s hs
    have hwrote := wrote_of_foldlM (foldlM_accepted (onto bytes) rs)
    obtain ⟨hopened, before, hheld, rfl⟩ := finish_eq_ok_iff.mp hs
    refine ⟨before, _, hwrote.held.symm.trans hheld, rfl, ?_, hwrote.keeps.paired hopened⟩
    have hbegun := hwrote.begun
    rwa [begun, flush_of_none (hwrote.keeps.pending_eq_none hopened)] at hbegun

/-- Behind a byte that is no text a document cannot be finished, though its one element is ended. -/
theorem Writer.spoilt_not_finished :
    let w := onto [0xFF]
    let rs : List Request := [.call (.opening .types "Folder"), .call .closing]
    (w.askAll rs).1 = [none, none] ∧
      ((w.accepted rs).flatMap Request.calls).countP Call.isStart =
        ((w.accepted rs).flatMap Request.calls).countP Call.isEnd ∧
      (w.askAll rs).2.finish = .error (.misplaced (.notUtf8 (.invalid 1 0))) :=
  ⟨rfl, rfl, rfl⟩

end ObjectTracking.Markup

import ObjectTracking.Proofs.Composite.Markup
import ObjectTracking.Proofs.Composite.Reading
import ObjectTracking.Proofs.Mail.WellFormed
import ObjectTracking.Proofs.Markup.Reading
import ObjectTracking.Proofs.Property.Reader
/-!
A composite that callers have built is written as a document of its own, and that is read into a new
composite of its layout. The two are equal unless a text was left unset that could be empty.
-/
set_option autoImplicit false

namespace ObjectTracking
open Markup

namespace Composite

/-- The composites that callers can build: those of edits that assign others built like that, and
those that are read. -/
inductive Built (cat : Catalog) : Composite → Prop where
  | new (l : LayoutId) : Built cat (Composite.new cat l)
  | edit {c : Composite} (hc : Built cat c) (edit : CompositeEdit)
      (hedit : ∀ n, edit.assigned? = some n → Built cat n) : Built cat (c.perform cat edit).state
  | read {c : Composite} (hc : Built cat c) (session : Session) (site : Site) :
      Built cat (c.load cat session site).state

/-- A composite is written as an element, and what is read of that is equal to it. -/
def IsReadBack (cat : Catalog) (session : Session) (element : String) (c : Composite) : Prop :=
  ∃ text cursor v, (c.encode cat element).document = (.ok text, []) ∧
    Cursor.ofXml text >>= Cursor.advance = .ok cursor ∧
    ((new cat c.layout).read cat session cursor).result = .ok v ∧ (v == c) = true

variable {cat : Catalog} {c : Composite} {element : String}

theorem Built.fits (hcat : cat.WellFormed) (h : c.Built cat) : c.Fits cat := by
  induction h with
  | new l => exact new_fits cat l
  | edit _ _ _ ih ihassigned => exact ih.assign ihassigned
  | read _ session site ih =>
    have hfits := ih.fitsIn cat.closed_true trivial
    exact (hfits.load hcat.consistent session site).fits.fits trivial

/-- Every composite that fits is written as an element and read again, without remarks. -/
theorem Fits.isRead (hcat : cat.WellFormed) (h : c.Fits cat) (helement : IsName element) :
    ∃ text cursor, (c.encode cat element).document = (.ok text, []) ∧
      Cursor.ofXml text >>= Cursor.advance = .ok cursor ∧
      ∀ session, (new cat c.layout).read cat session cursor =
        .ofTree cursor (.done (c.retold cat)) := by
  obtain ⟨body, hbody⟩ := Composite.conveyed hcat c h
  obtain ⟨text, cursor, htext, hcursor, hsite⟩ :=
    ofXml_document helement (areAttributes (hcat c.layout)) hbody.wellFormed
  refine ⟨text, cursor, ?_, hcursor, ?_⟩
  · rw [encode, hbody.encoded]
    exact htext
  · intro session
    rw [read_eq, hsite, hbody.loaded session _ fun _ _ _ => rfl]

/-- There is one document and one reading of it, so that only what is read has to be compared. -/
theorem Fits.isReadBack_iff_retold (hcat : cat.WellFormed) (h : c.Fits cat)
    (helement : IsName element) (session : Session) :
    c.IsReadBack cat session element ↔ (c.retold cat == c) = true := by
  obtain ⟨text, cursor, htext, hcursor, hread⟩ := h.isRead hcat helement
  constructor
  · rintro ⟨text', cursor', v, htext', hcursor', hread', hv⟩
    obtain rfl : text = text' := by
      rw [htext] at htext'
      exact Except.ok.inj (congrArg Prod.fst htext')
    obtain rfl : cursor = cursor' := by
      rw [hcursor] at hcursor'
      exact Except.ok.inj hcursor'
    rw [hread session] at hread'
    obtain rfl : c.retold cat = v := Except.ok.inj hread'
    exact hv
  · intro hv
    exact ⟨text, cursor, c.retold cat, htext, hcursor, by rw [hread session]; rfl, hv⟩

/-- What callers have built is read back exactly if no field is unset, here or in anything nested,
that is the text of its element and has a codec that takes empty text for a value. -/
theorem Built.isReadBack_iff (hcat : cat.WellFormed) (h : c.Built cat) (helement : IsName element)
    (session : Session) : c.IsReadBack cat session element ↔ c.Telling cat := by
  have hfits := h.fits hcat
  rw [hfits.isReadBack_iff_retold hcat helement session, retold_beq_iff hcat c hfits]

def nameless : Composite :=
  (((new (Mail.catalog []) Mail.attendee).perform (Mail.catalog [])
      (.nested "Mailbox" (.set "Name" (.scalar (.text ""))))).state.perform (Mail.catalog [])
    (.set "ResponseType" (.scalar (.text "Accept")))).state

theorem nameless_isReadBack_iff : (Mail.catalog []).WellFormed ∧ nameless.Built (Mail.catalog []) ∧
    IsName "Attendee" ∧ nameless.Telling (Mail.catalog []) ∧
    (nameless.IsReadBack (Mail.catalog []) Mail.session "Attendee" ↔
      nameless.Telling (Mail.catalog [])) := by
  have hcat : (Mail.catalog []).WellFormed := Mail.catalog_wellFormed fun _ h => by cases h
  have hbuilt : nameless.Built (Mail.catalog []) :=
    ((Built.new Mail.attendee).edit _ fun _ h => by cases h).edit _ fun _ h => by cases h
  have hname : IsName "Attendee" := by decide
  have hmailbox : Telling (Mail.catalog []) (.mk Mail.mailbox none
      [.scalar (.text ""), .unset, .unset]) :=
    ⟨LayoutField.tells_of_not_text (by decide), trivial,
      LayoutField.tells_of_not_text (by decide), trivial,
      LayoutField.tells_of_not_text (by decide), trivial, trivial⟩
  have htells : nameless.Telling (Mail.catalog []) :=
    ⟨LayoutField.tells_of_not_text (by decide), hmailbox,
      LayoutField.tells_of_not_text (by decide), trivial, trivial⟩
  exact ⟨hcat, hbuilt, hname, htells, hbuilt.isReadBack_iff hcat hname Mail.session⟩

def wordless : Composite :=
  ((new (Mail.catalog []) Mail.body).perform (Mail.catalog [])
    (.set "BodyType" (.scalar (.text "Text")))).state

/-- The text of the body was unset, and is read as the empty text. -/
theorem wordless_not_readBack : wordless.Built (Mail.catalog []) ∧
    wordless.get (Mail.catalog []) "Value" = .ok .unset ∧
    (∃ text cursor v, (wordless.encode (Mail.catalog []) "Body").document = (.ok text, []) ∧
      Cursor.ofXml text >>= Cursor.advance = .ok cursor ∧
      ((new (Mail.catalog []) Mail.body).read (Mail.catalog []) Mail.session cursor).result = .ok v ∧
      v.get (Mail.catalog []) "Value" = .ok (.scalar (.text ""))) ∧
    ¬ wordless.IsReadBack (Mail.catalog []) Mail.session "Body" := by
  have hcat : (Mail.catalog []).WellFormed := Mail.catalog_wellFormed fun _ h => by cases h
  have hbuilt : wordless.Built (Mail.catalog []) :=
    (Built.new Mail.body).edit _ fun _ h => by cases h
  have hname : IsName "Body" := by decide
  have hfits := hbuilt.fits hcat
  obtain ⟨text, cursor, htext, hcursor, hread⟩ := hfits.isRead hcat hname
  have hread : ((new (Mail.catalog []) Mail.body).read (Mail.catalog []) Mail.session
      cursor).result = .ok (wordless.retold (Mail.catalog [])) := congrArg Passage.result
        (hread Mail.session)
  refine ⟨hbuilt, rfl, ⟨text, cursor, _, htext, hcursor, hread, rfl⟩, ?_⟩
  have hdiffers : (wordless.retold (Mail.catalog []) == wordless) = false := rfl
  rw [hfits.isReadBack_iff_retold hcat hname, hdiffers]
  exact Bool.false_ne_true

end Composite

end ObjectTracking

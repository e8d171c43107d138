import ObjectTracking.LocalCopy.Save
import ObjectTracking.Proofs.ObjectType
/-!
What a new object is written as: the elements of properties in a row, with the entries of a dictionary
together where the first of them stands.
-/
set_option autoImplicit false

namespace ObjectTracking
open Markup

namespace Markup.Encoding

theorem nothing_append (e : Encoding) : nothing ++ e = e := rfl

theorem concat_cons (e : Encoding) (es : List Encoding) : concat (e :: es) = e ++ concat es := rfl

end Markup.Encoding

variable {cat : Catalog} {ctx : WriteContext}

/-- Elements in a row for some values of properties. -/
inductive Spells (cat : Catalog) (ctx : WriteContext) (P : Property → Value → Prop) :
    Encoding → Prop where
  | nothing : Spells cat ctx P .nothing
  | append {a b : Encoding} (first : Spells cat ctx P a) (second : Spells cat ctx P b) :
      Spells cat ctx P (a ++ b)
  | element {q : Property} {v : Value} (sent : P q v) (plain : q.key? = none) :
      Spells cat ctx P (q.encode cat ctx v)
  | dictionary {q : Property} {v : Value} (sent : P q v) (keyed : q.key?.isSome = true)
      (entries : List (Property × Value))
      (each : ∀ x ∈ entries, P x.1 x.2 ∧ x.1.element = q.element) :
      Spells cat ctx P (.element .types q.element
        (.concat (entries.map fun x => x.1.encodeEntry cat ctx x.2)))

theorem Spells.imp {P Q : Property → Value → Prop} {e : Encoding} (h : Spells cat ctx P e)
    (himp : ∀ q v, P q v → Q q v) : Spells cat ctx Q e := by
  induction h with
  | nothing => exact .nothing
  | append first second ihfirst ihsecond => exact .append ihfirst ihsecond
  | element sent plain => exact .element (himp _ _ sent) plain
  | dictionary sent keyed entries each =>
    exact .dictionary (himp _ _ sent) keyed entries fun x hx => (each x hx).imp_left (himp _ _)

namespace LocalCopy
variable {o : LocalCopy} {q : Property} {slot : Nat} {v : Value}

/-- A new object is sent with a value of a property. -/
def Sends (o : LocalCopy) (q : Property) (v : Value) : Prop :=
  ∃ slot, o.type.property? slot = some q ∧ o.createValue? slot q = some v

theorem createValue?_eq_some_iff : o.createValue? slot q = some v ↔
    (q.isApplicable o.version = true ∧ q.has .settable o.version = true) ∧
      o.values.get? slot = some v := by
  unfold createValue?
  rw [Option.ite_none_right_eq_some, Bool.and_eq_true]

def encodeSlot (cat : Catalog) (ctx : WriteContext) (o : LocalCopy) (slot : Nat) : Encoding :=
  match o.type.property? slot with
  | none => .nothing
  | some q =>
    match o.createValue? slot q with
    | some v => q.encodeEntry cat ctx v
    | none => .nothing

theorem encodeDictionary_eq (cat : Catalog) (ctx : WriteContext) (o : LocalCopy)
    (element : String) : o.encodeDictionary cat ctx element =
      .element .types element (.concat ((o.type.dispatch element).map (o.encodeSlot cat ctx))) :=
  rfl

/-- What is written for some slots are entries of the properties that are sent. -/
theorem encodeSlots_eq (cat : Catalog) (ctx : WriteContext) (o : LocalCopy) {element : String}
    {slots : List Nat} (hslots : ∀ slot ∈ slots, ∀ q, o.type.property? slot = some q →
      q.element = element) :
    ∃ entries : List (Property × Value),
      (∀ x ∈ entries, o.Sends x.1 x.2 ∧ x.1.element = element) ∧
      Encoding.concat (slots.map (o.encodeSlot cat ctx)) =
        .concat (entries.map fun x => x.1.encodeEntry cat ctx x.2) := by
  induction slots with
  | nil => exact ⟨[], by simp, rfl⟩
  | cons slot slots ih =>
    obtain ⟨entries, hentries, heq⟩ := ih fun n hn => hslots n (List.mem_cons_of_mem slot hn)
    rw [List.map_cons, Encoding.concat_cons, heq, encodeSlot]
    cases hq : o.type.property? slot with
    | none => exact ⟨entries, hentries, rfl⟩
    | some q =>
      cases hv : o.createValue? slot q with
      | none => exact ⟨entries, hentries, by simp only [hv, Encoding.nothing_append]⟩
      | some v =>
        refine ⟨(q, v) :: entries, ?_, by simp only [hv, List.map_cons, Encoding.concat_cons]⟩
        have helement := hslots slot List.mem_cons_self q hq
        exact List.forall_mem_cons.mpr ⟨⟨⟨slot, hq, hv⟩, helement⟩, hentries⟩

theorem encodeMembers_spells (cat : Catalog) (ctx : WriteContext) (o : LocalCopy)
    (written : List String) {rest : List (Property × Nat)}
    (hrest : ∀ x ∈ rest, o.type.property? x.2 = some x.1) :
    Spells cat ctx o.Sends (o.encodeMembers cat ctx written rest) := by
  induction rest generalizing written with
  | nil => exact .nothing
  | cons x rest ih =>
    obtain ⟨q, slot⟩ := x
    have hq : o.type.property? slot = some q := hrest (q, slot) List.mem_cons_self
    have hafter := fun written => ih written fun x hx => hrest x (List.mem_cons_of_mem _ hx)
    rw [encodeMembers]
    split
    · exact hafter written
    · rename_i v hv
      have hsent : o.Sends q v := ⟨slot, hq, hv⟩
      split
      · rename_i hkey
        exact .append (.element hsent (by simpa using hkey)) (hafter written)
      · rename_i hkey
        split
        · exact hafter written
        · refine .append ?_ (hafter _)
          have hslots : ∀ n ∈ o.type.dispatch q.element, ∀ r, o.type.property? n = some r →
              r.element = q.element := by
            intro n hn r hr
            obtain ⟨r', hr', helement⟩ := ObjectType.mem_dispatch.mp hn
            rwa [Option.some.inj (hr.symm.trans hr')]
          obtain ⟨entries, hentries, heq⟩ := encodeSlots_eq cat ctx o hslots
          rw [encodeDictionary_eq, heq]
          exact .dictionary hsent (by simpa [Option.isSome_iff_ne_none] using hkey) entries hentries

/-- The element of a new object holds the elements of the properties that are sent, and nothing
else. -/
theorem encodeCreate_spells (cat : Catalog) (o : LocalCopy) : ∃ row,
    o.encodeCreate cat = .element .types o.type.element row ∧
      Spells cat ⟨o.session, false, none⟩ o.Sends row := by
  refine ⟨_, rfl, encodeMembers_spells cat _ o [] ?_⟩
  rintro ⟨q, slot⟩ hx
  exact List.mem_zipIdx_iff_getElem?.mp hx

end LocalCopy

end ObjectTracking

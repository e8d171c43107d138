import ObjectTracking.Proofs.LocalCopy.Elements
import ObjectTracking.Proofs.Property.Scoped
/-!
Where a property stands in what is sent. In a new object its element follows those of the properties
before it, or it is among the entries of a dictionary; in an update its operation follows those
before it.
-/
set_option autoImplicit false

namespace ObjectTracking
open Markup

namespace Markup.Encoding

theorem append_assoc (a b c : Encoding) : a ++ b ++ c = a ++ (b ++ c) := by
  obtain ⟨as, a?⟩ := a
  obtain ⟨bs, b?⟩ := b
  cases a? with
  | some e => rfl
  | none =>
    cases b? with
    | some e => rfl
    | none => exact congrArg (Encoding.mk · c.fault?) (List.append_assoc as bs c.emissions)

theorem concat_append (es es' : List Encoding) : concat (es ++ es') = concat es ++ concat es' := by
  induction es with
  | nil => rfl
  | cons e es ih => rw [List.cons_append, concat_cons, concat_cons, ih, append_assoc]

end Markup.Encoding

namespace LocalCopy
open Markup.Encoding
variable {cat : Catalog} {ctx : WriteContext} {o : LocalCopy} {q : Property} {slot : Nat} {v : Value}

/-- A property that a new object is sent with as the entry of a dictionary. -/
def SendsEntry (o : LocalCopy) (element : String) (x : Property × Nat) : Prop :=
  (o.createValue? x.2 x.1).isSome = true ∧ x.1.key?.isSome = true ∧ x.1.element = element

instance (o : LocalCopy) (element : String) : DecidablePred (o.SendsEntry element) := fun x =>
  inferInstanceAs (Decidable ((o.createValue? x.2 x.1).isSome = true ∧ x.1.key?.isSome = true ∧
    x.1.element = element))

/-- What is written of the properties from a place on depends on those before it only in which
dictionaries were written. -/
theorem encodeMembers_append (cat : Catalog) (ctx : WriteContext) (o : LocalCopy)
    (written : List String) (before after : List (Property × Nat)) : ∃ written',
      o.encodeMembers cat ctx written (before ++ after) =
        o.encodeMembers cat ctx written before ++ o.encodeMembers cat ctx written' after ∧
      ∀ element ∈ written', element ∈ written ∨ ∃ x ∈ before, o.SendsEntry element x := by
  induction before generalizing written with
  | nil => exact ⟨written, rfl, fun _ h => .inl h⟩
  | cons x before ih =>
    obtain ⟨q, slot⟩ := x
    have hlater : ∀ {written written' : List String},
        (∀ element ∈ written', element ∈ written ∨ ∃ x ∈ before, o.SendsEntry element x) →
        ∀ element ∈ written', element ∈ written ∨
          ∃ x ∈ (q, slot) :: before, o.SendsEntry element x := by
      intro written written' h element helement
      exact (h element helement).imp_right fun ⟨x, hx, hsent⟩ => ⟨x, List.mem_cons_of_mem _ hx, hsent⟩
    rw [List.cons_append, encodeMembers, encodeMembers]
    cases hv : o.createValue? slot q with
    | none =>
      obtain ⟨written', heq, hwritten⟩ := ih written
      exact ⟨written', heq, hlater hwritten⟩
    | some v =>
      dsimp only
      split
      · obtain ⟨written', heq, hwritten⟩ := ih written
        exact ⟨written', by rw [heq, append_assoc], hlater hwritten⟩
      · rename_i hkey
        split
        · obtain ⟨written', heq, hwritten⟩ := ih written
          exact ⟨written', heq, hlater hwritten⟩
        · -- Of all elements only a dictionary changes what is written after it.
          obtain ⟨written', heq, hwritten⟩ := ih (q.element :: written)
          refine ⟨written', by rw [heq, append_assoc], ?_⟩
          intro element helement
          rcases hlater hwritten element helement with hmem | hsent
          · rcases List.mem_cons.mp hmem with rfl | hmem
            · refine .inr ⟨(q, slot), List.mem_cons_self, by rw [hv]; rfl, ?_, rfl⟩
              simpa [Option.isSome_iff_ne_none] using hkey
            · exact .inl hmem
          · exact .inr hsent

theorem encodeMembers_plain (cat : Catalog) (ctx : WriteContext)
    (hv : o.createValue? slot q = some v) (hkey : q.key? = none)
    (before after : List (Property × Nat)) : ∃ written,
      o.encodeMembers cat ctx [] (before ++ (q, slot) :: after) =
        o.encodeMembers cat ctx [] before ++
          (q.encode cat ctx v ++ o.encodeMembers cat ctx written after) := by
  obtain ⟨written, heq, -⟩ := encodeMembers_append cat ctx o [] before ((q, slot) :: after)
  refine ⟨written, ?_⟩
  rw [heq]
  simp [encodeMembers, hv, hkey]

/-- A dictionary stands where its first entry does. -/
theorem encodeMembers_dictionary (cat : Catalog) (ctx : WriteContext)
    {before : List (Property × Nat)} {first : Property × Nat} {element : String}
    (hfirst : o.SendsEntry element first) (hbefore : ∀ x ∈ before, ¬ o.SendsEntry element x)
    (after : List (Property × Nat)) : ∃ written,
      o.encodeMembers cat ctx [] (before ++ first :: after) =
        o.encodeMembers cat ctx [] before ++
          (o.encodeDictionary cat ctx element ++ o.encodeMembers cat ctx written after) := by
  obtain ⟨written, heq, hwritten⟩ := encodeMembers_append cat ctx o [] before (first :: after)
  obtain ⟨q, slot⟩ := first
  obtain ⟨hsent, hkey, rfl⟩ := hfirst
  obtain ⟨v, hv⟩ := Option.isSome_iff_exists.mp hsent
  have hkeyed : q.key?.isNone = false := by
    rw [Option.isNone_eq_false_iff]
    exact hkey
  have hnew : written.contains q.element = false := by
    rw [← Bool.not_eq_true, List.contains_iff_mem]
    intro hmem
    rcases hwritten q.element hmem with hnil | ⟨x, hx, hx'⟩
    · cases hnil
    · exact hbefore x hx hx'
  refine ⟨q.element :: written, ?_⟩
  rw [heq]
  simp only [encodeMembers, hv, hkeyed, hnew, Bool.false_eq_true, if_false]

/-- The elements of a new object, with a content in that of a property. A property outside dictionaries
has its element in its own place. The entry of a dictionary is in its place among the other
entries, and the dictionary where the first of them is that is sent. -/
inductive Places (cat : Catalog) (ctx : WriteContext) (o : LocalCopy) (slot : Nat) (q : Property)
    (content : Encoding) : Encoding → Prop where
  | plain {before after : List (Property × Nat)} {written : List String} (outside : q.key? = none)
      (members : o.type.properties.zipIdx = before ++ (q, slot) :: after) :
      Places cat ctx o slot q content
        (o.encodeMembers cat ctx [] before ++
          (.element .types q.element (q.around content) ++ o.encodeMembers cat ctx written after))
  | entry {before after : List (Property × Nat)} {first : Property × Nat} {written : List String}
      {slots slots' : List Nat} (inside : q.key?.isSome = true)
      (members : o.type.properties.zipIdx = before ++ first :: after)
      (isFirst : o.SendsEntry q.element first ∧ ∀ x ∈ before, ¬ o.SendsEntry q.element x)
      (entries : o.type.dispatch q.element = slots ++ slot :: slots') :
      Places cat ctx o slot q content
        (o.encodeMembers cat ctx [] before ++
          (.element .types q.element (.concat (slots.map (o.encodeSlot cat ctx)) ++
            (q.around content ++ .concat (slots'.map (o.encodeSlot cat ctx)))) ++
              o.encodeMembers cat ctx written after))

/-- A property that a new object is sent with stands in its place. -/
theorem places (hq : o.type.property? slot = some q) (hv : o.createValue? slot q = some v)
    {content : Encoding}
    (helement : q.encode cat ctx v = .element .types q.element (q.around content))
    (hentry : q.key?.isSome = true → q.encodeEntry cat ctx v = q.around content) :
    Places cat ctx o slot q content (o.encodeMembers cat ctx [] o.type.properties.zipIdx) := by
  have hmem : (q, slot) ∈ o.type.properties.zipIdx := List.mem_zipIdx_iff_getElem?.mpr hq
  cases hkey : q.key? with
  | none =>
    obtain ⟨before, after, hmembers⟩ := List.append_of_mem hmem
    obtain ⟨written, heq⟩ := encodeMembers_plain cat ctx hv hkey before after
    rw [hmembers, heq, helement]
    exact .plain hkey hmembers
  | some key =>
    have hkeyed : q.key?.isSome = true := by rw [hkey]; rfl
    have hsends : o.SendsEntry q.element (q, slot) := ⟨by rw [hv]; rfl, hkeyed, rfl⟩
    -- The dictionary is written at its first entry, which need not be this one.
    cases hfind : o.type.properties.zipIdx.find? fun x => o.SendsEntry q.element x with
    | none =>
      have hnot := List.find?_eq_none.mp hfind (q, slot) hmem
      exact absurd (decide_eq_true hsends) hnot
    | some first =>
      obtain ⟨hfirst, before, after, hmembers, hbefore⟩ := List.find?_eq_some_iff_append.mp hfind
      have hleads : o.SendsEntry q.element first := of_decide_eq_true hfirst
      have hnone : ∀ x ∈ before, ¬ o.SendsEntry q.element x := by simpa using hbefore
      obtain ⟨written, heq⟩ := encodeMembers_dictionary cat ctx hleads hnone after
      have hdispatch : slot ∈ o.type.dispatch q.element := ObjectType.mem_dispatch.mpr ⟨q, hq, rfl⟩
      obtain ⟨slots, slots', hslots⟩ := List.append_of_mem hdispatch
      have hslot : o.encodeSlot cat ctx slot = q.around content := by
        simp only [encodeSlot, hq, hv, hentry hkeyed]
      rw [hmembers, heq, encodeDictionary_eq, hslots, List.map_append, List.map_cons, concat_append,
        concat_cons, hslot]
      exact .entry hkeyed hmembers ⟨hleads, hnone⟩ hslots

/-- The operations for a slot stand together among those of an update. -/
theorem payload_split (hq : o.type.property? slot = some q) :
    ∃ before after, o.payload = before ++ (o.slotOps slot q ++ after) := by
  obtain ⟨members, members', hmembers⟩ :=
    List.append_of_mem (List.mem_zipIdx_iff_getElem?.mpr hq : (q, slot) ∈ o.type.properties.zipIdx)
  rw [payload, hmembers, List.flatMap_append, List.flatMap_cons]
  exact ⟨_, _, rfl⟩

def encodeOp (cat : Catalog) (o : LocalCopy) (op : UpdateOp) : Encoding :=
  op.encode cat o.type ⟨o.session, true, o.linkedZone cat op.property⟩

def encodeSetting (o : LocalCopy) (q : Property) (v : Value) (content : Encoding) : Encoding :=
  .report (.operation .set q.uri q.key?) ++
    .element .types (o.type.target.element .set)
      ((UpdateOp.set q v).encodeAddress ++
        .element .types o.type.element (.element .types q.element (q.around content)))

theorem encodeUpdate_setting {before after : List UpdateOp} {content : Encoding}
    (hpayload : o.payload = before ++ .set q v :: after)
    (helement : q.encode cat ⟨o.session, true, o.linkedZone cat q⟩ v =
      .element .types q.element (q.around content)) :
    o.encodeUpdate cat = .element .types "Updates" (.concat (before.map (o.encodeOp cat)) ++
      (o.encodeSetting q v content ++ .concat (after.map (o.encodeOp cat)))) := by
  have hop : o.encodeOp cat (.set q v) = o.encodeSetting q v content := by
    rw [encodeSetting, ← helement]
    rfl
  have hops : o.encodeUpdate cat =
      .element .types "Updates" (.concat (o.payload.map (o.encodeOp cat))) := rfl
  rw [hops, hpayload, List.map_append, List.map_cons, concat_append, concat_cons, hop]

end LocalCopy

end ObjectTracking

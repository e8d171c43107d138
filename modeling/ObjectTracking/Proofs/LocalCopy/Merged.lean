import ObjectTracking.Proofs.LocalCopy.Loaded
import ObjectTracking.Proofs.LocalCopy.Reloaded
import ObjectTracking.Proofs.LocalCopy.Reported
import ObjectTracking.Proofs.Property.Merged
/-!
Loads that merge. A property that reuses its composite is read into the one it holds, element after
element and load after load, and what comes of it can be changed in place like any other value.
-/
set_option autoImplicit false

namespace ObjectTracking
open Markup

/-- What a field holds once some elements were read, given what it held before: what is said of it in
the end, unless nothing is. The last that is said may be unreadable. -/
def LayoutField.merged (cat : Catalog) (session : Session) (link : Link) (f : LayoutField)
    (ys : List (Tag × Forest)) (v : Field) : Option Field :=
  match (ys.flatMap fun y => f.mentions cat session ⟨some y.1, y.2⟩).getLast? with
  | none => some v
  | some told? => told?.map (Field.attach link)

namespace Property.ReadsAll
variable {cat : Catalog} {session : Session} {link : Link} {l : LayoutId} {ys : List (Tag × Forest)}
  {told : Nat → List Field} {held held' : Option Value} {ix : Nat} {f : LayoutField}

theorem heldField_eq (h : ReadsAll cat session link l ys told held held') (ix : Nat) :
    heldField cat link l held' ix =
      (heldField cat link l held ix).map fun v =>
        ((told ix).map (Field.attach link)).getLast?.getD v :=
  h.overwritten.fields ix

/-- Reading leaves a text field after the first as it is. -/
theorem heldField_further (h : ReadsAll cat session link l ys told held held')
    (hdistinct : ((cat.layout l).fields.map LayoutField.name).Nodup)
    (hunmixed : (cat.layout l).Unmixed) (hf : (cat.layout l).fields[ix]? = some f)
    (hfurther : f.placement = .text ∧ (cat.layout l).textPosition? ≠ some ix) :
    heldField cat link l held' ix = heldField cat link l held ix := by
  have hsaid := h.said ix
  simp only [Layout.said_eq hdistinct hunmixed hf, if_pos hfurther] at hsaid
  have hnil : told ix = [] :=
    List.map_eq_nil_iff.mp (hsaid.symm.trans (List.flatMap_eq_nil_iff.mpr fun _ _ => rfl))
  rw [h.heldField_eq, hnil]
  simp

theorem heldField_heeded (h : ReadsAll cat session link l ys told held held')
    (hdistinct : ((cat.layout l).fields.map LayoutField.name).Nodup)
    (hunmixed : (cat.layout l).Unmixed) (hf : (cat.layout l).fields[ix]? = some f)
    (hheeded : ¬ (f.placement = .text ∧ (cat.layout l).textPosition? ≠ some ix)) :
    heldField cat link l held' ix =
      (heldField cat link l held ix).bind (f.merged cat session link ys) := by
  have hsaid := h.said ix
  simp only [Layout.said_eq hdistinct hunmixed hf, if_neg hheeded] at hsaid
  have hlast : ∀ v, f.merged cat session link ys v =
      some (((told ix).map (Field.attach link)).getLast?.getD v) := by
    intro v
    rw [LayoutField.merged, hsaid, List.getLast?_map, List.getLast?_map]
    cases (told ix).getLast? <;> rfl
  rw [h.heldField_eq, funext hlast, Option.map_eq_bind]
  rfl

end Property.ReadsAll

namespace LocalCopy
variable {cat : Catalog} {o o' o'' : LocalCopy} {p q : Property} {l : LayoutId} {slot : Nat}
  {content : Forest} {cs : List Cursor} {ys : List (Tag × Forest)}

/-- Loads one after the other that succeed, none of which clears the copy first. -/
inductive Loads (cat : Catalog) : LocalCopy → List Cursor → LocalCopy → Prop where
  | nil (o : LocalCopy) : Loads cat o [] o
  | cons {o o' o'' : LocalCopy} {c : Cursor} {cs : List Cursor} {asked : PropertySet}
      {summary : Bool} (first : (o.readObject cat c false asked summary).result = .ok o')
      (rest : Loads cat o' cs o'') : Loads cat o (c :: cs) o''

def sitesOf (o : LocalCopy) (slot : Nat) (cs : List Cursor) : List (Tag × Forest) :=
  cs.flatMap fun c => (Forest.ofNodes c.rest).elements.flatMap (o.type.sitesIn o.version slot)

section Trace

theorem Loads.reading (h : Loads cat o cs o') : Reading o o' := by
  induction h with
  | nil o => exact .refl o
  | cons first _ ih => exact (readObject_reading first).trans ih

/-- What loads make of a slot is what all the elements read into it make of what it held. -/
theorem Loads.readAll (h : Loads cat o cs o') (hq : o.type.property? slot = some q) :
    q.readAll cat o.session (o.link slot)
      (cs.flatMap fun c => elementsOf slot (o.mentions (Forest.ofNodes c.rest)))
        (o.values.get? slot) = some (o'.values.get? slot) := by
  induction h with
  | nil o => rfl
  | @cons o o' o'' c cs asked summary first _ ih =>
    have hreading := readObject_reading first
    have hrest := ih (hreading.type ▸ hq)
    simp only [hreading.session, hreading.link, hreading.mentions_eq] at hrest
    rw [List.flatMap_cons, Property.readAll, List.foldlM_append]
    exact Option.bind_eq_some_iff.mpr ⟨_, readObject_readAll first hq, hrest⟩

theorem element_of_mem_elementMentions {x : Tag × Forest} {m : Mention}
    (h : m ∈ o.elementMentions x) : m.property.element = x.1.name := by
  have hslot : m.slot ∈ o.type.dispatch x.1.name := by
    unfold elementMentions at h
    split at h
    · cases h
    · rename_i slot q hs
      split at h
      · obtain ⟨y, -, hm⟩ := List.mem_flatMap.mp h
        obtain ⟨-, hm⟩ := Option.ite_none_right_eq_some.mp (Option.mem_toList.mp hm)
        obtain ⟨r, hentry, hm⟩ := Option.bind_eq_some_iff.mp hm
        obtain ⟨-, hm⟩ := Option.ite_none_right_eq_some.mp hm
        obtain rfl := Option.some.inj hm
        exact mem_of_entrySlot? hentry
      · split at h
        · obtain rfl := List.mem_singleton.mp h
          exact mem_dispatch_of_head? hs
        · cases h
  obtain ⟨r, hr, helement⟩ := ObjectType.mem_dispatch.mp hslot
  obtain rfl := Option.some.inj ((property?_of_mem_elementMentions h).symm.trans hr)
  exact helement

/-- What is read into the slot of a property that has its element for itself. -/
theorem elementsOf_elementMentions (hq : o.type.property? slot = some q) (hkey : q.key? = none)
    (hown : ∀ n r, o.type.property? n = some r → r.element = q.element → n = slot)
    (x : Tag × Forest) :
    elementsOf slot (o.elementMentions x) = o.type.sitesIn o.version slot x := by
  have hsites : o.type.sitesIn o.version slot x =
      if q.isApplicable o.version then if x.1.name = q.element then [x] else [] else [] := by
    simp only [ObjectType.sitesIn, hq, Property.sitesIn, hkey]
  rw [hsites]
  by_cases hname : x.1.name = q.element
  · obtain ⟨n, r, hhead, hr, helement⟩ := ObjectType.head?_dispatch hq
    obtain rfl := hown n r hr helement
    have hmentions : o.elementMentions x =
        if q.isApplicable o.version then [⟨n, q, x⟩] else [] := by
      simp [elementMentions, hname, hhead, hq, hkey]
    rw [hmentions, if_pos hname]
    split <;> simp [elementsOf]
  · have hnone : elementsOf slot (o.elementMentions x) = [] := by
      rw [elementsOf, List.map_eq_nil_iff, List.filter_eq_nil_iff]
      intro m hm hslot
      have hproperty := property?_of_mem_elementMentions hm
      rw [of_decide_eq_true hslot, hq] at hproperty
      obtain rfl := Option.some.inj hproperty
      exact hname (element_of_mem_elementMentions hm).symm
    rw [hnone, if_neg hname, ite_self]

theorem elementsOf_mentions (hq : o.type.property? slot = some q) (hkey : q.key? = none)
    (hown : ∀ n r, o.type.property? n = some r → r.element = q.element → n = slot)
    (content : Forest) : elementsOf slot (o.mentions content) =
      content.elements.flatMap (o.type.sitesIn o.version slot) := by
  simp only [elementsOf, mentions, List.filter_flatMap, List.map_flatMap]
  congr 1
  funext x
  exact elementsOf_elementMentions hq hkey hown x

end Trace

section InPlace
variable {c : Composite}

/-- A property that holds a value is reached in place where it may be changed. -/
theorem editComposite_of_held {α : Type} (hresolve : o.resolve p = .ok (slot, q))
    (hmutable : o.checkMutable q = .ok ()) (hc : o.values.get? slot = some (.composite c))
    (edit : Composite → Edited Composite α) :
    o.editComposite p edit = o.storeEdited slot ((edit c).within [] .composite) := by
  have hcontains : o.values.contains slot = true := by simp [SlotMap.contains, hc]
  have hinstantiate : o.instantiate p = .ok (slot, q, o) := by
    simp [instantiate, hresolve, hmutable, hcontains, bind, Except.bind]
  simp [editComposite, hinstantiate, hc]

/-- To set a field of what a slot holds, or of something nested in it, counts as a change of it. -/
theorem isModified_of_set (hslot : o.type.slotOf? p = some slot)
    (hc : c.attach (some (o.link slot)) = c) {path : List Step} {name : String} {v : Value}
    (hok : (c.editAt cat (·.set cat name v) path).result = .ok (some ())) :
    (o.storeEdited slot ((c.editAt cat (·.set cat name v) path).within [] .composite)
      ).state.isModified p = true := by
  obtain ⟨n, hn, hset, hsignals⟩ := Composite.editAt_eq_ok hc hok
  have hlink : (c.editAt cat (·.set cat name v) path).signals = [o.link slot] := by
    rw [hsignals, Composite.signals_set_of_ok hset, (Composite.attach_eq_self_iff.mp hn).1]
    rfl
  have hsent : ∀ s ∈ ((c.editAt cat (·.set cat name v) path).within [] Value.composite).signals,
      s = o.link slot := by simp [hlink]
  have htouched := (touched_storeEdited hsent slot).mpr (.inr ⟨rfl, by simp [hlink]⟩)
  simp [isModified, slotIs, isDirty, hslot, htouched]

/-- To set a field in place does what it does to the value that is held, and is told to the owner. -/
theorem editComposite_set_of_held (hresolve : o.resolve p = .ok (slot, q))
    (hmutable : o.checkMutable q = .ok ()) (hc : o.values.get? slot = some (.composite c))
    (hattached : c.attach (some (o.link slot)) = c) (path : List Step) (name : String) (v : Value) :
    (o.editComposite p (Composite.editAt cat (·.set cat name v) path)).result =
        (c.editAt cat (·.set cat name v) path).result ∧
      ((c.editAt cat (·.set cat name v) path).result = .ok (some ()) →
        (o.editComposite p (Composite.editAt cat (·.set cat name v) path)).state.isModified p =
          true) := by
  rw [editComposite_of_held hresolve hmutable hc]
  exact ⟨rfl, isModified_of_set (resolve_eq_ok_iff.mp hresolve).1 hattached⟩

end InPlace

/-- What loads leave of a composite that is read into, given the elements that it was read from. -/
structure Merged (cat : Catalog) (q : Property) (l : LayoutId) (slot : Nat)
    (ys : List (Tag × Forest)) (o o' : LocalCopy) : Prop where
  composite : ys ≠ [] → ∃ c : Composite, o'.values.get? slot = some (.composite c) ∧ c.layout = l
  kept : ys = [] → o'.values.get? slot = o.values.get? slot
  /-- Each field holds what its last mention says, and what it held before if there is none. -/
  fields : ∀ ix f, (cat.layout l).fields[ix]? = some f →
    Property.heldField cat (o.link slot) l (o'.values.get? slot) ix =
      (Property.heldField cat (o.link slot) l (o.values.get? slot) ix).bind
        (f.merged cat o.session (o.link slot) ys)
  /-- What is held can be changed in place where that is permitted, and counts as modified once a field
  of it or of something nested in it was set. -/
  reported : ∀ p c, o'.resolve p = .ok (slot, q) → o'.checkMutable q = .ok () →
    o'.values.get? slot = some (.composite c) → ys ≠ [] ∨ c.attach (some (o.link slot)) = c →
    ∀ path name v,
      (o'.editComposite p (Composite.editAt cat (·.set cat name v) path)).result =
          (c.editAt cat (·.set cat name v) path).result ∧
        ((c.editAt cat (·.set cat name v) path).result = .ok (some ()) →
          (o'.editComposite p (Composite.editAt cat (·.set cat name v) path)).state.isModified p =
            true)

/-- However often a composite is read into, each field holds what was last said of it, but for text
fields after the first: no text is ever read into them. -/
theorem Loads.merged_iff (h : Loads cat o cs o') (hq : o.type.property? slot = some q)
    (hl : q.shape.innermost = .composite l) (hkey : q.key? = none)
    (hreuse : q.has .reuseInstance o.version = true)
    (hown : ∀ n r, o.type.property? n = some r → r.element = q.element → n = slot)
    (hdistinct : ((cat.layout l).fields.map LayoutField.name).Nodup)
    (hunmixed : (cat.layout l).Unmixed) (hys : (o.sitesOf slot cs).mapM q.shape.bare? = some ys) :
    Merged cat q l slot ys o o' ↔ ∀ ix f, (cat.layout l).fields[ix]? = some f →
      f.placement = .text → (cat.layout l).textPosition? ≠ some ix →
        Property.heldField cat (o.link slot) l (o.values.get? slot) ix =
          (Property.heldField cat (o.link slot) l (o.values.get? slot) ix).bind
            (f.merged cat o.session (o.link slot) ys) := by
  have hread := h.readAll hq
  simp only [elementsOf_mentions hq hkey hown] at hread
  obtain ⟨told, hreads⟩ := Property.readAll_merges hl hreuse hys hread
  constructor
  · intro hmerged ix f hf htext hne
    exact (hreads.heldField_further hdistinct hunmixed hf ⟨htext, hne⟩).symm.trans
      (hmerged.fields ix f hf)
  · intro hagree
    refine ⟨?_, hreads.kept, ?_, ?_⟩
    · intro hne
      obtain ⟨c, hc, hlayout, -⟩ := hreads.composite hne
      exact ⟨c, hc, hlayout⟩
    · intro ix f hf
      by_cases hcase : f.placement = .text ∧ (cat.layout l).textPosition? ≠ some ix
      · rw [hreads.heldField_further hdistinct hunmixed hf hcase]
        exact hagree ix f hf hcase.1 hcase.2
      · exact hreads.heldField_heeded hdistinct hunmixed hf hcase
    · intro p c hresolve hmutable hc hattached path name v
      refine editComposite_set_of_held hresolve hmutable hc ?_ path name v
      rw [h.reading.link slot]
      rcases hattached with hne | heq
      · obtain ⟨c', hc', -, heq⟩ := hreads.composite hne
        obtain rfl := Value.composite.inj (Option.some.inj (hc.symm.trans hc'))
        exact heq
      · exact heq

section Poem
open Mail

/-- A verse of two lines, both of which are the text of its element. -/
def verseLayout : Layout := ((Layout.named "Verse").withText "First" .text).withText "Second" .text

def stamp : Property :=
  (Property.composite "Stamp" "poem:Stamp" retentionTag).withFlags (Flag.mutable ++ [.reuseInstance])

def verse : Property :=
  (Property.composite "Verse" "poem:Verse" ⟨layouts.length⟩).withFlags
    (Flag.mutable ++ [.reuseInstance])

def poem : ObjectType where
  element := "Poem"
  target := .item
  members := [⟨.summary, stamp⟩, ⟨.summary, verse⟩]

def poemCatalog : Catalog := catalog [verseLayout]

def textNodes (tag : Tag) (text : String) : List Node :=
  [.opening tag, .text text, .closing tag.ns tag.name]

def poemElement (elements : List Node) : Cursor :=
  ⟨some (.opening ⟨some .types, "Poem", []⟩), elements ++ [.closing (some .types) "Poem"]⟩

/-- The poem with two stamps, the first of which says who has put it there. -/
def stampedTwice : Cursor :=
  poemElement (textNodes ⟨some .types, "Stamp", [("IsExplicit", "true")]⟩ "draft" ++
    textNodes ⟨some .types, "Stamp", []⟩ "final")

def stampedAgain : Cursor := poemElement (textNodes ⟨some .types, "Stamp", []⟩ "printed")

def newPoem : LocalCopy := new 1 poem Mail.session

def poemAfter (o : LocalCopy) (c : Cursor) : LocalCopy :=
  (o.load poemCatalog (Forest.ofNodes c.rest) false {} false).state

def stampedPoem : LocalCopy := poemAfter (poemAfter newPoem stampedTwice) stampedAgain

/-- A stamp that was read three times says who has put it there, and what it says in the end. -/
theorem stampedPoem_merged_iff :
    Loads poemCatalog newPoem [stampedTwice, stampedAgain] stampedPoem ∧
    stampedPoem.values.get? 0 = some (.composite
      (.mk retentionTag (some ⟨1, 0⟩) [.scalar (.boolean true), .scalar (.text "printed")])) ∧
    ∃ ys, (newPoem.sitesOf 0 [stampedTwice, stampedAgain]).mapM stamp.shape.bare? = some ys ∧
      (Merged poemCatalog stamp retentionTag 0 ys newPoem stampedPoem ↔
        ∀ ix f, (poemCatalog.layout retentionTag).fields[ix]? = some f → f.placement = .text →
          (poemCatalog.layout retentionTag).textPosition? ≠ some ix →
            Property.heldField poemCatalog (newPoem.link 0) retentionTag (newPoem.values.get? 0) ix =
              (Property.heldField poemCatalog (newPoem.link 0) retentionTag
                (newPoem.values.get? 0) ix).bind
                  (f.merged poemCatalog newPoem.session (newPoem.link 0) ys)) := by
  have hfirst : (newPoem.readObject poemCatalog stampedTwice false {} false).result =
      .ok (poemAfter newPoem stampedTwice) := by
    rw [readObject_eq, Passage.result_ofTree]
    rfl
  have hsecond : ((poemAfter newPoem stampedTwice).readObject poemCatalog stampedAgain false {}
      false).result = .ok stampedPoem := by
    rw [readObject_eq, Passage.result_ofTree]
    rfl
  have hloads := Loads.cons hfirst (.cons hsecond (.nil stampedPoem))
  have hown : ∀ n r, newPoem.type.property? n = some r → r.element = stamp.element → n = 0 := by
    rintro (_ | _ | n) r hr helement
    · rfl
    · cases hr
      exact absurd helement (by decide)
    · cases hr
  have hunmixed : (poemCatalog.layout retentionTag).Unmixed := by
    unfold Layout.Unmixed
    decide
  exact ⟨hloads, rfl, _, rfl, hloads.merged_iff rfl rfl rfl (by decide) hown (by decide) hunmixed rfl⟩

def versedElement : Cursor := poemElement (textNodes ⟨some .types, "Verse", []⟩ "Hail")

/-- The text of a verse is read into its first line only. -/
theorem versedPoem_not_merged :
    Loads poemCatalog newPoem [versedElement] (poemAfter newPoem versedElement) ∧
    newPoem.type.property? 1 = some verse ∧ verse.has .reuseInstance newPoem.version = true ∧
    ((poemCatalog.layout ⟨layouts.length⟩).fields.map LayoutField.name).Nodup ∧
    (poemCatalog.layout ⟨layouts.length⟩).Unmixed ∧
    ∃ ys, (newPoem.sitesOf 1 [versedElement]).mapM verse.shape.bare? = some ys ∧
      ¬ Merged poemCatalog verse ⟨layouts.length⟩ 1 ys newPoem (poemAfter newPoem versedElement) := by
  have hok : (newPoem.readObject poemCatalog versedElement false {} false).result =
      .ok (poemAfter newPoem versedElement) := by
    rw [readObject_eq, Passage.result_ofTree]
    rfl
  have hunmixed : (poemCatalog.layout ⟨layouts.length⟩).Unmixed := by
    unfold Layout.Unmixed
    decide
  refine ⟨.cons hok (.nil _), rfl, by decide, by decide, hunmixed, _, rfl, ?_⟩
  intro h
  have hline : some Field.unset = some (.scalar (.text "Hail")) :=
    h.fields 1 ⟨"Second", .text, .scalar .text⟩ rfl
  cases hline

end Poem

end LocalCopy

end ObjectTracking

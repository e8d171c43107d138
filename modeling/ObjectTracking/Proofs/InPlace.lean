import ObjectTracking.Proofs.Links
/-!
Nested values changed in place. Whether one is edited or settled, it comes to no link that it did not
have, and reports through none but its own.
-/
set_option autoImplicit false

namespace ObjectTracking

mutual

def Composite.links : Composite → List Link
  | .mk _ k fs => k.toList ++ Field.linksAll fs

def Field.links : Field → List Link
  | .unset | .scalar _ => []
  | .nested c => c.links

def Field.linksAll : List Field → List Link
  | [] => []
  | f :: fs => f.links ++ Field.linksAll fs

end

def Collection.links (c : Collection) : List Link :=
  c.link.toList ++ c.entries.flatMap (·.value.links)

def Value.links : Value → List Link
  | .composite c => c.links
  | .collection c => c.links
  | _ => []

/-- An edit of something with links that gives it none of others and reports through none of
others. -/
structure Edited.Own {σ α : Type} (links : σ → List Link) (s : σ) (e : Edited σ α) : Prop where
  state : links e.state ⊆ links s
  signals : e.signals ⊆ links s

variable {cat : Catalog} {k : Option Link} {l : Link}

mutual

theorem Composite.mem_links_attach : (c : Composite) → l ∈ (c.attach k).links → k = some l
  | .mk _ _ fs, h => by
    rw [Composite.attach, Composite.links, List.mem_append] at h
    rcases h with h | h
    · exact Option.mem_toList.mp h
    · exact Field.mem_linksAll_attachAll fs h

theorem Field.mem_links_attach : (f : Field) → l ∈ (f.attach k).links → k = some l
  | .unset, h => by cases h
  | .scalar _, h => by cases h
  | .nested c, h => c.mem_links_attach h

theorem Field.mem_linksAll_attachAll :
    (fs : List Field) → l ∈ Field.linksAll (Field.attachAll k fs) → k = some l
  | [], h => by cases h
  | f :: fs, h => by
    rw [Field.attachAll, Field.linksAll, List.mem_append] at h
    rcases h with h | h
    · exact f.mem_links_attach h
    · exact Field.mem_linksAll_attachAll fs h

end

theorem Field.linksAll_eq_flatMap (fs : List Field) : Field.linksAll fs = fs.flatMap Field.links := by
  induction fs with
  | nil => rfl
  | cons f fs ih => rw [Field.linksAll, List.flatMap_cons, ih]

namespace Composite
variable {c : Composite}

theorem mem_links : l ∈ c.links ↔ c.link = some l ∨ ∃ f ∈ c.fields, l ∈ f.links := by
  obtain ⟨_, k, fs⟩ := c
  simp [links, link, fields, Field.linksAll_eq_flatMap]

theorem link_subset_links (c : Composite) : c.link.toList ⊆ c.links :=
  fun _ hl => mem_links.mpr (.inl (Option.mem_toList.mp hl))

theorem links_setAt {f : Field} {links' : List Link} (hc : c.links ⊆ links') (hf : f.links ⊆ links')
    (ix : Nat) : (c.setAt ix f).links ⊆ links' := by
  intro l hl
  rcases mem_links.mp hl with hlink | ⟨g, hg, hlg⟩
  · exact hc (mem_links.mpr (.inl hlink))
  · rcases List.mem_or_eq_of_mem_set hg with hg | rfl
    · exact hc (mem_links.mpr (.inr ⟨g, hg, hlg⟩))
    · exact hf hlg

theorem links_nested? {name : String} {ix : Nat} {n : Composite}
    (h : c.nested? cat name = some (ix, n)) : n.links ⊆ c.links := by
  intro l hl
  rcases nested?_eq_some h with ⟨l', -, rfl⟩ | hn
  · exact mem_links.mpr (.inl (mem_links_attach _ hl))
  · exact mem_links.mpr (.inr ⟨_, List.mem_of_getElem? hn, hl⟩)

theorem own_failed {α : Type} (e : Fault) (c : Composite) :
    (Edited.failed e c : Edited Composite α).Own links c :=
  ⟨List.Subset.refl _, List.nil_subset _⟩

theorem own_perform (cat : Catalog) (edit : CompositeEdit) (c : Composite) :
    (c.perform cat edit).Own links c := by
  induction edit generalizing c with
  | touch => exact ⟨List.Subset.refl _, List.nil_subset _⟩
  | set name v =>
    rcases set_eq cat c name v with ⟨ix, f, stored, -, ha, h⟩ | ⟨e, h⟩
    · have hstored : stored.links ⊆ c.links := by
        intro l hl
        rw [← LayoutField.attach_accept ha] at hl
        exact mem_links.mpr (.inl (Field.mem_links_attach _ hl))
      simp only [perform, h]
      exact ⟨links_setAt (List.Subset.refl _) hstored ix, c.link_subset_links⟩
    · simp only [perform, h]
      exact own_failed e c
  | notify => exact ⟨List.Subset.refl _, c.link_subset_links⟩
  | nested name edit ih =>
    rcases editField_eq cat c name (perform cat edit) with ⟨ix, n, hn, h⟩ | ⟨-, e, h⟩
    · have hlinks := links_nested? hn
      simp only [perform, h]
      have hstate : (Field.nested (n.perform cat edit).state).links ⊆ c.links :=
        List.Subset.trans (ih n).state hlinks
      exact ⟨links_setAt (List.Subset.refl _) hstate ix, List.Subset.trans (ih n).signals hlinks⟩
    · simp only [perform, h]
      exact own_failed e c

end Composite

namespace Collection
variable {c : Collection}

theorem mem_links : l ∈ c.links ↔ c.link = some l ∨ ∃ e ∈ c.entries, l ∈ e.value.links := by
  simp [links]

theorem link_subset_links (c : Collection) : c.link.toList ⊆ c.links :=
  fun _ hl => mem_links.mpr (.inl (Option.mem_toList.mp hl))

theorem entry_subset_links {e : Entry} (he : e ∈ c.entries) : e.value.links ⊆ c.links :=
  fun _ hl => mem_links.mpr (.inr ⟨e, he, hl⟩)

theorem links_subset {c' : Collection} {links' : List Link} (hlink : c'.link.toList ⊆ links')
    (hentries : ∀ e ∈ c'.entries, e.value.links ⊆ links') : c'.links ⊆ links' := by
  intro l hl
  rcases mem_links.mp hl with hl | ⟨e, he, hl⟩
  · exact hlink (Option.mem_toList.mpr hl)
  · exact hentries e he hl

theorem attach_links (c : Collection) (item : Composite) : (item.attach c.link).links ⊆ c.links :=
  fun _ hl => mem_links.mpr (.inl (item.mem_links_attach hl))

theorem own_perform (cat : Catalog) (edit : CollectionEdit) (c : Collection) :
    (c.perform cat edit).Own links c := by
  constructor
  · refine links_subset ?_ ?_
    · rw [(perform_change cat edit c).link]
      exact c.link_subset_links
    · refine forall_perform cat edit (P := fun v => v.links ⊆ c.links) c.attach_links ?_
        fun e he => entry_subset_links he
      exact fun edit v hv => List.Subset.trans (Composite.own_perform cat edit v).state hv
  · have hinsert : ∀ ix item, (c.insert cat ix item).signals ⊆ c.links := by
      intro ix item
      rcases insert_eq cat c ix item with ⟨-, h⟩ | ⟨-, e, h⟩
      · rw [h]
        exact c.link_subset_links
      · rw [h]
        exact List.nil_subset _
    cases edit with
    | touch => exact List.nil_subset _
    | insert ix item => exact hinsert ix item
    | push item => exact hinsert _ item
    | remove ix =>
      cases hix : c.entries[ix]? with
      | none => simp [perform, remove, hix]
      | some e => simpa [perform, remove, hix] using c.link_subset_links
    | clear =>
      intro l hl
      obtain ⟨-, -, hl⟩ := List.mem_flatMap.mp hl
      exact c.link_subset_links hl
    | item ix edit =>
      cases hix : c.entries[ix]? with
      | none => simp [perform, editItem?, hix]
      | some e =>
        have hentry := List.Subset.trans (Composite.own_perform cat edit e.value).signals
          (entry_subset_links (List.mem_of_getElem? hix))
        simpa [perform, editItem?, hix] using ⟨c.link_subset_links, hentry⟩

theorem links_markSaved (c : Collection) : c.markSaved.links ⊆ c.links := by
  refine links_subset c.link_subset_links ?_
  intro e he
  obtain ⟨n, hn, rfl⟩ := List.mem_mapIdx.mp he
  exact entry_subset_links (e := c.entries[n]) (List.getElem_mem hn)

end Collection

end ObjectTracking

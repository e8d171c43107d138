import ObjectTracking.Proofs.Markup.Relaxed
import ObjectTracking.Proofs.Markup.Tree
/-!
Which forests are those of some nodes. If an element is left open, then the document ends within it,
and nothing follows it; every forest of which that holds can be written out again.
-/
set_option autoImplicit false

namespace ObjectTracking.Markup.Forest
variable {ρ : Type} {next : Tag → Forest → ρ → ρ} {edit : Tag → Forest → ρ → Tag × Forest}

/-- Nothing follows an element that is left open. -/
def Whole : Forest → Prop
  | closed => True
  | cut => True
  | text _ rest => rest.Whole
  | element _ content rest => content.Whole ∧ rest.Whole ∧ (content.isClosed = false → rest = cut)

/-- What takes the place of a forest: it is closed if that was, and nothing follows what is open. -/
structure Replaces (f f' : Forest) : Prop where
  isClosed : f'.isClosed = f.isClosed
  whole : f.Whole → f'.Whole

theorem Replaces.refl (f : Forest) : f.Replaces f := ⟨rfl, id⟩

theorem Replaces.text {f f' : Forest} (h : f.Replaces f') (s : String) :
    (Forest.text s f).Replaces (.text s f') := ⟨h.isClosed, h.whole⟩

theorem Replaces.element {content content' rest rest' : Forest} (hcontent : content.Replaces content')
    (hrest : rest.Replaces rest') (hcut : rest = cut → rest' = cut) (tag tag' : Tag) :
    (Forest.element tag content rest).Replaces (.element tag' content' rest') := by
  refine ⟨hrest.isClosed, ?_⟩
  rintro ⟨hwhole, hafter, hopen⟩
  refine ⟨hcontent.whole hwhole, hrest.whole hafter, ?_⟩
  intro hclosed
  exact hcut (hopen (hcontent.isClosed.symm.trans hclosed))

theorem along_eq_cut {f : Forest} (h : f = cut) (x : ρ) : f.along next edit x = cut := by
  subst h
  rfl

theorem replaces_along (hedit : ∀ tag (content : Forest) x, content.Replaces (edit tag content x).2)
    (f : Forest) (x : ρ) : f.Replaces (f.along next edit x) := by
  induction f generalizing x with
  | closed => exact .refl _
  | cut => exact .refl _
  | text s rest ih => exact (ih x).text s
  | element tag content rest _ ih =>
    exact (hedit tag content x).element (ih _) (along_eq_cut · _) tag _

def nodes (outer : Tag) : Forest → List Node
  | closed => [.closing outer.ns outer.name]
  | cut => []
  | text s rest => .text s :: rest.nodes outer
  | element tag content rest => .opening tag :: (content.nodes tag ++ rest.nodes outer)

theorem levels_nodes {f : Forest} (hf : f.Whole) (outer : Tag) (ns : List Node)
    (hns : f.isClosed = false → ns = []) : levels (f.nodes outer ++ ns) =
      (f, if f.isClosed then ofNodes ns :: (levels ns).2 else []) := by
  induction f generalizing outer ns with
  | closed => rfl
  | cut =>
    rw [hns rfl]
    rfl
  | text s rest ih =>
    rw [nodes, List.cons_append, levels, ih hf outer ns hns]
    rfl
  | element tag content rest ihcontent ihrest =>
    obtain ⟨hcontent, hrest, hopen⟩ := hf
    have hafter := ihrest hrest outer ns hns
    have hwithin : levels (content.nodes tag ++ (rest.nodes outer ++ ns)) = (content,
        if content.isClosed then ofNodes (rest.nodes outer ++ ns) ::
          (levels (rest.nodes outer ++ ns)).2 else []) := by
      apply ihcontent hcontent tag _
      intro hclosed
      obtain rfl := hopen hclosed
      rw [hns rfl]
      rfl
    rw [nodes, List.cons_append, List.append_assoc, levels, hwithin]
    cases hclosed : content.isClosed with
    | true =>
      simp only [ofNodes, hafter]
      rfl
    | false =>
      obtain rfl := hopen hclosed
      rfl

/-- A forest in which nothing follows what is open is that of its nodes. -/
theorem ofNodes_nodes {f : Forest} (hf : f.Whole) (outer : Tag) : ofNodes (f.nodes outer) = f := by
  have hlevels := levels_nodes hf outer [] fun _ => rfl
  rw [List.append_nil] at hlevels
  rw [ofNodes, hlevels]

/-- What is read from nodes is such a forest. -/
theorem whole_ofNodes (ns : List Node) : (ofNodes ns).Whole := by
  induction hlength : ns.length using Nat.strongRecOn generalizing ns with
  | ind n ih =>
    subst hlength
    match ns with
    | [] => trivial
    | .text s :: rest => exact ih _ (Nat.lt_succ_self _) rest rfl
    | .closing ns name :: rest => trivial
    | .opening tag :: rest =>
      have hcontent : (ofNodes rest).Whole := ih _ (Nat.lt_succ_self _) rest rfl
      cases hc : Cursor.closing? 0 rest with
      | some c =>
        obtain ⟨hclosed, hafter, -⟩ := levels_of_closing? hc
        have hrest := ih _ (Nat.lt_succ_of_lt (Cursor.closing?_length hc)) c.rest rfl
        rw [ofNodes, levels_opening tag hafter]
        exact ⟨hcontent, hrest, by simp [hclosed]⟩
      | none =>
        obtain ⟨-, hafter⟩ := levels_of_not_closing? hc
        have helement : ofNodes (.opening tag :: rest) = element tag (ofNodes rest) cut := by
          cases hlevels : levels rest with
          | mk f outer =>
            rw [hlevels] at hafter
            subst hafter
            simp [ofNodes, levels, hlevels]
        rw [helement]
        exact ⟨hcontent, trivial, fun _ => rfl⟩

/-- What takes the place of the forest of some nodes is the forest of others. -/
theorem Replaces.ofNodes {ns : List Node} {f : Forest} (h : (ofNodes ns).Replaces f)
    (outer : Tag) : ofNodes (f.nodes outer) = f := ofNodes_nodes (h.whole (whole_ofNodes ns)) outer

end ObjectTracking.Markup.Forest

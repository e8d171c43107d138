import ObjectTracking.Proofs.Composite.Reading
/-!
The values that callers come by, however they use the library: new ones, and what comes of them when
they are edited, read into, settled, copied, given to an owner, taken apart and put together. They fit
their layouts, as far as the codecs of these write what they read.
-/
set_option autoImplicit false

namespace ObjectTracking
open Markup

variable {cat : Catalog} {U : LayoutId → Prop}

def Composite.overwrite (n c : Composite) : Edited Composite Unit :=
  .done () (if n.layout = c.layout then n else c) none

/-- The values that callers come by. -/
inductive Value.Made (cat : Catalog) : Value → Prop where
  | null : Made cat .null
  | scalar (s : Scalar) : Made cat (.scalar s)
  | composite (l : LayoutId) : Made cat (.composite (Composite.new cat l))
  | collection (l : LayoutId) (element : String) : Made cat (.collection (Collection.new l element))
  | edit {v : Value} {r : Edited Value Unit} (before : Made cat v) (edit : ValueEdit)
      (brought : ∀ n, edit.assigned? = some n → Made cat (.composite n))
      (performed : v.perform cat edit = some r) : Made cat r.state
  | read {c : Composite} (before : Made cat (.composite c)) (session : Session) (site : Site) :
      Made cat (.composite (c.load cat session site).state)
  | refill {c : Collection} (before : Made cat (.collection c)) (session : Session)
      (content : Forest) : Made cat (.collection (c.load cat session content).state)
  | settle {c : Collection} (before : Made cat (.collection c)) : Made cat (.collection c.markSaved)
  | attach {v : Value} (before : Made cat v) (k : Link) : Made cat (v.attach k)
  | copy {v : Value} (before : Made cat v) : Made cat v.copy
  | field {c n : Composite} (before : Made cat (.composite c)) (inside : .nested n ∈ c.fields) :
      Made cat (.composite n)
  | item {c : Collection} {e : Entry} (before : Made cat (.collection c))
      (inside : e ∈ c.entries) : Made cat (.composite e.value)
  /-- The composite at the end of a path is overwritten. -/
  | overwrite {v : Value} {n : Composite} (before : Made cat v) (brought : Made cat (.composite n))
      (path : List Step) : Made cat (v.editAt cat (Composite.overwrite n) path).state

namespace Composite
variable {c n : Composite}

theorem FitsIn.overwrite (h : c.FitsIn cat U) (hn : n.FitsIn cat U) :
    c.Replaces cat U (n.overwrite c).state := by
  unfold Composite.overwrite
  split
  · rename_i hlayout
    exact ⟨hlayout, hn⟩
  · exact ⟨rfl, h⟩

theorem overwrite_of_layout (h : n.layout = c.layout) : (n.overwrite c).state = n := by
  rw [overwrite, if_pos h]
  rfl

end Composite

theorem Value.Made.fitsIn {v : Value} (h : v.Made cat) (hU : cat.Consistent U) :
    v.FitsIn cat U := by
  induction h with
  | null => trivial
  | scalar s => trivial
  | composite l => exact Composite.fitsIn_new cat U l
  | collection l element => exact fun e he => by cases he
  | edit _ _ _ performed ih ihbrought => exact ih.perform hU.closed ihbrought performed
  | read _ session site ih => exact (Composite.FitsIn.load ih hU session site).fits
  | refill _ session content ih => exact (Collection.replaces_load hU session content _).fits
  | settle _ ih => exact (Collection.FitsIn.markSaved ih).fits
  | attach _ k ih => exact ih.attach k
  | copy _ ih => exact ih.copy
  | field _ inside ih => exact Composite.FitsIn.field ih inside
  | @item c e _ inside ih => exact (ih e inside).2
  | overwrite _ _ path ih ihbrought =>
    exact ih.editAt hU.closed (fun _ hn => hn.overwrite ihbrought) path

/-- A composite that a caller may put in the place of another: one of the same layout. -/
structure Composite.Remade (cat : Catalog) (c c' : Composite) : Prop where
  layout : c'.layout = c.layout
  made : (Value.composite c').Made cat

structure Collection.Remade (cat : Catalog) (c c' : Collection) : Prop where
  layout : c'.layout = c.layout
  element : c'.element = c.element
  made : (Value.collection c').Made cat

section InPlace
variable {α : Type} {edit : Composite → Edited Composite α}

namespace Composite
variable {c n : Composite}

theorem made_attach (h : (Value.composite c).Made cat) (k : Option Link) :
    (Value.composite (c.attach k)).Made cat := by
  cases k with
  | none => exact h.copy
  | some k => exact h.attach k

theorem made_nested? (h : (Value.composite c).Made cat) {name : String} {ix : Nat}
    (hn : c.nested? cat name = some (ix, n)) : (Value.composite n).Made cat := by
  rcases nested?_eq_some hn with ⟨l, -, rfl⟩ | hfield
  · exact made_attach (.composite l) c.link
  · exact h.field (List.mem_of_getElem? hfield)

theorem editField_of_nested? {name : String} {ix : Nat} (hn : c.nested? cat name = some (ix, n))
    (edit : Composite → Edited Composite α) :
    (c.editField cat name edit).state = c.setAt ix (.nested (edit n).state) := by
  rcases editField_eq cat c name edit with ⟨ix', n', hn', heq⟩ | ⟨hnone, -⟩
  · obtain ⟨rfl, rfl⟩ := Prod.mk.inj (Option.some.inj (hn.symm.trans hn'))
    rw [heq, Edited.state_within]
  · cases hn.symm.trans hnone

/-- Changing the value in a field is as good as putting another there. -/
theorem remade_editField (h : (Value.composite c).Made cat)
    (hedit : ∀ n, (Value.composite n).Made cat → n.Remade cat (edit n).state) (name : String) :
    c.Remade cat (c.editField cat name edit).state := by
  rcases editField_eq cat c name edit with ⟨ix, n, hn, -⟩ | ⟨_, e, heq⟩
  · obtain ⟨hlayout, hmade⟩ := hedit n (made_nested? h hn)
    have hover := h.overwrite hmade [.field name]
    rw [Value.editAt, Edited.state_within, Composite.editAt, editField_of_nested? hn,
      Composite.editAt, Edited.state_map, overwrite_of_layout hlayout] at hover
    rw [editField_of_nested? hn]
    exact ⟨layout_setAt c ix _, hover⟩
  · rw [heq]
    exact ⟨rfl, h⟩

theorem remade_editAt (h : (Value.composite c).Made cat)
    (hedit : ∀ n, (Value.composite n).Made cat → n.Remade cat (edit n).state) (path : List Step) :
    c.Remade cat (c.editAt cat edit path).state := by
  induction path generalizing c with
  | nil => exact hedit c h
  | cons step path ih =>
    cases step with
    | item ix => exact ⟨rfl, h⟩
    | field name => exact remade_editField h (fun n hn => ih hn) name

end Composite

theorem Collection.remade_editAt {c : Collection} (h : (Value.collection c).Made cat)
    (hedit : ∀ n, (Value.composite n).Made cat → n.Remade cat (edit n).state) (path : List Step) :
    c.Remade cat (c.editAt cat edit path).state := by
  cases path with
  | nil => exact ⟨rfl, rfl, h⟩
  | cons step path =>
    cases step with
    | field name => exact ⟨rfl, rfl, h⟩
    | item ix =>
      cases he : c.entries[ix]? with
      | none =>
        simp only [editAt, editItem?, he]
        exact ⟨rfl, rfl, h⟩
      | some e =>
        have hitem := h.item (List.mem_of_getElem? he)
        obtain ⟨hlayout, hmade⟩ := Composite.remade_editAt hitem hedit path
        have hover := h.overwrite hmade [.item ix]
        simp only [Value.editAt, editAt, editItem?, he, Option.map_some, Option.getD_some,
          Edited.state_within, Composite.editAt, Edited.state_map,
          Composite.overwrite_of_layout hlayout] at hover
        simp only [editAt, editItem?, he, Option.map_some, Option.getD_some, Edited.state_within]
        exact ⟨rfl, rfl, hover⟩

end InPlace

end ObjectTracking
